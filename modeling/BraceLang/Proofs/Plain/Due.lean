import BraceLang.Proofs.Plain.Locality

/-!
# What is due behind the first tokens of a term

A token list that can be skipped as a term says where the term ends whatever its parts mean. What is
still due behind some of its tokens is a stack. A token that begins a term takes the term off the
stack and puts there what the rest of it consists of; within a group anything goes until the closing
delimiter comes.

* `Plain.due`, `Plain.Fulfils`: the stack, and the tokens that bring it to its end.
* `Plain.Turns`: how tokens open and close groups.
* `Plain.splitBody_of_fulfils`, `Plain.splitOpen_of_fulfils`, `Plain.splitGroups_of_fulfils`: within
  a group the tokens that are due can be split off.
-/

namespace BraceLang.Plain

/-! ## What is due -/

/-- What has to come. -/
inductive Due where
  | term
  /-- the end of a group -/
  | closer (c : Char)

/-- What is due behind a token. -/
def due : List Due → Lexeme → Option (List Due)
  | [], _ => none
  | .term :: below, token =>
    match token with
    | .delimiter '(' => some (.closer ')' :: below)
    | .delimiter '{' => some (.closer '}' :: below)
    | .delimiter _ => none
    | .keyword op => some (List.replicate op.arity .term ++ below)
    | _ => some below
  | .closer c :: below, token =>
    match token with
    | .delimiter '(' => some (.closer ')' :: .closer c :: below)
    | .delimiter '{' => some (.closer '}' :: .closer c :: below)
    | .delimiter ')' => if c = ')' then some below else none
    | .delimiter '}' => if c = '}' then some below else none
    | _ => some (.closer c :: below)

/-- The tokens are what is due, and no more. -/
def Fulfils (dues : List Due) (tokens : Tokens) : Prop := tokens.foldlM due dues = some []

theorem fulfils_nil_iff {dues : List Due} : Fulfils dues [] ↔ dues = [] := by
  simp [Fulfils]

theorem fulfils_cons_iff {dues : List Due} {token : Lexeme} {tokens : Tokens} :
    Fulfils dues (token :: tokens) ↔
      ∃ dues', due dues token = some dues' ∧ Fulfils dues' tokens := by
  unfold Fulfils
  rw [List.foldlM_cons]
  exact Option.bind_eq_some_iff

/-- Where something is due there is a token to read. -/
theorem Fulfils.exists_cons {first : Due} {below : List Due} {tokens : Tokens}
    (h : Fulfils (first :: below) tokens) :
    ∃ token rest dues', tokens = token :: rest ∧ due (first :: below) token = some dues' ∧
      Fulfils dues' rest := by
  cases tokens with
  | nil => cases fulfils_nil_iff.mp h
  | cons token rest =>
    obtain ⟨dues', hdue, hrest⟩ := fulfils_cons_iff.mp h
    exact ⟨token, rest, dues', rfl, hdue, hrest⟩

/-- The tokens are what is due on top, whatever is due below and stands behind. -/
def Ends (dues : List Due) (tokens : Tokens) : Prop :=
  ∀ ⦃below behind⦄, Fulfils below behind → Fulfils (dues ++ below) (tokens ++ behind)

theorem Ends.nil : Ends [] [] := fun _ _ h => h

theorem Ends.append {dues dues' : List Due} {tokens tokens' : Tokens} (h : Ends dues tokens)
    (h' : Ends dues' tokens') : Ends (dues ++ dues') (tokens ++ tokens') := by
  intro below behind hbehind
  rw [List.append_assoc, List.append_assoc]
  exact h (h' hbehind)

theorem Ends.cons {first : Due} {dues dues' : List Due} {token : Lexeme} {tokens : Tokens}
    (hdue : ∀ below, due (first :: (dues ++ below)) token = some (dues' ++ below))
    (h : Ends dues' tokens) : Ends (first :: dues) (token :: tokens) :=
  fun below _ hbehind => fulfils_cons_iff.mpr ⟨_, hdue below, h hbehind⟩

theorem Ends.fulfils {dues : List Due} {tokens : Tokens} (h : Ends dues tokens) :
    Fulfils dues tokens := by
  have hend := h (fulfils_nil_iff.mpr rfl)
  rwa [List.append_nil, List.append_nil] at hend

/-! ## Open groups -/

/-- What is due in open groups, the innermost first. -/
abbrev closing (groups : List Char) (below : List Due) : List Due := groups.map .closer ++ below

/-- What a token does to the open groups. -/
inductive Turns : List Char → Lexeme → List Char → Prop
  | parenthesis {groups : List Char} : Turns groups (.delimiter '(') (')' :: groups)
  | brace {groups : List Char} : Turns groups (.delimiter '{') ('}' :: groups)
  | close {c : Char} {groups : List Char} : c = ')' ∨ c = '}' →
    Turns (c :: groups) (.delimiter c) groups
  | plain {groups : List Char} {token : Lexeme} : token ≠ .delimiter '(' →
    token ≠ .delimiter '{' → token ≠ .delimiter ')' → token ≠ .delimiter '}' →
    Turns groups token groups

theorem turns_of_due {c : Char} {groups : List Char} {below dues : List Due} {token : Lexeme}
    (h : due (closing (c :: groups) below) token = some dues) :
    ∃ groups', Turns (c :: groups) token groups' ∧ dues = closing groups' below := by
  simp only [closing, List.map_cons, List.cons_append] at h
  unfold due at h
  split at h
  · cases h
  · rename_i heq
    cases heq
  · rename_i heq
    cases heq
    split at h
    · cases h
      exact ⟨_, .parenthesis, rfl⟩
    · cases h
      exact ⟨_, .brace, rfl⟩
    · split at h
      · rename_i hc
        cases h
        subst hc
        exact ⟨_, .close (Or.inl rfl), rfl⟩
      · cases h
    · split at h
      · rename_i hc
        cases h
        subst hc
        exact ⟨_, .close (Or.inr rfl), rfl⟩
      · cases h
    · cases h
      exact ⟨_, .plain ‹_› ‹_› ‹_› ‹_›, rfl⟩

/-- A token closes the outermost group, or something happens to the groups that are open in it. -/
theorem Turns.of_append {c : Char} {inner groups : List Char} {token : Lexeme}
    (h : Turns (inner ++ [c]) token groups) :
    (inner = [] ∧ token = .delimiter c ∧ groups = []) ∨
      ∃ inner', Turns inner token inner' ∧ groups = inner' ++ [c] := by
  generalize hall : inner ++ [c] = all at h
  cases h with
  | parenthesis => exact Or.inr ⟨')' :: inner, .parenthesis, by rw [← hall]; rfl⟩
  | brace => exact Or.inr ⟨'\x7d' :: inner, .brace, by rw [← hall]; rfl⟩
  | close hclosing =>
    cases inner with
    | nil =>
      cases hall
      exact Or.inl ⟨rfl, rfl, rfl⟩
    | cons first inner =>
      cases hall
      exact Or.inr ⟨inner, .close hclosing, rfl⟩
  | plain h₁ h₂ h₃ h₄ => exact Or.inr ⟨inner, .plain h₁ h₂ h₃ h₄, hall.symm⟩

/-- In a group there is a token to read. -/
theorem exists_of_fulfils_group {c : Char} {inner : List Char} {below : List Due}
    {tokens : Tokens} (h : Fulfils (closing (inner ++ [c]) below) tokens) :
    ∃ token rest, tokens = token :: rest ∧
      ((inner = [] ∧ token = .delimiter c ∧ Fulfils below rest) ∨
        ∃ inner', Turns inner token inner' ∧ Fulfils (closing (inner' ++ [c]) below) rest) := by
  obtain ⟨first, groups, hgroups⟩ := List.exists_cons_of_ne_nil
    (List.append_ne_nil_of_right_ne_nil inner (List.cons_ne_nil c []))
  rw [hgroups] at h
  obtain ⟨token, rest, dues, rfl, hdue, hrest⟩ := Fulfils.exists_cons h
  obtain ⟨groups', hturns, rfl⟩ := turns_of_due hdue
  rw [← hgroups] at hturns
  rcases hturns.of_append with ⟨rfl, rfl, rfl⟩ | ⟨inner', hinner, rfl⟩
  · exact ⟨_, rest, rfl, Or.inl ⟨rfl, rfl, hrest⟩⟩
  · exact ⟨token, rest, rfl, Or.inr ⟨inner', hinner, hrest⟩⟩

theorem Turns.closers {inner inner' : List Char} {token : Lexeme} (h : Turns inner token inner')
    (hinner : ∀ c ∈ inner, c = ')' ∨ c = '}') : ∀ c ∈ inner', c = ')' ∨ c = '}' := by
  cases h with
  | parenthesis => simpa using hinner
  | brace => simpa using hinner
  | close _ => exact fun c hc => hinner c (List.mem_cons_of_mem _ hc)
  | plain _ _ _ _ => exact hinner

/-! ## Parts that are split off -/

theorem splitBody_cons {token : Lexeme} (hopen : token ≠ .delimiter '{')
    (hclose : token ≠ .delimiter '}') (braces : Nat) (rest : Tokens) :
    splitBody braces (token :: rest) =
      splitBody braces rest >>= fun p => pure (token :: p.1, p.2) := by
  rw [splitBody]
  · rintro rfl
    exact hopen rfl
  · rintro - rfl
    exact hclose rfl
  · rintro _ - rfl
    exact hclose rfl

/-- A body goes on as long as groups are open in it. -/
theorem splitBody_of_turns {inner inner' : List Char} {token : Lexeme}
    (h : Turns inner token inner') (rest : Tokens) :
    splitBody (inner.count '}') (token :: rest) =
      splitBody (inner'.count '}') rest >>= fun p => pure (token :: p.1, p.2) := by
  cases h with
  | parenthesis => exact splitBody_cons (by simp) (by simp) _ _
  | brace =>
    rw [List.count_cons_self]
    rfl
  | close hclosing =>
    rcases hclosing with rfl | rfl
    · exact splitBody_cons (by simp) (by simp) _ _
    · rw [List.count_cons_self]
      rfl
  | plain _ hopen _ hclose => exact splitBody_cons hopen hclose _ _

/-- A body ends at the brace that closes the group, since parentheses and braces match. -/
theorem splitBody_of_fulfils {below : List Due} (inner : List Char) {tokens : Tokens}
    (h : Fulfils (closing (inner ++ ['}']) below) tokens) :
    ∃ body rest, Fulfils below rest ∧ splitBody (inner.count '}') tokens = .ok (body, rest) := by
  induction tokens generalizing inner with
  | nil =>
    obtain ⟨token, rest, hnil, -⟩ := exists_of_fulfils_group h
    cases hnil
  | cons token tokens ih =>
    obtain ⟨_, _, htokens, hcases⟩ := exists_of_fulfils_group h
    cases htokens
    rcases hcases with ⟨rfl, rfl, hrest⟩ | ⟨inner', hturns, hrest⟩
    · exact ⟨[], tokens, hrest, rfl⟩
    · obtain ⟨body, rest, hleft, hbody⟩ := ih inner' hrest
      refine ⟨token :: body, rest, hleft, ?_⟩
      rw [splitBody_of_turns hturns, hbody]
      rfl

theorem countOpen_of_turns {inner inner' : List Char} {token : Lexeme}
    (h : Turns inner token inner') :
    countOpen token (inner.count ')') (inner.count '}') =
      .ok (inner'.count ')', inner'.count '}') := by
  cases h with
  | parenthesis =>
    rw [List.count_cons_self]
    rfl
  | brace =>
    rw [List.count_cons_self]
    rfl
  | close hclosing =>
    rcases hclosing with rfl | rfl
    · rw [List.count_cons_self]
      rfl
    · rw [List.count_cons_self]
      rfl
  | plain h₁ h₂ h₃ h₄ =>
    unfold countOpen
    split <;> first | rfl | contradiction

/-- An argument goes on up to a separator that stands in no group. -/
theorem splitOpen_of_turns {inner inner' : List Char} {token : Lexeme}
    (h : Turns inner token inner') (hinner : ∀ c ∈ inner, c = ')' ∨ c = '}')
    (hgoes : separator? token = none ∨ inner ≠ []) (rest : Tokens) :
    splitOpen (inner.count ')') (inner.count '}') (token :: rest) =
      splitOpen (inner'.count ')') (inner'.count '}') rest >>= fun p =>
        pure ((token :: p.1.1, p.1.2), p.2) := by
  rw [splitOpen]
  · rw [countOpen_of_turns h]
    rfl
  · intro separator hseparator hparens hbraces
    rcases hgoes with hnone | hopen
    · rw [hnone] at hseparator
      cases hseparator
    · obtain ⟨c, outer, rfl⟩ := List.exists_cons_of_ne_nil hopen
      rcases hinner c (List.mem_cons_self ..) with rfl | rfl
      · rw [List.count_cons_self] at hparens
        cases hparens
      · rw [List.count_cons_self] at hbraces
        cases hbraces

/-- What is due in a call behind a separator. -/
def behindSeparator (below : List Due) : Separator → List Due
  | .comma => .closer ')' :: below
  | .close => below

theorem eq_of_separator? {token : Lexeme} {found : Separator} {below dues : List Due}
    (h : separator? token = some found) (hdue : due (.closer ')' :: below) token = some dues) :
    dues = behindSeparator below found := by
  unfold separator? at h
  split at h
  · cases h
    cases hdue
    rfl
  · cases h
    cases hdue
    rfl
  · cases h

/-- An argument ends at a separator, since the parenthesis of the call is still open. -/
theorem splitOpen_of_fulfils {below : List Due} (inner : List Char) {tokens : Tokens}
    (hinner : ∀ c ∈ inner, c = ')' ∨ c = '}')
    (h : Fulfils (closing (inner ++ [')']) below) tokens) :
    ∃ argument separator rest, Fulfils (behindSeparator below separator) rest ∧
      splitOpen (inner.count ')') (inner.count '}') tokens =
        .ok ((argument, separator), rest) := by
  induction tokens generalizing inner with
  | nil =>
    obtain ⟨token, rest, hnil, -⟩ := exists_of_fulfils_group h
    cases hnil
  | cons token tokens ih =>
    by_cases hends : (∃ separator, separator? token = some separator) ∧ inner = []
    · obtain ⟨⟨separator, hseparator⟩, rfl⟩ := hends
      obtain ⟨dues, hdue, hrest⟩ := fulfils_cons_iff.mp h
      rw [eq_of_separator? hseparator hdue] at hrest
      exact ⟨[], separator, tokens, hrest, by simp [splitOpen, hseparator]⟩
    · have hgoes : separator? token = none ∨ inner ≠ [] := by
        cases hseparator : separator? token with
        | none => exact Or.inl rfl
        | some separator => exact Or.inr fun hnil => hends ⟨⟨separator, hseparator⟩, hnil⟩
      obtain ⟨_, _, htokens, hcases⟩ := exists_of_fulfils_group h
      cases htokens
      rcases hcases with ⟨rfl, rfl, -⟩ | ⟨inner', hturns, hrest⟩
      · rcases hgoes with hnone | hne
        · cases hnone
        · exact absurd rfl hne
      · obtain ⟨argument, separator, rest, hleft, hopen⟩ := ih inner' (hturns.closers hinner) hrest
        refine ⟨token :: argument, separator, rest, hleft, ?_⟩
        rw [splitOpen_of_turns hturns hinner hgoes, hopen]
        rfl

/-- Groups end, since their delimiters match. -/
theorem splitGroups_of_fulfils {below : List Due} {groups : List Char} {tokens : Tokens}
    (h : Fulfils (closing groups below) tokens) :
    ∃ rest, Fulfils below rest ∧ splitGroups groups tokens = .ok ((), rest) := by
  induction tokens generalizing groups with
  | nil =>
    cases groups with
    | nil => exact ⟨[], h, by simp [splitGroups]⟩
    | cons c groups => cases fulfils_nil_iff.mp h
  | cons token tokens ih =>
    cases groups with
    | nil => exact ⟨token :: tokens, h, by simp [splitGroups]⟩
    | cons c groups =>
      obtain ⟨dues, hdue, hrest⟩ := fulfils_cons_iff.mp h
      obtain ⟨groups', hturns, rfl⟩ := turns_of_due hdue
      obtain ⟨rest, hleft, hgroups⟩ := ih hrest
      refine ⟨rest, hleft, ?_⟩
      rw [← hgroups]
      cases hturns with
      | parenthesis => rfl
      | brace => rfl
      | close hclosing =>
        rcases hclosing with rfl | rfl
        · rfl
        · rfl
      | plain h₁ h₂ h₃ h₄ =>
        rw [splitGroups]
        · rintro rfl
          exact h₁ rfl
        · rintro rfl
          exact h₂ rfl
        · rintro rfl
          exact h₃ rfl
        · rintro rfl
          exact h₄ rfl

/-- The tokens that are split off as groups close them. -/
theorem ends_of_splitGroups {groups : List Char} {tokens rest : Tokens}
    (h : splitGroups groups tokens = .ok ((), rest)) :
    ∃ taken, tokens = taken ++ rest ∧ Ends (groups.map .closer) taken := by
  fun_induction splitGroups groups tokens with
  | case1 =>
    cases h
    exact ⟨[], rfl, .nil⟩
  | case2 => cases h
  | case3 closer outer behind ih =>
    obtain ⟨taken, rfl, htaken⟩ := ih h
    exact ⟨_ :: taken, rfl, .cons (fun _ => rfl) htaken⟩
  | case4 closer outer behind ih =>
    obtain ⟨taken, rfl, htaken⟩ := ih h
    exact ⟨_ :: taken, rfl, .cons (fun _ => rfl) htaken⟩
  | case5 outer behind ih =>
    obtain ⟨taken, rfl, htaken⟩ := ih h
    exact ⟨_ :: taken, rfl, .cons (fun _ => rfl) htaken⟩
  | case6 => cases h
  | case7 outer behind ih =>
    obtain ⟨taken, rfl, htaken⟩ := ih h
    exact ⟨_ :: taken, rfl, .cons (fun _ => rfl) htaken⟩
  | case8 => cases h
  | case9 closer outer token behind h₁ h₂ h₃ h₄ ih =>
    obtain ⟨taken, rfl, htaken⟩ := ih h
    refine ⟨token :: taken, rfl, .cons (fun below => ?_) htaken⟩
    dsimp only [due]
    split <;> first | rfl | contradiction

end BraceLang.Plain
