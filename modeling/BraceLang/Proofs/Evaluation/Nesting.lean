import Mathlib.Data.List.Basic
import BraceLang.Proofs.Evaluation.Runs

/-!
# Properly nested delimiters

Parentheses and braces are properly nested in a part of a program when a stack of the closing
delimiters that are due can follow them: an opening delimiter puts its counterpart on the stack, a
closing one has to be on top of it, and the stack is empty again at the end.

Skipping a group follows the same stack, from inside the group. A part that is properly nested is
passed; the parts of interest are those that are either properly nested or stop every skipping that
comes across them.

* `Nested`: the delimiters of a part are properly nested.
* `Clashes`: no group that holds the part in front of its end can be skipped.
* `Definite.append`, `Closes.concat`, `Closes.definite`: how parts of either kind are put together.
* `closes_of_isRun_body`: the body of a closure, of which only the braces have been counted,
  closes its group or stops every skipping of it.
-/

namespace BraceLang

/-- The part that a token has in the nesting of groups. -/
inductive Role where
  | plain
  | opens (closer : Char)
  | closes (closer : Char)

def Value.role : Value → Role
  | .delimiter '(' => .opens ')'
  | .delimiter '{' => .opens '}'
  | .delimiter ')' => .closes ')'
  | .delimiter '}' => .closes '}'
  | _ => .plain

/-- What a token does to the closing delimiters that are due, of which the innermost one comes
first. -/
def bracket (due : List Char) (token : Value) : Option (List Char) :=
  match token.role, due with
  | .plain, due => some due
  | .opens closer, due => some (closer :: due)
  | .closes _, [] => none
  | .closes found, closer :: due => if found = closer then some due else none

/-- The parentheses and braces of some tokens are properly nested. -/
def Nested (tokens : List Value) : Prop := tokens.foldlM bracket [] = some []

instance (tokens : List Value) : Decidable (Nested tokens) :=
  inferInstanceAs (Decidable (_ = _))

/-- Skip groups whose closing delimiters are due. -/
def closeGroups (tokens : List Value) : List Char → Except SyntaxFault (Unit × List Value)
  | [] => .ok ((), tokens)
  | closer :: outer =>
    takeRun (fun run => .closerExpected run.closer) groupStep ⟨closer, outer⟩ tokens

/-- Whatever group is skipped, the skipping fails in these tokens. -/
def Clashes (tokens : List Value) : Prop :=
  ∀ due rest, due ≠ [] → ∃ fault, closeGroups (tokens ++ rest) due = .error fault

/-! ## One token -/

section Token

variable {token : Value} {closer : Char} {due due' : List Char}

theorem Value.role_cases (token : Value) :
    token.role = .plain ∨ token = .delimiter '(' ∨ token = .delimiter '{' ∨
      token = .delimiter ')' ∨ token = .delimiter '}' := by
  unfold Value.role
  split <;> simp

theorem eq_of_role_opens (h : token.role = .opens closer) :
    (token = .delimiter '(' ∧ closer = ')') ∨ (token = .delimiter '{' ∧ closer = '}') := by
  rcases token.role_cases with hrole | rfl | rfl | rfl | rfl
  · rw [hrole] at h
    cases h
  · cases h
    exact Or.inl ⟨rfl, rfl⟩
  · cases h
    exact Or.inr ⟨rfl, rfl⟩
  · cases h
  · cases h

theorem eq_of_role_closes (h : token.role = .closes closer) :
    (token = .delimiter ')' ∧ closer = ')') ∨ (token = .delimiter '}' ∧ closer = '}') := by
  rcases token.role_cases with hrole | rfl | rfl | rfl | rfl
  · rw [hrole] at h
    cases h
  · cases h
  · cases h
  · cases h
    exact Or.inl ⟨rfl, rfl⟩
  · cases h
    exact Or.inr ⟨rfl, rfl⟩

theorem bracket_of_plain (h : token.role = .plain) (due : List Char) :
    bracket due token = some due := by
  simp [bracket, h]

theorem bracket_of_opens (h : token.role = .opens closer) (due : List Char) :
    bracket due token = some (closer :: due) := by
  simp [bracket, h]

theorem bracket_of_closes (h : token.role = .closes closer) (due : List Char) :
    bracket (closer :: due) token = some due := by
  simp [bracket, h]

theorem eq_cons_of_bracket (hrole : token.role = .closes closer)
    (h : bracket due token = some due') : due = closer :: due' := by
  unfold bracket at h
  cases due with
  | nil => simp [hrole] at h
  | cons found due =>
    simp only [hrole, Option.ite_none_right_eq_some, Option.some.injEq] at h
    rw [h.1, h.2]

/-- Only a closing delimiter that is not on top of the stack has no place. -/
theorem exists_closes_of_bracket_none (h : bracket (closer :: due) token = none) :
    ∃ found, token.role = .closes found ∧ found ≠ closer := by
  cases hrole : token.role with
  | plain =>
    rw [bracket_of_plain hrole] at h
    cases h
  | opens opened =>
    rw [bracket_of_opens hrole] at h
    cases h
  | closes found =>
    refine ⟨found, rfl, ?_⟩
    rintro rfl
    rw [bracket_of_closes hrole] at h
    cases h

/-- What happens at the top of the stack does not depend on what lies below. -/
theorem bracket_append (h : bracket due token = some due') (outer : List Char) :
    bracket (due ++ outer) token = some (due' ++ outer) := by
  cases hrole : token.role with
  | plain =>
    rw [bracket_of_plain hrole] at h ⊢
    cases h
    rfl
  | opens opened =>
    rw [bracket_of_opens hrole] at h ⊢
    cases h
    rfl
  | closes found =>
    obtain rfl := eq_cons_of_bracket hrole h
    exact bracket_of_closes hrole _

theorem bracket_append_of_none (hne : due ≠ []) (h : bracket due token = none)
    (outer : List Char) : bracket (due ++ outer) token = none := by
  obtain ⟨closer, due, rfl⟩ := List.exists_cons_of_ne_nil hne
  obtain ⟨found, hrole, hfound⟩ := exists_closes_of_bracket_none h
  simp [bracket, hrole, hfound]

/-- What is below the top of the stack stays there, unless the token closes it. -/
theorem exists_bracket_of_concat {inside : List Char} {last : Char} (hne : due ≠ [])
    (h : bracket due token = some (inside ++ [last])) :
    ∃ inside', due = inside' ++ [last] ∧ bracket inside' token = some inside := by
  cases hrole : token.role with
  | plain =>
    rw [bracket_of_plain hrole, Option.some.injEq] at h
    exact ⟨inside, h, bracket_of_plain hrole _⟩
  | opens opened =>
    rw [bracket_of_opens hrole, Option.some.injEq] at h
    cases inside with
    | nil =>
      simp only [List.nil_append, List.cons.injEq] at h
      exact absurd h.2 hne
    | cons first inside =>
      simp only [List.cons_append, List.cons.injEq] at h
      obtain ⟨rfl, rfl⟩ := h
      exact ⟨inside, rfl, bracket_of_opens hrole _⟩
  | closes found =>
    obtain rfl := eq_cons_of_bracket hrole h
    exact ⟨found :: inside, rfl, bracket_of_closes hrole _⟩

/-- The stack is emptied by the last closing delimiter that is due. -/
theorem closes_of_bracket_nil (h : bracket (closer :: due) token = some []) :
    due = [] ∧ token.role = .closes closer := by
  cases hrole : token.role with
  | plain =>
    rw [bracket_of_plain hrole] at h
    cases h
  | opens opened =>
    rw [bracket_of_opens hrole] at h
    cases h
  | closes found =>
    cases eq_cons_of_bracket hrole h
    exact ⟨rfl, rfl⟩

end Token

/-! ## The stack and the skipping of a group -/

section Step

variable {token : Value} {tokens : List Value} {due due' : List Char}

/-- Where the skipping of a group is when these closing delimiters are due. -/
def groupProgress : List Char → Progress GroupRun Unit
  | [] => .done ()
  | closer :: outer => .more ⟨closer, outer⟩

theorem groupStep_eq (run : GroupRun) (token : Value) :
    groupStep run token =
      match token.role with
      | .plain => .ok (.more run)
      | .opens closer => .ok (.more (run.enter closer))
      | .closes closer => run.leave closer := by
  unfold groupStep
  split
  · rfl
  · rfl
  · rfl
  · rfl
  · have hrole : token.role = .plain := by
      unfold Value.role
      split <;> simp_all
    simp only [hrole]

theorem groupStep_of_bracket {run : GroupRun}
    (h : bracket (run.closer :: run.outer) token = some due) :
    groupStep run token = .ok (groupProgress due) := by
  rw [groupStep_eq]
  cases hrole : token.role with
  | plain =>
    rw [bracket_of_plain hrole] at h
    cases h
    rfl
  | opens opened =>
    rw [bracket_of_opens hrole] at h
    cases h
    rfl
  | closes found =>
    obtain ⟨closer, outer⟩ := run
    cases eq_cons_of_bracket hrole h
    simp only [GroupRun.leave, if_true]
    cases outer <;> rfl

theorem groupStep_of_clash {run : GroupRun}
    (h : bracket (run.closer :: run.outer) token = none) :
    ∃ fault, groupStep run token = .error fault := by
  obtain ⟨found, hrole, hfound⟩ := exists_closes_of_bracket_none h
  exact ⟨.closerMismatch run.closer found, by simp [groupStep_eq, hrole, GroupRun.leave, hfound]⟩

theorem bracket_of_groupStep {run : GroupRun} {progress : Progress GroupRun Unit}
    (h : groupStep run token = .ok progress) :
    ∃ due, bracket (run.closer :: run.outer) token = some due ∧ progress = groupProgress due := by
  cases hstep : bracket (run.closer :: run.outer) token with
  | some due =>
    rw [groupStep_of_bracket hstep] at h
    cases h
    exact ⟨due, rfl, rfl⟩
  | none =>
    obtain ⟨fault, hfault⟩ := groupStep_of_clash hstep
    rw [hfault] at h
    cases h

/-- Skipping takes a token as the stack does. -/
theorem closeGroups_of_bracket (hne : due ≠ []) (h : bracket due token = some due') :
    closeGroups (token :: tokens) due = closeGroups tokens due' := by
  obtain ⟨closer, outer, rfl⟩ := List.exists_cons_of_ne_nil hne
  have hstep : groupStep ⟨closer, outer⟩ token = .ok (groupProgress due') :=
    groupStep_of_bracket h
  simp only [closeGroups, takeRun, hstep]
  cases due' <;> rfl

theorem closeGroups_of_clash (hne : due ≠ []) (h : bracket due token = none)
    (tokens : List Value) : ∃ fault, closeGroups (token :: tokens) due = .error fault := by
  obtain ⟨closer, outer, rfl⟩ := List.exists_cons_of_ne_nil hne
  have hstep : ∃ fault, groupStep ⟨closer, outer⟩ token = .error fault := groupStep_of_clash h
  obtain ⟨fault, hfault⟩ := hstep
  exact ⟨fault, by simp only [closeGroups, takeRun, hfault]⟩

end Step

/-! ## Several tokens -/

theorem foldlM_bracket_append {tokens : List Value} {due due' : List Char}
    (h : tokens.foldlM bracket due = some due') (outer : List Char) :
    tokens.foldlM bracket (due ++ outer) = some (due' ++ outer) := by
  induction tokens generalizing due with
  | nil =>
    cases h
    rfl
  | cons token tokens ih =>
    rw [List.foldlM_cons] at h ⊢
    obtain ⟨next, hnext, hrest⟩ := Option.bind_eq_some_iff.mp h
    exact Option.bind_eq_some_iff.mpr ⟨_, bracket_append hnext outer, ih hrest⟩

theorem closeGroups_of_foldlM {tokens : List Value} {due due' outer : List Char}
    (hne : outer ≠ []) (h : tokens.foldlM bracket due = some due') (rest : List Value) :
    closeGroups (tokens ++ rest) (due ++ outer) = closeGroups rest (due' ++ outer) := by
  induction tokens generalizing due with
  | nil =>
    cases h
    rfl
  | cons token tokens ih =>
    rw [List.foldlM_cons] at h
    obtain ⟨next, hnext, hrest⟩ := Option.bind_eq_some_iff.mp h
    have hne' : due ++ outer ≠ [] := by simp [hne]
    rw [List.cons_append, closeGroups_of_bracket hne' (bracket_append hnext outer)]
    exact ih hrest

namespace Nested

variable {tokens tokens' : List Value}

theorem nil : Nested [] := rfl

theorem foldlM_bracket (h : Nested tokens) (due : List Char) :
    tokens.foldlM bracket due = some due := foldlM_bracket_append h due

/-- A properly nested part is passed. -/
theorem closeGroups_append (h : Nested tokens) {due : List Char} (hne : due ≠ [])
    (rest : List Value) : closeGroups (tokens ++ rest) due = closeGroups rest due :=
  closeGroups_of_foldlM hne h rest

theorem append (h : Nested tokens) (h' : Nested tokens') : Nested (tokens ++ tokens') := by
  unfold Nested at *
  rw [List.foldlM_append, h]
  exact h'

theorem of_plain (h : ∀ token ∈ tokens, token.role = .plain) : Nested tokens := by
  induction tokens with
  | nil => exact nil
  | cons token tokens ih =>
    have htoken : bracket [] token = some [] := by
      simp [bracket, h token (List.mem_cons_self)]
    have hrest := ih fun t ht => h t (List.mem_cons_of_mem _ ht)
    unfold Nested at *
    rw [List.foldlM_cons, htoken]
    exact hrest

end Nested

namespace Clashes

variable {tokens tokens' : List Value}

theorem append_left (h : Clashes tokens) (tokens' : List Value) : Clashes (tokens ++ tokens') := by
  intro due rest hne
  rw [List.append_assoc]
  exact h due _ hne

theorem append_right (h : Nested tokens) (h' : Clashes tokens') : Clashes (tokens ++ tokens') := by
  intro due rest hne
  rw [List.append_assoc, h.closeGroups_append hne]
  exact h' due rest hne

/-- A group that ends behind the part can be skipped if the part is properly nested. -/
theorem not_nested (h : Clashes tokens) : ¬ Nested tokens := by
  intro hn
  obtain ⟨fault, hfault⟩ := h [')'] [.delimiter ')'] (List.cons_ne_nil _ _)
  rw [hn.closeGroups_append (List.cons_ne_nil _ _)] at hfault
  cases hfault

end Clashes

/-! ## Parts of either kind -/

/-- The part is properly nested or stops every skipping. -/
def Definite (tokens : List Value) : Prop := Nested tokens ∨ Clashes tokens

namespace Definite

variable {tokens tokens' : List Value}

theorem append (h : Definite tokens) (h' : Definite tokens') : Definite (tokens ++ tokens') := by
  rcases h with hn | hc
  · rcases h' with hn' | hc'
    · exact Or.inl (hn.append hn')
    · exact Or.inr (Clashes.append_right hn hc')
  · exact Or.inr (hc.append_left _)

theorem flatten {parts : List (List Value)} (h : ∀ part ∈ parts, Definite part) :
    Definite parts.flatten := by
  induction parts with
  | nil => exact Or.inl Nested.nil
  | cons part parts ih =>
    rw [List.flatten_cons]
    exact (h part List.mem_cons_self).append (ih fun p hp => h p (List.mem_cons_of_mem _ hp))

theorem of_plain (h : ∀ token ∈ tokens, token.role = .plain) : Definite tokens :=
  Or.inl (Nested.of_plain h)

end Definite

/-! ## Groups -/

theorem Nested.of_opens {opening : Value} {closer : Char} {tokens : List Value}
    (hopening : opening.role = .opens closer) (h : tokens.foldlM bracket [closer] = some []) :
    Nested (opening :: tokens) := by
  unfold Nested
  rw [List.foldlM_cons, bracket_of_opens hopening]
  exact h

theorem Clashes.of_opens {opening : Value} {closer : Char} {tokens : List Value}
    (hopening : opening.role = .opens closer)
    (h : ∀ outer rest, ∃ fault, closeGroups (tokens ++ rest) ([closer] ++ outer) = .error fault) :
    Clashes (opening :: tokens) := by
  intro due rest hne
  rw [List.cons_append, closeGroups_of_bracket hne (bracket_of_opens hopening due)]
  exact h due rest

/-- The tokens behind an opening delimiter close what is due, but not more than that, or stop every
skipping. -/
def Closes (tokens : List Value) (due : List Char) : Prop :=
  (tokens.foldlM bracket due = some [] ∧
    ∀ outer rest, closeGroups (tokens ++ rest) (due ++ outer) = closeGroups rest outer) ∨
  ∀ outer rest, ∃ fault, closeGroups (tokens ++ rest) (due ++ outer) = .error fault

namespace Closes

variable {tokens : List Value} {due : List Char}

theorem nil : Closes [] [] := Or.inl ⟨rfl, fun _ _ => rfl⟩

theorem cons {token : Value} (hne : due ≠ [])
    (h : ∀ due', bracket due token = some due' → Closes tokens due') :
    Closes (token :: tokens) due := by
  have hne' : ∀ outer, due ++ outer ≠ [] := by simp [hne]
  cases hstep : bracket due token with
  | some due' =>
    have hskip : ∀ outer rest, closeGroups (token :: tokens ++ rest) (due ++ outer) =
        closeGroups (tokens ++ rest) (due' ++ outer) := fun outer rest =>
      closeGroups_of_bracket (hne' outer) (bracket_append hstep outer)
    rcases h due' hstep with ⟨hfold, hpass⟩ | hfault
    · refine Or.inl ⟨?_, fun outer rest => (hskip outer rest).trans (hpass outer rest)⟩
      rw [List.foldlM_cons, hstep]
      exact hfold
    · refine Or.inr fun outer rest => ?_
      rw [hskip]
      exact hfault outer rest
  | none =>
    exact Or.inr fun outer rest =>
      closeGroups_of_clash (hne' outer) (bracket_append_of_none hne hstep outer) _

theorem append {inner : List Value} (hne : due ≠ []) (hinner : Definite inner)
    (h : Closes tokens due) : Closes (inner ++ tokens) due := by
  have hne' : ∀ outer, due ++ outer ≠ [] := by simp [hne]
  rcases hinner with hnested | hclash
  · have hskip : ∀ outer rest, closeGroups (inner ++ tokens ++ rest) (due ++ outer) =
        closeGroups (tokens ++ rest) (due ++ outer) := by
      intro outer rest
      rw [List.append_assoc, hnested.closeGroups_append (hne' outer)]
    rcases h with ⟨hfold, hpass⟩ | hfault
    · refine Or.inl ⟨?_, fun outer rest => (hskip outer rest).trans (hpass outer rest)⟩
      rw [List.foldlM_append, hnested.foldlM_bracket]
      exact hfold
    · refine Or.inr fun outer rest => ?_
      rw [hskip]
      exact hfault outer rest
  · refine Or.inr fun outer rest => ?_
    rw [List.append_assoc]
    exact hclash _ _ (hne' outer)

/-- A closing delimiter behind a definite part. -/
theorem concat {inner : List Value} {closing : Value} {closer : Char}
    (hclosing : closing.role = .closes closer) (hinner : Definite inner) :
    Closes (inner ++ [closing]) [closer] := by
  have hne : [closer] ≠ [] := List.cons_ne_nil _ _
  refine append hne hinner (cons hne fun due' hdue' => ?_)
  simp only [bracket, hclosing, if_true, Option.some.injEq] at hdue'
  subst hdue'
  exact nil

/-- A whole group. -/
theorem definite {opening : Value} {closer : Char} (hopening : opening.role = .opens closer)
    (h : Closes tokens [closer]) : Definite (opening :: tokens) := by
  rcases h with ⟨hfold, -⟩ | hfault
  · exact Or.inl (Nested.of_opens hopening hfold)
  · exact Or.inr (Clashes.of_opens hopening hfault)

theorem of_closeGroups {rest : List Value} (h : closeGroups tokens due = .ok ((), rest)) :
    ∃ taken, tokens = taken ++ rest ∧ Closes taken due := by
  induction tokens generalizing due with
  | nil =>
    cases due with
    | nil =>
      cases h
      exact ⟨[], rfl, nil⟩
    | cons closer outer => simp [closeGroups, takeRun] at h
  | cons token tokens ih =>
    cases hdue : due with
    | nil =>
      subst hdue
      cases h
      exact ⟨[], rfl, nil⟩
    | cons closer outer =>
      have hne : due ≠ [] := by simp [hdue]
      rw [← hdue]
      cases hstep : bracket due token with
      | some due' =>
        rw [closeGroups_of_bracket hne hstep] at h
        obtain ⟨taken, rfl, htaken⟩ := ih h
        refine ⟨token :: taken, rfl, cons hne fun due'' hdue'' => ?_⟩
        rw [hstep] at hdue''
        cases hdue''
        exact htaken
      | none =>
        obtain ⟨fault, hfault⟩ := closeGroups_of_clash hne hstep tokens
        rw [hfault] at h
        cases h

end Closes

/-! ## Heads and bodies of closures -/

/-- Only marks, names and the colon are formal parameters. -/
theorem plain_of_isRun_formals {run : FormalRun} {tokens result : List Value}
    (h : IsRun formalStep run tokens result) : ∀ token ∈ tokens, token.role = .plain := by
  have hplain : ∀ {run token progress}, formalStep run token = .ok progress →
      token.role = .plain := by
    intro run token progress hstep
    unfold formalStep at hstep
    split at hstep
    · rfl
    · rfl
    · rfl
    · cases hstep
  induction h with
  | done hstep => simpa using hplain hstep
  | more hstep _ ih => simpa using ⟨hplain hstep, ih⟩

/-- The number of open braces is the number of closing braces that are due. -/
theorem inner_of_bodyStep {run state : BodyRun} {token : Value} {inner due : List Char}
    (hstep : bodyStep run token = .ok (.more state)) (hinner : inner.count '}' = run.braces)
    (hdue : bracket (inner ++ ['}']) token = some due) :
    ∃ inner', due = inner' ++ ['}'] ∧ inner'.count '}' = state.braces := by
  rcases token.role_cases with hrole | rfl | rfl | rfl | rfl
  · have hbraces : state.braces = run.braces := by
      unfold bodyStep at hstep
      split at hstep
      · cases hrole
      · cases hrole
      · cases hrole
      · cases hstep
        rfl
    rw [bracket_of_plain hrole, Option.some.injEq] at hdue
    exact ⟨inner, hdue.symm, hinner.trans hbraces.symm⟩
  · cases hstep
    cases hdue
    exact ⟨')' :: inner, rfl, by simpa using hinner⟩
  · cases hstep
    cases hdue
    exact ⟨'}' :: inner, rfl, by simp [hinner]⟩
  · cases hstep
    have hcons : inner ++ ['}'] = ')' :: due := eq_cons_of_bracket rfl hdue
    cases inner with
    | nil => cases hcons
    | cons closer inner =>
      cases hcons
      exact ⟨inner, rfl, by simpa using hinner⟩
  · have hcons : inner ++ ['}'] = '}' :: due := eq_cons_of_bracket rfl hdue
    cases hbraces : run.braces with
    | zero => simp [bodyStep, hbraces] at hstep
    | succ braces =>
      simp only [bodyStep, hbraces, Except.ok.injEq, Progress.more.injEq] at hstep
      cases hstep
      cases inner with
      | nil => simp [hbraces] at hinner
      | cons closer inner =>
        cases hcons
        rw [hbraces, List.count_cons_self] at hinner
        exact ⟨inner, rfl, by simpa using hinner⟩

/-- When the brace that closes a body comes, no other brace is open. -/
theorem due_of_bodyStep {run : BodyRun} {token : Value} {inner due : List Char}
    {result : List Value} (hstep : bodyStep run token = .ok (.done result))
    (hinner : inner.count '}' = run.braces)
    (hdue : bracket (inner ++ ['}']) token = some due) : due = [] := by
  unfold bodyStep at hstep
  split at hstep
  · rename_i hbraces
    have hcons : inner ++ ['}'] = '}' :: due := eq_cons_of_bracket rfl hdue
    cases inner with
    | nil =>
      cases hcons
      rfl
    | cons closer inner =>
      cases hcons
      rw [hbraces] at hinner
      simp at hinner
  · cases hstep
  · cases hstep
  · cases hstep

/-- Counting the braces finds the end of a body. The parentheses in it may be unbalanced: then
a closing delimiter meets a stack that has another one on top. -/
theorem closes_of_isRun_body {run : BodyRun} {tokens result : List Value}
    (h : IsRun bodyStep run tokens result) {inner : List Char}
    (hinner : inner.count '}' = run.braces) : Closes tokens (inner ++ ['}']) := by
  have hne : ∀ inner : List Char, inner ++ ['}'] ≠ [] := by simp
  induction h generalizing inner with
  | done hstep =>
    refine Closes.cons (hne inner) fun due hdue => ?_
    rw [due_of_bodyStep hstep hinner hdue]
    exact Closes.nil
  | more hstep _ ih =>
    refine Closes.cons (hne inner) fun due hdue => ?_
    obtain ⟨inner', rfl, hinner'⟩ := inner_of_bodyStep hstep hinner hdue
    exact ih hinner'

/-- A group that has been skipped. -/
theorem closes_of_isRun_group {closer : Char} {tokens : List Value} {u : Unit}
    (h : IsRun groupStep { closer } tokens u) : Closes tokens [closer] := by
  have hgroups : closeGroups (tokens ++ []) [closer] = .ok ((), []) := h.takeRun_append _ []
  obtain ⟨taken, hsplit, hcloses⟩ := Closes.of_closeGroups hgroups
  rwa [List.append_cancel_right hsplit]

end BraceLang
