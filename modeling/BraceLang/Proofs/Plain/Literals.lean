import BraceLang.Proofs.Plain.Invariants
import BraceLang.Proofs.Plain.Reading
import BraceLang.Proofs.Reference.Calls

/-!
# Values whose text is a program

The text of a number, of a string and of a closure without environment is a term. Evaluating it
gives the value that was written, as the tokens of the closure stand in the text as they stood in
the first program: the body of a closure need not be a term, nor need its parentheses match, but its
braces do.

The closure is part of the first program and was made by it, so that its text has no more tokens,
and that reading the text and making the closure again takes no more cells.

* `closureTokens`: the tokens of a closure.
* `Lexicon.invariant`: every closure that a program makes is written with tokens of the program.
* `Plain.evalText_full`: the text of a literal is evaluated to the literal.
-/

namespace BraceLang

/-- The tokens of a closure. -/
def closureTokens (params : List Param) (body : Tokens) : Tokens :=
  .delimiter '{' :: params.flatMap Param.tokens ++ .delimiter ':' :: body ++ [.delimiter '}']

/-- A value that is written as a term. -/
inductive Datum.IsLiteral : Datum Tokens → Prop
  | number {x : Float} : IsLiteral (.number x)
  | string {text : List Char} : IsLiteral (.string text)
  | closure {params : List Param} {body : Tokens} : IsLiteral (.closure params body [])

namespace Plain

/-! ## The parts of a closure -/

/-- Formal parameters stand in front of their colon. The flag says that the exclamation mark of the
first one has been taken. -/
theorem eq_of_splitFormals {marked : Bool} {tokens behind : Tokens} {params : List Param}
    (h : splitFormals marked tokens = .ok (params, behind)) :
    (if marked then [.delimiter '!'] else []) ++ tokens =
      params.flatMap Param.tokens ++ .delimiter ':' :: behind := by
  fun_induction splitFormals marked tokens generalizing params with
  | case1 => cases h
  | case2 => 
    cases h
    rfl
  | case3 rest ih => simpa using ih h
  | case4 marked name rest ih =>
    cases hrest : splitFormals false rest with
    | error fault =>
      rw [hrest] at h
      cases h
    | ok p =>
      obtain ⟨others, left⟩ := p
      rw [hrest] at h
      cases h
      have htail := ih hrest
      cases marked <;> simpa [Param.tokens] using htail
  | case5 => cases h

/-- A body stands in front of the brace that closes it. -/
theorem eq_of_splitBody {braces : Nat} {tokens body rest : Tokens}
    (h : splitBody braces tokens = .ok (body, rest)) : tokens = body ++ .delimiter '}' :: rest := by
  have hcons : ∀ {braces : Nat} {token : Lexeme} {tokens body : Tokens},
      (∀ {inner}, splitBody braces tokens = .ok (inner, rest) →
        tokens = inner ++ .delimiter '}' :: rest) →
      (splitBody braces tokens >>= fun p => Except.ok (token :: p.1, p.2)) = .ok (body, rest) →
      token :: tokens = body ++ .delimiter '}' :: rest := by
    intro braces token tokens body ih h
    cases hsplit : splitBody braces tokens with
    | error fault =>
      rw [hsplit] at h
      cases h
    | ok p =>
      obtain ⟨inner, left⟩ := p
      rw [hsplit] at h
      cases h
      rw [List.cons_append, ← ih hsplit]
  fun_induction splitBody braces tokens generalizing body with
  | case1 => cases h
  | case2 =>
    cases h
    rfl
  | case3 braces behind ih => exact hcons ih h
  | case4 braces behind ih => exact hcons ih h
  | case5 braces token behind _ _ _ ih => exact hcons ih h

/-- A body is split off whatever stands behind the brace that closes it. -/
theorem splitBody_append {tokens body rest : Tokens} (h : splitBody 0 tokens = .ok (body, rest))
    (rest' : Tokens) : splitBody 0 (body ++ .delimiter '}' :: rest') = .ok (body, rest') := by
  obtain ⟨taken, htokens, hsplit⟩ := cuts_splitBody 0 h
  have htaken : taken = body ++ [.delimiter '}'] := by
    have heq := htokens.symm.trans (eq_of_splitBody h)
    rw [List.append_cons] at heq
    exact List.append_cancel_right heq
  have := hsplit rest'
  rwa [htaken, List.append_assoc] at this

theorem tokens_of_closure {tokens behind body rest : Tokens} {params : List Param}
    (hformals : splitFormals false tokens = .ok (params, behind))
    (hbody : splitBody 0 behind = .ok (body, rest)) :
    .delimiter '{' :: tokens = closureTokens params body ++ rest := by
  have htokens : tokens = params.flatMap Param.tokens ++ .delimiter ':' :: behind :=
    eq_of_splitFormals hformals
  rw [htokens, eq_of_splitBody hbody]
  simp [closureTokens]

theorem isInfix_closureTokens (params : List Param) (body : Tokens) :
    body <:+: closureTokens params body :=
  ⟨.delimiter '{' :: params.flatMap Param.tokens ++ [.delimiter ':'], [.delimiter '}'],
    by simp [closureTokens]⟩

theorem isPrefix_of_splitOpen {parens braces : Nat} {tokens argument rest : Tokens}
    {separator : Separator}
    (h : splitOpen parens braces tokens = .ok ((argument, separator), rest)) :
    argument <+: tokens := by
  induction tokens generalizing parens braces argument with
  | nil => cases h
  | cons token behind ih =>
    rcases splitOpen_cons parens braces token with ⟨separator, hend⟩ | hinside
    · rw [hend] at h
      cases h
      exact List.nil_prefix
    · rw [hinside] at h
      cases hcount : countOpen token parens braces with
      | error fault =>
        rw [hcount] at h
        cases h
      | ok counts =>
        obtain ⟨parens', braces'⟩ := counts
        cases hsplit : splitOpen parens' braces' behind with
        | error fault =>
          simp only [hcount, hsplit, bind, Except.bind] at h
          cases h
        | ok p =>
          obtain ⟨⟨inner, found⟩, left⟩ := p
          simp only [hcount, hsplit, bind, Except.bind] at h
          cases h
          exact List.cons_prefix_cons.mpr ⟨rfl, ih hsplit⟩

/-- A deferred argument stands in front of the token that ends it. -/
theorem isPrefix_of_splitArgument {tokens argument rest : Tokens} {separator : Separator}
    (h : splitArgument tokens = .ok ((argument, separator), rest)) : argument <+: tokens := by
  unfold splitArgument at h
  split at h
  · cases h
  · exact isPrefix_of_splitOpen h

end Plain

/-! ## Closures that are written with tokens of the program -/

/-- What is said of the values of a program with a number of tokens. Its tokens take two cells each
before a closure is made. -/
def Lexicon.invariant (lx : Lexicon) (count : Nat) : Invariant where
  string text := lx.Reads (.string text)
  closure used params body :=
    (∀ token ∈ closureTokens params body, lx.Reads token) ∧
      (∀ rest, Plain.splitBody 0 (body ++ .delimiter '}' :: rest) = .ok (body, rest)) ∧
      (closureTokens params body).length ≤ count ∧
      2 * count + (2 * params.length + body.length + 3) ≤ used
  tokens tokens := (∀ token ∈ tokens, lx.Reads token) ∧ tokens.length ≤ count

theorem Lexicon.lawful_invariant (lx : Lexicon) (count : Nat) :
    (lx.invariant count).Lawful (2 * count) where
  mono := fun hle h => ⟨h.1, h.2.1, h.2.2.1, Nat.le_trans h.2.2.2 hle⟩
  suffix := fun h => ⟨fun token hmem => h.1 token (List.mem_append_right _ hmem),
    Nat.le_trans (List.length_append ▸ Nat.le_add_left _ _) h.2⟩
  string := fun h => h.1 _ List.mem_cons_self
  argument := by
    intro tokens argument separator rest h hsplit
    have hfront := Plain.isPrefix_of_splitArgument hsplit
    exact ⟨fun token hmem => h.1 token (hfront.subset hmem), Nat.le_trans hfront.length_le h.2⟩
  closure := by
    intro tokens params behind body rest used h hformals hbody hleast
    obtain ⟨hreads, hlength⟩ := h
    rw [Plain.tokens_of_closure hformals hbody] at hreads hlength
    rw [List.length_append] at hlength
    have hclosure : ∀ token ∈ closureTokens params body, lx.Reads token := fun token hmem =>
      hreads token (List.mem_append_left _ hmem)
    have hinside := Plain.isInfix_closureTokens params body
    refine ⟨⟨hclosure, Plain.splitBody_append hbody, by omega, by omega⟩,
      fun token hmem => hclosure token (hinside.subset hmem), ?_⟩
    have := hinside.length_le
    omega

namespace Lexicon

variable {lx : Lexicon}

/-! ## The text of a closure -/

theorem lex_param_append (hlx : lx.Standard) {p : Param} (h : ∀ token ∈ p.tokens, lx.Reads token)
    {rest : List Char} (hrest : lx.Parted rest) :
    lx.lex (p.text ++ rest) = (p.tokens ++ (lx.lex rest).1, (lx.lex rest).2) := by
  obtain ⟨mode, name⟩ := p
  cases mode with
  | eager => exact lex_text_append hlx (h (.atom name) List.mem_cons_self) fun _ => hrest
  | deferred =>
    have hname : lx.lex (name ++ rest) = (.atom name :: (lx.lex rest).1, (lx.lex rest).2) :=
      lex_text_append hlx (h (.atom name) (List.mem_cons_of_mem _ List.mem_cons_self))
        fun _ => hrest
    have hmark : '!' ∈ lx.delimiters := hlx.delimiters ▸ by decide
    change lx.lex ('!' :: (name ++ rest)) = _
    rw [lex_delimiter hlx hmark, hname]
    rfl

theorem lex_params_append (hlx : lx.Standard) {params : List Param}
    (h : ∀ token ∈ params.flatMap Param.tokens, lx.Reads token) {rest : List Char}
    (hrest : lx.Parted rest) :
    lx.lex ([' '].intercalate (params.map Param.text) ++ rest) =
      (params.flatMap Param.tokens ++ (lx.lex rest).1, (lx.lex rest).2) := by
  induction params with
  | nil => rfl
  | cons p params ih =>
    rw [List.flatMap_cons] at h ⊢
    have hhead : ∀ token ∈ p.tokens, lx.Reads token := fun token hmem =>
      h token (List.mem_append_left _ hmem)
    have htail := ih fun token hmem => h token (List.mem_append_right _ hmem)
    cases params with
    | nil =>
      rw [List.flatMap_nil, List.append_nil, List.map_singleton, List.intercalate_singleton]
      exact lex_param_append hlx hhead hrest
    | cons q params =>
      rw [List.map_cons, List.map_cons, List.intercalate_cons_cons, ← List.map_cons,
        List.append_assoc, List.append_assoc, List.singleton_append,
        lex_param_append hlx hhead (parted_blank _), lex_blank, htail, List.append_assoc]

/-- The text of a closure without environment has the tokens of the closure. -/
theorem lex_closureText (hlx : lx.Standard) {params : List Param} {body : Tokens}
    (h : ∀ token ∈ closureTokens params body, lx.Reads token) :
    lx.lex (closureText params body []) = (closureTokens params body, none) := by
  have hopen : '{' ∈ lx.delimiters := hlx.delimiters ▸ by decide
  have hcolon : ':' ∈ lx.delimiters := hlx.delimiters ▸ by decide
  have hclose : '}' ∈ lx.delimiters := hlx.delimiters ▸ by decide
  have hparams : ∀ token ∈ params.flatMap Param.tokens, lx.Reads token := fun token hmem =>
    h token (by simp [closureTokens, hmem])
  have hbody : ∀ token ∈ body, lx.Reads token := fun token hmem =>
    h token (by simp [closureTokens, hmem])
  have hinside : lx.lex ((if body.isEmpty then [] else ' ' :: Lexeme.spaced true body) ++ ['}']) =
      (body ++ [.delimiter '}'], none) := by
    have hspaced := lex_spaced_append hlx hbody (parted_delimiter hclose []) true
    rw [lex_delimiter hlx hclose, lex_nil] at hspaced
    split
    · rename_i hempty
      obtain rfl : body = [] := by simpa using hempty
      exact hspaced
    · rw [List.cons_append, lex_blank, hspaced]
  unfold closureText
  rw [List.cons_append, List.cons_append, List.append_assoc, List.cons_append,
    lex_delimiter hlx hopen, lex_params_append hlx hparams (parted_delimiter hcolon _),
    lex_delimiter hlx hcolon, hinside]
  simp [closureTokens]

end Lexicon

/-! ## Evaluating the text of a literal -/

namespace Plain

open BraceLang.CoreM

theorem charge_eq_ok_iff {β : Type} {limits : Limits} {core core' : Core β} {cells : Nat}
    {u : Unit} :
    charge cells limits core = .ok u core' ↔
      limits.Room core.used cells ∧ core' = ⟨core.used + cells, core.slots⟩ := by
  induction cells generalizing core with
  | zero =>
    constructor
    · intro h
      cases h
      exact ⟨fun i hi => absurd hi (Nat.not_lt_zero i), rfl⟩
    · rintro ⟨-, rfl⟩
      rfl
  | succ cells ih =>
    unfold charge
    rw [reader_bind_eq_ok_iff]
    constructor
    · rintro ⟨_, core₁, halloc, hrest⟩
      unfold alloc at halloc
      split at halloc
      · cases halloc
      · rename_i hgranted
        cases halloc
        obtain ⟨hroom, rfl⟩ := ih.mp hrest
        refine ⟨fun i hi => ?_, by simp [Nat.add_comm, Nat.add_left_comm]⟩
        cases i with
        | zero => exact hgranted
        | succ i =>
          have := hroom i (by omega)
          rwa [Nat.add_right_comm] at this
    · rintro ⟨hroom, rfl⟩
      have hgranted : limits.refusal core.used = none := hroom 0 (Nat.succ_pos _)
      refine ⟨(), ⟨core.used + 1, core.slots⟩, by simp only [alloc, hgranted], ih.mpr ⟨?_, ?_⟩⟩
      · intro i hi
        have := hroom (i + 1) (by omega)
        rwa [Nat.add_right_comm]
      · simp [Nat.add_comm, Nat.add_left_comm]

theorem scan_eq_ok_iff {lx : Lexicon} {text : String} {limits : Limits} {core core' : Core Tokens}
    {tokens : Tokens} :
    scan lx text limits core = .ok tokens core' ↔
      lx.lex text.toList = (tokens, none) ∧ charge tokens.length limits core = .ok () core' := by
  unfold scan
  obtain ⟨found, quote?⟩ := lx.lex text.toList
  dsimp only
  rw [reader_bind_eq_ok_iff]
  constructor
  · rintro ⟨_, _, hcharge, hquote⟩
    cases quote? with
    | none =>
      cases hquote
      exact ⟨rfl, hcharge⟩
    | some quote => cases hquote
  · rintro ⟨hlex, hcharge⟩
    obtain ⟨rfl, rfl⟩ := Prod.mk.inj hlex
    exact ⟨(), core', hcharge, rfl⟩

/-- A text is scanned, its tokens are put into their order, and they are a term. -/
theorem evalText_eq_ok_iff {lx : Lexicon} {text : String} {limits : Limits} {core : Core Tokens}
    {d : Datum Tokens} :
    evalText lx text limits {} = .ok d core ↔
      ∃ tokens, lx.lex text.toList = (tokens, none) ∧
        limits.Room 0 (tokens.length + tokens.length) ∧
        evaluate [] tokens limits ⟨tokens.length + tokens.length, #[]⟩ = .ok (d, []) core := by
  unfold evalText
  simp only [reader_bind_eq_ok_iff, scan_eq_ok_iff, charge_eq_ok_iff]
  constructor
  · rintro ⟨tokens, _, ⟨hlex, hroom, rfl⟩, _, _, ⟨hroom', rfl⟩, ⟨value, left⟩, _, heval, hleft⟩
    cases left with
    | cons token left => cases hleft
    | nil =>
      cases hleft
      refine ⟨tokens, hlex, fun i hi => ?_, by simpa using heval⟩
      by_cases hlt : i < tokens.length
      · exact hroom i hlt
      · have := hroom' (i - tokens.length) (by omega)
        dsimp only at this
        rwa [show 0 + tokens.length + (i - tokens.length) = 0 + i by omega] at this
  · rintro ⟨tokens, hlex, hroom, heval⟩
    exact ⟨tokens, _, ⟨hlex, hroom.left, rfl⟩, (), _, ⟨hroom.right, rfl⟩, (d, []), core,
      by simpa using heval, rfl⟩

theorem depth_lt_of_evaluate {scope : Scope Tokens} {tokens : Tokens} {limits : Limits}
    {core core' : Core Tokens} {p : Datum Tokens × Tokens}
    (h : evaluate scope tokens limits core = .ok p core') : limits.depth < limits.maxDepth := by
  by_contra hdeep
  have hlevels : limits.levels = 0 := by
    unfold Limits.levels
    omega
  have hzero : evaluateWithin limits.levels scope tokens limits core = .ok p core' := h
  rw [hlevels] at hzero
  cases hzero

/-- Where a level is left, a term is evaluated by its first token. -/
theorem evaluate_eq_termWith {limits : Limits} (h : limits.depth < limits.maxDepth)
    (scope : Scope Tokens) (tokens : Tokens) (core : Core Tokens) :
    ∃ levels, evaluate scope tokens limits core =
      termWith (evaluateWithin levels) (skipWithin levels) scope tokens limits.deeper core := by
  obtain ⟨levels, hlevels⟩ := Nat.exists_eq_add_one_of_ne_zero (by
    unfold Limits.levels
    omega : limits.levels ≠ 0)
  have hevaluate : evaluate scope tokens limits core =
      evaluateWithin limits.levels scope tokens limits core := rfl
  refine ⟨levels, ?_⟩
  rw [hevaluate, hlevels]
  unfold evaluateWithin ReadM.nested CoreM.nested
  rw [if_neg (Nat.not_le.mpr h)]

theorem closure_eq_ok {scope : Scope Tokens} {tokens behind body rest : Tokens}
    {params : List Param} {limits : Limits} {core : Core Tokens}
    (hformals : splitFormals false tokens = .ok (params, behind))
    (hbody : splitBody 0 behind = .ok (body, rest))
    (hroom : limits.Room core.used (2 * params.length + body.length + 3)) :
    closure scope tokens limits core = .ok (.closure params body scope, rest)
      ⟨core.used + (2 * params.length + body.length + 3), core.slots⟩ := by
  have hroom₃ : limits.Room (core.used + 2 * params.length + body.length) 3 := by
    rw [Nat.add_assoc]
    exact hroom.right
  rw [← Nat.add_assoc, ← Nat.add_assoc]
  refine ReadM.bind_eq_ok_iff.mpr ⟨params, behind, core, ?_, ?_⟩
  · rw [Reference.split_of_ok hformals]
    rfl
  refine ReadM.bind_eq_ok_iff.mpr ⟨body, rest, core, ?_, ?_⟩
  · rw [Reference.split_of_ok hbody]
    rfl
  refine ReadM.bind_eq_ok_iff.mpr ⟨(), rest, _, ReadM.lift_eq_ok_iff.mpr
    ⟨charge_eq_ok_iff.mpr ⟨hroom.left.left, rfl⟩, rfl⟩, ?_⟩
  refine ReadM.bind_eq_ok_iff.mpr ⟨(), rest, _, ReadM.lift_eq_ok_iff.mpr
    ⟨charge_eq_ok_iff.mpr ⟨hroom.left.right, rfl⟩, rfl⟩, ?_⟩
  exact ReadM.bind_eq_ok_iff.mpr ⟨(), rest, _, ReadM.lift_eq_ok_iff.mpr
    ⟨charge_eq_ok_iff.mpr ⟨hroom₃, rfl⟩, rfl⟩, rfl⟩

/-- The tokens of a closure are evaluated to it. -/
theorem termWith_closureTokens {params : List Param} {body : Tokens} {limits : Limits}
    {core : Core Tokens} (levels : Nat)
    (hbody : ∀ rest, splitBody 0 (body ++ .delimiter '}' :: rest) = .ok (body, rest))
    (hroom : limits.Room core.used (2 * params.length + body.length + 3)) :
    termWith (evaluateWithin levels) (skipWithin levels) [] (closureTokens params body) limits
      core = .ok (.closure params body [], [])
        ⟨core.used + (2 * params.length + body.length + 3), core.slots⟩ := by
  have htokens : closureTokens params body = .delimiter '{' ::
      (params.flatMap Param.tokens ++ .delimiter ':' :: (body ++ .delimiter '}' :: [])) := by
    simp [closureTokens]
  rw [htokens]
  exact closure_eq_ok (Reference.splitFormals_tokens params _) (hbody []) hroom

/-! ## Literals -/

theorem full_of_isLiteral {d : Datum Tokens} (h : d.IsLiteral) (slots slots' : Slots Tokens) :
    d.full slots = d.full slots' := by
  cases h <;> rfl

/-- A text with the tokens of a literal is evaluated to it, when the text has no more tokens than
another one that was evaluated. -/
theorem evalText_of_termWith {lx : Lexicon} {text : String} {limits : Limits} {tokens : Tokens}
    {d : Datum Tokens} {used : Nat} (hlex : lx.lex text.toList = (tokens, none))
    (hdepth : limits.depth < limits.maxDepth) (hroom : limits.Room 0 used)
    (hused : tokens.length + tokens.length ≤ used)
    (hterm : ∀ levels, ∃ core', termWith (evaluateWithin levels) (skipWithin levels) [] tokens
      limits.deeper ⟨tokens.length + tokens.length, #[]⟩ = .ok (d, []) core') :
    ∃ core', evalText lx text limits {} = .ok d core' := by
  obtain ⟨levels, hevaluate⟩ := evaluate_eq_termWith hdepth [] tokens
    ⟨tokens.length + tokens.length, #[]⟩
  obtain ⟨core', hrun⟩ := hterm levels
  exact ⟨core', evalText_eq_ok_iff.mpr ⟨tokens, hlex, fun i hi => hroom i (by omega),
    hevaluate.trans hrun⟩⟩

/-- The text of a literal is evaluated to the literal where the text that gave it is evaluated. -/
theorem evalText_full {lx : Lexicon} (hlx : lx.Standard) {text : String} {limits : Limits}
    {core : Core Tokens} {d : Datum Tokens} (h : evalText lx text limits {} = .ok d core)
    (hliteral : d.IsLiteral) (hroom : limits.Room 0 core.used) :
    ∃ core', evalText lx (String.ofList (d.full core.slots)) limits {} = .ok d core' := by
  obtain ⟨tokens, hlex, -, heval⟩ := evalText_eq_ok_iff.mp h
  have hreads : ∀ token ∈ tokens, lx.Reads token := by
    have := Lexicon.reads_of_mem_lex hlx text.toList
    rwa [hlex] at this
  have hdepth := depth_lt_of_evaluate heval
  have hholds := Invariant.holds_of_evaluate (lx.lawful_invariant tokens.length)
    (Nat.le_of_eq (Nat.two_mul _)) ⟨hreads, Nat.le_refl _⟩ heval
  obtain ⟨taken, cells, htaken, hone, hused, -⟩ :=
    carries_evaluateWithin (Nat.le_refl limits.levels) [] heval
  have hcells : 1 + 1 ≤ core.used := by
    rw [htaken, List.append_nil] at hused
    dsimp only at hused
    omega
  have hsingle : ∀ token, lx.Reads token →
      lx.lex (String.ofList token.text).toList = ([token], none) := by
    intro token htoken
    rw [String.toList_ofList]
    exact Lexicon.lex_text hlx htoken
  cases hliteral with
  | @number x =>
    have hfull : (Datum.number x).full core.slots = (Lexeme.number x).text := by
      rw [Datum.full]
      rfl
    rw [hfull]
    have hlexed := hsingle (.number x) (Lexicon.reads_number hlx x)
    exact evalText_of_termWith hlexed hdepth hroom hcells fun levels => ⟨_, rfl⟩
  | @string contents =>
    cases hholds with
    | string hstring =>
      have hfull : (Datum.string contents).full core.slots = (Lexeme.string contents).text := by
        rw [Datum.full]
        rfl
      rw [hfull]
      exact evalText_of_termWith (hsingle _ hstring) hdepth hroom hcells fun levels => ⟨_, rfl⟩
  | @closure params body =>
    cases hholds with
    | closure hclosure _ _ =>
      obtain ⟨hreads', hbody, hlength, hcost⟩ := hclosure
      have hfull : (Datum.closure params body []).full core.slots = closureText params body [] := by
        rw [Datum.full]
        rfl
      rw [hfull]
      have hlexed : lx.lex (String.ofList (closureText params body [])).toList =
          (closureTokens params body, none) := by
        rw [String.toList_ofList]
        exact Lexicon.lex_closureText hlx hreads'
      refine evalText_of_termWith hlexed hdepth hroom (by omega) fun levels => ?_
      have hcells : limits.deeper.Room
          ((closureTokens params body).length + (closureTokens params body).length)
          (2 * params.length + body.length + 3) := by
        intro i hi
        have := hroom ((closureTokens params body).length + (closureTokens params body).length + i)
          (by omega)
        rwa [Nat.zero_add] at this
      exact ⟨_, termWith_closureTokens levels hbody hcells⟩

end Plain

end BraceLang
