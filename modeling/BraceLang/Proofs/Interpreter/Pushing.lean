import BraceLang.Proofs.Interpreter.Independence
import BraceLang.Proofs.Plain.Literals

/-!
# Lists that are pushed together

A list of literals can be written by pushing them one by one onto the empty list. What such a text
needs is known to the cell and to the level: every token takes two cells before anything is
evaluated, every literal stands one level deeper than the one in front of it, and the cells of the
list itself are taken last, on the way out.

* `Literal`: a number or a string as it is written in a program.
* `Lexicon.lex_pushText`: the tokens of such a text.
* `Plain.run_pushText`: running it, with the points at which it can fail.
* `Interpreter.outcome_run_pushText`: the outcome for any settings.
-/

namespace BraceLang

/-! ## Number literals are words -/

namespace Lexicon

theorem isPlain_of_toLower {c : Char} (h : c.toLower ∈ ['i', 'n', 'f', 't', 'y', 'a']) :
    isPlain c = true := by
  by_cases hupper : 'A'.val ≤ c.val ∧ c.val ≤ 'Z'.val
  · have hall : ∀ i < 91, 65 ≤ i → isPlain (Char.ofNat i) = true := by decide
    have hbound : 65 ≤ c.toNat ∧ c.toNat < 91 := ⟨hupper.1, Nat.lt_succ_of_le hupper.2⟩
    rw [← Char.ofNat_toNat c]
    exact hall c.toNat hbound.2 hbound.1
  · have hsame : c.toLower = c := by
      rw [Char.toLower, dif_neg hupper]
    have hall : ['i', 'n', 'f', 't', 'y', 'a'].all isPlain = true := by decide
    exact List.all_eq_true.mp hall c (hsame ▸ h)

theorem isPlain_namedNumber {word : List Char} {x : Float} (h : namedNumber? word = some x) :
    word ≠ [] ∧ word.all isPlain = true := by
  have hlower : word.map Char.toLower ∈
      [['i', 'n', 'f'], ['i', 'n', 'f', 'i', 'n', 'i', 't', 'y'], ['n', 'a', 'n']] := by
    unfold namedNumber? at h
    dsimp only at h
    split at h
    · rename_i hinfinite
      rcases hinfinite with hword | hword <;> simp [hword]
    · split at h
      · rename_i hnan
        simp [hnan]
      · cases h
  have hletters : [['i', 'n', 'f'], ['i', 'n', 'f', 'i', 'n', 'i', 't', 'y'], ['n', 'a', 'n']].all
      (fun name => name.all (['i', 'n', 'f', 't', 'y', 'a'].contains ·)) = true := by decide
  refine ⟨?_, List.all_eq_true.mpr fun c hc => isPlain_of_toLower (List.contains_iff_mem.mp ?_)⟩
  · rintro rfl
    simp at hlower
  · exact List.all_eq_true.mp (List.all_eq_true.mp hletters _ hlower) _ (List.mem_map_of_mem hc)

theorem isPlain_digits {digits : List Char} (h : digits.all Decimal.isDigit = true) :
    digits.all isPlain = true :=
  List.all_eq_true.mpr fun c hc => isPlain_of_isDigit (List.all_eq_true.mp h c hc)

/-- A sign does no harm. -/
theorem isPlain_readSign {text : List Char} (h : (Decimal.readSign text).2.all isPlain = true) :
    text.all isPlain = true := by
  unfold Decimal.readSign at h
  split at h
  · exact h
  · exact h
  · exact h

theorem isPlain_readExponent {text : List Char} {exponent : Int}
    (h : Decimal.readExponent? text = some exponent) : text.all isPlain = true := by
  cases text with
  | nil => rfl
  | cons c rest =>
    by_cases hletter : c = 'e' ∨ c = 'E'
    · rw [Decimal.readExponent?, if_pos hletter] at h
      dsimp only at h
      split at h
      · rename_i hdigits
        have hc : isPlain c = true := by
          rcases hletter with rfl | rfl <;> decide
        rw [List.all_cons, hc, isPlain_readSign (isPlain_digits hdigits.2)]
        rfl
      · cases h
    · rw [Decimal.readExponent?, if_neg hletter] at h
      cases h

theorem isPlain_span {text : List Char}
    (h : (text.span Decimal.isDigit).2.all isPlain = true) : text.all isPlain = true := by
  rw [List.span_eq_takeWhile_dropWhile] at h
  rw [← List.takeWhile_append_dropWhile (p := Decimal.isDigit) (l := text), List.all_append, h,
    isPlain_digits List.all_takeWhile]
  rfl

theorem isPlain_readFraction {text : List Char}
    (h : (Decimal.readFraction text).2.all isPlain = true) : text.all isPlain = true := by
  unfold Decimal.readFraction at h
  split at h
  · rw [List.all_cons, isPlain_span h]
    rfl
  · exact h

theorem isPlain_read {text : List Char} {d : Decimal} (h : Decimal.read? text = some d) :
    text ≠ [] ∧ text.all isPlain = true := by
  unfold Decimal.read? at h
  dsimp only at h
  split at h
  · cases h
  · rename_i hsome
    obtain ⟨exponent, hexponent, -⟩ := Option.map_eq_some_iff.mp h
    refine ⟨?_, isPlain_span (isPlain_readFraction (isPlain_readExponent hexponent))⟩
    rintro rfl
    exact hsome ⟨rfl, rfl⟩

/-- A number literal is a word. -/
theorem isPlain_readNumber {word : List Char} {x : Float} (h : readNumber? word = some x) :
    word ≠ [] ∧ word.all isPlain = true := by
  have hunsigned : (Decimal.readSign word).2 ≠ [] ∧
      (Decimal.readSign word).2.all isPlain = true := by
    obtain ⟨magnitude, hmagnitude, -⟩ : ∃ magnitude, ((namedNumber? (Decimal.readSign word).2).orElse
        fun _ => (Decimal.read? (Decimal.readSign word).2).map (·.toFloat)) = some magnitude ∧ _ :=
      Option.map_eq_some_iff.mp h
    cases hnamed : namedNumber? (Decimal.readSign word).2 with
    | some y => exact isPlain_namedNumber hnamed
    | none =>
      rw [hnamed, Option.orElse_none] at hmagnitude
      obtain ⟨d, hread, -⟩ := Option.map_eq_some_iff.mp hmagnitude
      exact isPlain_read hread
  refine ⟨?_, isPlain_readSign hunsigned.2⟩
  rintro rfl
  exact hunsigned.1 rfl

end Lexicon

/-! ## Literals -/

/-- A number or a string as it is written in a program. -/
inductive Literal where
  | number (word : List Char) (value : Float) (read : readNumber? word = some value)
  | string (quote : Char) (contents : List Char) (isQuote : quote = '\'' ∨ quote = '"')
    (closed : quote ∉ contents)

namespace Literal

/-- The literal in program text. -/
def text : Literal → List Char
  | number word _ _ => word
  | string quote contents _ _ => quote :: contents ++ [quote]

def token : Literal → Lexeme
  | number _ value _ => .number value
  | string _ contents _ _ => .string contents

def datum : Literal → Datum Tokens
  | number _ value _ => .number value
  | string _ contents _ _ => .string contents

/-- The value of the literal as it is written. -/
def written : Literal → List Char
  | number _ value _ => (displayNumber value).toList
  | string _ contents _ _ => Memory.quoted contents

theorem full_datum (l : Literal) (slots : Slots Tokens) : l.datum.full slots = l.written := by
  cases l <;> rfl

end Literal

/-- The text that pushes literals onto the empty list, the first one last. -/
def pushText : List Literal → List Char
  | [] => "NIL".toList
  | l :: literals => "PUSH ".toList ++ l.text ++ ' ' :: pushText literals

theorem pushText_cons (l : Literal) (literals : List Literal) :
    pushText (l :: literals) = "PUSH ".toList ++ l.text ++ ' ' :: pushText literals := rfl

/-- The tokens of that text. -/
def pushTokens : List Literal → Tokens
  | [] => [.keyword .nil]
  | l :: literals => .keyword .push :: l.token :: pushTokens literals

theorem length_pushTokens (literals : List Literal) :
    (pushTokens literals).length = 2 * literals.length + 1 := by
  induction literals with
  | nil => rfl
  | cons l literals ih =>
    simp only [pushTokens, List.length_cons, ih]
    omega

namespace Lexicon

variable {lx : Lexicon}

theorem read_literal (hlx : lx.Standard) (l : Literal) (rest : List Char) :
    lx.read (l.text ++ ' ' :: rest) = .lexeme l.token (' ' :: rest) := by
  cases l with
  | number word value hread =>
    obtain ⟨hne, hplain⟩ := isPlain_readNumber hread
    have hword := read_word (hlx.isWord hne hplain) (parted_blank rest)
    rwa [classify, hread] at hword
  | string quote contents hquote hclosed =>
    have hdelimiter : quote ∉ lx.delimiters := by
      rcases hquote with rfl | rfl
      · exact hlx.not_quote.1
      · exact hlx.not_quote.2
    simpa [Literal.text, Literal.token] using
      read_quote hquote hdelimiter hclosed (' ' :: rest)

theorem lex_pushText (hlx : lx.Standard) (literals : List Literal) :
    lx.lex (pushText literals) = (pushTokens literals, none) := by
  induction literals with
  | nil => exact lex_text hlx (reads_keyword hlx .nil)
  | cons l literals ih =>
    have hpush := lex_text_append hlx (reads_keyword hlx .push)
      (fun _ => parted_blank (l.text ++ ' ' :: pushText literals))
    rw [lex_blank, lex_of_read (read_literal hlx l _), lex_blank, ih] at hpush
    rw [pushText_cons]
    exact hpush

end Lexicon

/-! ## The cells that can be had -/

namespace Config

variable (config : Config)

/-- The number of cells that can be had: as many as are allowed and have an index. -/
def mostCells : Nat := min (config.maxCells.getD Store.indexCount) Store.indexCount

/-- The limit that is reported when these are in use. -/
def reportedLimit : Nat :=
  match config.maxCells with
  | some limit => if limit ≤ Store.indexCount then limit else Store.indexCount - 1
  | none => Store.indexCount - 1

theorem limitReached?_eq_none_iff {used : Nat} :
    Store.limitReached? config.maxCells used = none ↔ used < config.mostCells := by
  rw [Store.limitReached?_eq_none_iff, mostCells]
  cases config.maxCells <;> simp

theorem limitReached?_mostCells :
    Store.limitReached? config.maxCells config.mostCells =
      some (.exhausted config.reportedLimit) := by
  unfold Store.limitReached? mostCells reportedLimit
  cases config.maxCells with
  | none => simp [Store.indexFault?]
  | some limit =>
    by_cases hle : limit ≤ Store.indexCount
    · simp [hle]
    · simp [hle, Nat.le_of_not_le hle, Store.indexFault?]

end Config

/-! ## Evaluating them -/

namespace ReadM

variable {σ β α γ : Type} {action : ReadM σ β α} {f : α → ReadM σ β γ} {s s' : σ} {limits : Limits}
  {core core' : Core β}

theorem bind_of_ok {a : α} (h : action s limits core = .ok (a, s') core') :
    (action >>= f) s limits core = f a s' limits core' := reader_bind_of_ok h

theorem bind_of_error {fault : Fault} (h : action s limits core = .error fault core') :
    (action >>= f) s limits core = .error fault core' := reader_bind_of_error h

end ReadM

namespace Plain

open BraceLang.CoreM

theorem charge_deeper (cells : Nat) (limits : Limits) :
    (charge cells : CoreM Tokens Unit) limits.deeper = charge cells limits := by
  induction cells with
  | zero => rfl
  | succ cells ih =>
    have hrun : ∀ limits : Limits, (charge (cells + 1) : CoreM Tokens Unit) limits =
        alloc limits >>= fun _ => charge cells limits := fun _ => rfl
    rw [hrun, hrun, ih]
    rfl

/-- Take some cells and give a result. -/
def charging {α : Type} (cells : Nat) (a : α) : CoreM Tokens α := do
  charge cells
  pure a

theorem charging_deeper {α : Type} (cells : Nat) (a : α) (limits : Limits) :
    charging cells a limits.deeper = charging cells a limits := by
  have hrun : ∀ limits : Limits, charging cells a limits =
      (charge cells : CoreM Tokens Unit) limits >>= fun _ => pure a := fun _ => rfl
  rw [hrun, hrun, charge_deeper]

section Terms

variable {α : Type} {a : α} {cells : Nat} {tokens rest : Tokens} {limits : Limits}
  {core core₁ : Core Tokens} {fault : Fault}

theorem charging_of_ok (h : charge cells limits core = .ok () core₁) :
    charging cells a limits core = .ok a core₁ := reader_bind_of_ok h

theorem charging_of_error (h : charge cells limits core = .error fault core₁) :
    charging cells a limits core = .error fault core₁ := reader_bind_of_error h

/-- The last cell is taken behind the other ones. -/
theorem charging_succ_of_ok (h : charge cells limits core = .ok () core₁) :
    charging (cells + 1) a limits core = charging 1 a limits core₁ := by
  have hlast : (charge (cells + 1) : CoreM Tokens Unit) limits core = charge 1 limits core₁ := by
    rw [charge_succ, reader_bind_of_ok h]
    exact (congrFun (congrFun (bind_pure (alloc : CoreM Tokens Unit)) limits) core₁).symm
  cases hcharge : charge 1 limits core₁ with
  | ok u core₂ => rw [charging_of_ok (hlast.trans hcharge), charging_of_ok hcharge]
  | error fault core₂ => rw [charging_of_error (hlast.trans hcharge), charging_of_error hcharge]

theorem charging_succ_of_error (h : charge cells limits core = .error fault core₁) :
    charging (cells + 1) a limits core = .error fault core₁ := by
  refine charging_of_error ?_
  rw [charge_succ]
  exact reader_bind_of_error h

theorem lift_charge_bind :
    ((charge cells).lift >>= fun _ => pure a : TokenM α) rest limits core =
      charging cells (a, rest) limits core := by
  cases hcharge : charge cells limits core with
  | ok u core₂ =>
    have hlift : ((charge cells).lift : TokenM Unit) rest limits core = .ok ((), rest) core₂ :=
      reader_bind_of_ok hcharge
    rw [ReadM.bind_of_ok hlift, charging_of_ok hcharge]
    rfl
  | error fault core₂ =>
    have hlift : ((charge cells).lift : TokenM Unit) rest limits core = .error fault core₂ :=
      reader_bind_of_error hcharge
    rw [ReadM.bind_of_error hlift, charging_of_error hcharge]

section Levels

variable {levels : Nat} (hlevels : limits.levels = levels + 1)
include hlevels

theorem levels_deeper : limits.deeper.levels = levels := by
  unfold Limits.levels Limits.deeper at *
  dsimp only
  omega

/-- Where a level is left, a term is evaluated by its first token. -/
theorem evaluateWithin_succ (scope : Scope Tokens) :
    evaluateWithin (levels + 1) scope tokens limits =
      termWith (evaluateWithin levels) (skipWithin levels) scope tokens limits.deeper := by
  have hdepth : ¬ limits.maxDepth ≤ limits.depth := by
    unfold Limits.levels at hlevels
    omega
  exact if_neg hdepth

theorem evaluateWithin_literal (l : Literal) (scope : Scope Tokens) :
    evaluateWithin (levels + 1) scope (l.token :: rest) limits core =
      .ok (l.datum, rest) core := by
  rw [evaluateWithin_succ hlevels]
  cases l <;> rfl

end Levels

section Push

variable {eval : Scope Tokens → TokenM (Datum Tokens)} {skip : TokenM Unit} {scope : Scope Tokens}
  {tokens' : Tokens} {item : Datum Tokens} {items : List (Datum Tokens)}

theorem termWith_keyword (op : Keyword) :
    termWith eval skip scope (.keyword op :: tokens) limits core =
      applyKeyword (eval scope) skip op tokens limits core := rfl

theorem termWith_push (hitem : eval scope tokens limits core = .ok (item, tokens') core) :
    termWith eval skip scope (.keyword .push :: tokens) limits core =
      (listOperand (eval scope) .push >>= fun items => (charge 1).lift >>= fun _ =>
        pure (.list (item :: items)) : TokenM (Datum Tokens)) tokens' limits core := by
  rw [termWith_keyword]
  exact ReadM.bind_of_ok hitem

/-- A push takes its cell when it has its operands. -/
theorem termWith_push_of_ok (hitem : eval scope tokens limits core = .ok (item, tokens') core)
    (hitems : eval scope tokens' limits core = .ok (.list items, rest) core₁) :
    termWith eval skip scope (.keyword .push :: tokens) limits core =
      charging 1 (.list (item :: items), rest) limits core₁ := by
  have hoperand : listOperand (eval scope) .push tokens' limits core = .ok (items, rest) core₁ :=
    ReadM.bind_of_ok hitems
  rw [termWith_push hitem, ReadM.bind_of_ok hoperand, lift_charge_bind]

theorem termWith_push_of_error (hitem : eval scope tokens limits core = .ok (item, tokens') core)
    (hitems : eval scope tokens' limits core = .error fault core₁) :
    termWith eval skip scope (.keyword .push :: tokens) limits core = .error fault core₁ := by
  have hoperand : listOperand (eval scope) .push tokens' limits core = .error fault core₁ :=
    ReadM.bind_of_error hitems
  rw [termWith_push hitem, ReadM.bind_of_error hoperand]

end Push

end Terms

/-- With a level more than there are literals, the list takes a cell for each of them. -/
theorem evaluateWithin_pushTokens {levels : Nat} {limits : Limits}
    (hlevels : limits.levels = levels) (literals : List Literal) (h : literals.length < levels)
    (rest : Tokens) (core : Core Tokens) :
    evaluateWithin levels [] (pushTokens literals ++ rest) limits core =
      charging literals.length (.list (literals.map Literal.datum), rest) limits core := by
  induction literals generalizing levels limits with
  | nil =>
    obtain ⟨levels, rfl⟩ := Nat.exists_eq_add_one_of_ne_zero (Nat.ne_of_gt h)
    rw [evaluateWithin_succ hlevels]
    rfl
  | cons l literals ih =>
    obtain ⟨levels, rfl⟩ : ∃ inner, levels = inner + 2 := ⟨levels - 2, by simp at h; omega⟩
    have hdeeper : limits.deeper.levels = levels + 1 := levels_deeper hlevels
    have hitem : evaluateWithin (levels + 1) [] (l.token :: (pushTokens literals ++ rest))
        limits.deeper core = .ok (l.datum, pushTokens literals ++ rest) core :=
      evaluateWithin_literal hdeeper l []
    have hitems := ih hdeeper (by simpa using h)
    rw [charging_deeper] at hitems
    rw [pushTokens, List.cons_append, List.cons_append, evaluateWithin_succ hlevels,
      List.length_cons, List.map_cons]
    cases hcharge : charge literals.length limits core with
    | ok u core₁ =>
      rw [charging_of_ok hcharge] at hitems
      rw [termWith_push_of_ok hitem hitems, charging_deeper, charging_succ_of_ok hcharge]
    | error fault core₁ =>
      rw [charging_of_error hcharge] at hitems
      rw [termWith_push_of_error hitem hitems, charging_succ_of_error hcharge]

/-- With fewer levels the depth is exceeded, before the list takes any cell. -/
theorem evaluateWithin_pushTokens_tooDeep {levels : Nat} {limits : Limits}
    (hlevels : limits.levels = levels) (literals : List Literal) (h : levels ≤ literals.length)
    (rest : Tokens) (core : Core Tokens) :
    evaluateWithin levels [] (pushTokens literals ++ rest) limits core =
      .error ⟨.tooDeep limits.maxDepth, rfl⟩ core := by
  induction literals generalizing levels limits with
  | nil =>
    obtain rfl : levels = 0 := Nat.le_zero.mp h
    rfl
  | cons l literals ih =>
    cases levels with
    | zero => rfl
    | succ levels =>
      have hdeeper : limits.deeper.levels = levels := levels_deeper hlevels
      rw [pushTokens, List.cons_append, List.cons_append, evaluateWithin_succ hlevels]
      cases levels with
      | zero =>
        rw [termWith_keyword]
        exact ReadM.bind_of_error rfl
      | succ levels =>
        have hitem : evaluateWithin (levels + 1) [] (l.token :: (pushTokens literals ++ rest))
            limits.deeper core = .ok (l.datum, pushTokens literals ++ rest) core :=
          evaluateWithin_literal hdeeper l []
        exact termWith_push_of_error hitem (ih hdeeper (Nat.le_of_succ_le_succ h))

/-! ## Running the text -/

theorem charge_add (cells cells' : Nat) :
    (charge (cells + cells') : CoreM Tokens Unit) = charge cells >>= fun _ => charge cells' := by
  induction cells with
  | zero => rw [Nat.zero_add, charge, pure_bind]
  | succ cells ih => rw [Nat.succ_add, charge, charge, bind_assoc, ih]

/-- The tokens of a text take two cells each, and then they are evaluated. -/
theorem evalText_of_lex {lx : Lexicon} {text : String} {tokens : Tokens}
    (hlex : lx.lex text.toList = (tokens, none)) :
    evalText lx text = (charge (tokens.length + tokens.length) >>= fun _ => do
      let (value, left) ← evaluate [] tokens
      if left.isEmpty then pure value
      else CoreM.fail ⟨.trailingText (String.ofList (Lexeme.spaced true left)), rfl⟩) := by
  have hscan : scan lx text = charging tokens.length tokens := by
    unfold scan
    rw [hlex]
    rfl
  rw [charge_add, evalText, hscan, charging]
  simp only [bind_assoc, pure_bind]

theorem toList_pushText (literals : List Literal) :
    (String.ofList (pushText literals)).toList = pushText literals := String.toList_ofList

section Run

variable {lx : Lexicon} (hlx : lx.Standard) (literals : List Literal) {limits : Limits}
  {core : Core Tokens} {fault : Fault}

include hlx

theorem evalText_pushText :
    evalText lx (String.ofList (pushText literals)) =
      (charge (4 * literals.length + 2) >>= fun _ => do
        let (value, left) ← evaluate [] (pushTokens literals)
        if left.isEmpty then pure value
        else CoreM.fail ⟨.trailingText (String.ofList (Lexeme.spaced true left)), rfl⟩) := by
  have hlex := lx.lex_pushText hlx literals
  rw [← toList_pushText literals] at hlex
  have hcells : (pushTokens literals).length + (pushTokens literals).length =
      4 * literals.length + 2 := by
    rw [length_pushTokens]
    omega
  rw [evalText_of_lex hlex, hcells]

/-- Without room for the tokens nothing is evaluated. -/
theorem run_pushText_of_error
    (h : charge (4 * literals.length + 2) limits {} = .error fault core) :
    run lx (String.ofList (pushText literals)) limits {} = .error fault core := by
  refine reader_bind_of_error ?_
  rw [evalText_pushText hlx]
  exact reader_bind_of_error h

/-- Without enough levels no cell is taken for the list. -/
theorem run_pushText_of_levels_le
    (h : charge (4 * literals.length + 2) limits {} = .ok () core)
    (hlevels : limits.levels ≤ literals.length) :
    run lx (String.ofList (pushText literals)) limits {} =
      .error ⟨.tooDeep limits.maxDepth, rfl⟩ core := by
  have hevaluate : evaluate [] (pushTokens literals) limits core =
      .error ⟨.tooDeep limits.maxDepth, rfl⟩ core := by
    have hdeep := evaluateWithin_pushTokens_tooDeep rfl literals hlevels [] core
    rwa [List.append_nil] at hdeep
  refine reader_bind_of_error ?_
  rw [evalText_pushText hlx, reader_bind_of_ok h]
  exact reader_bind_of_error hevaluate

/-- With enough levels the list takes its cells and is written. -/
theorem run_pushText_of_lt_levels
    (h : charge (4 * literals.length + 2) limits {} = .ok () core)
    (hlevels : literals.length < limits.levels) :
    run lx (String.ofList (pushText literals)) limits {} =
      charging literals.length
        (String.ofList (Memory.bracketed (Memory.commas (literals.map Literal.written)))) limits
        core := by
  have hevaluate := evaluateWithin_pushTokens rfl literals hlevels [] core
  rw [List.append_nil] at hevaluate
  have hevaluate : evaluate [] (pushTokens literals) limits core = _ := hevaluate
  cases hcharge : charge literals.length limits core with
  | ok u core₁ =>
    rw [charging_of_ok hcharge] at hevaluate
    have htext : evalText lx (String.ofList (pushText literals)) limits {} =
        .ok (.list (literals.map Literal.datum)) core₁ := by
      rw [evalText_pushText hlx, reader_bind_of_ok h]
      exact reader_bind_of_ok hevaluate
    have hfull : (Datum.list (literals.map Literal.datum)).full core₁.slots =
        Memory.bracketed (Memory.commas (literals.map Literal.written)) := by
      rw [Datum.full, Datum.fulls_eq_map, List.map_map]
      simp only [Function.comp_def, Literal.full_datum]
    rw [charging_of_ok hcharge, ← hfull]
    exact reader_bind_of_ok htext
  | error fault core₁ =>
    rw [charging_of_error hcharge] at hevaluate ⊢
    refine reader_bind_of_error ?_
    rw [evalText_pushText hlx, reader_bind_of_ok h]
    exact reader_bind_of_error hevaluate

end Run

/-- The first cell that is refused ends it. -/
theorem charge_of_refusal {limits : Limits} {core : Core Tokens} {granted cells : Nat}
    {e : StoreError} (hroom : limits.Room core.used granted) (hcells : granted < cells)
    (hrefused : limits.refusal (core.used + granted) = some e) :
    charge cells limits core =
      .error ⟨.allocationFailure e, rfl⟩ ⟨core.used + granted, core.slots⟩ := by
  obtain ⟨more, rfl⟩ := Nat.exists_eq_add_of_lt hcells
  rw [Nat.add_assoc, charge_add, reader_bind_of_ok (charge_eq_ok_iff (u := ()).mpr ⟨hroom, rfl⟩)]
  refine reader_bind_of_error ?_
  simp only [alloc, hrefused]

section Config

variable {config : Config} (hchunks : config.reserves (max config.chunkSize 1))
include hchunks

theorem refusal_limits (used : Nat) :
    config.limits.refusal used = Store.limitReached? config.maxCells used := by
  simp only [Config.limits, Store.refusal?, if_pos hchunks, Option.or_none]

theorem room_limits {used cells : Nat} (h : used + cells ≤ config.mostCells) :
    config.limits.Room used cells := by
  intro i hi
  rw [refusal_limits hchunks]
  exact config.limitReached?_eq_none_iff.mpr (by omega)

theorem charge_of_le {core : Core Tokens} {cells : Nat}
    (h : core.used + cells ≤ config.mostCells) :
    charge cells config.limits core = .ok () ⟨core.used + cells, core.slots⟩ :=
  charge_eq_ok_iff.mpr ⟨room_limits hchunks h, rfl⟩

/-- Cells are taken until none is left. -/
theorem charge_of_mostCells_lt {core : Core Tokens} {cells : Nat}
    (hused : core.used ≤ config.mostCells) (hcells : config.mostCells < core.used + cells) :
    charge cells config.limits core =
      .error ⟨.allocationFailure (.exhausted config.reportedLimit), rfl⟩
        ⟨config.mostCells, core.slots⟩ := by
  obtain ⟨granted, hgranted⟩ := Nat.exists_eq_add_of_le hused
  have hrefused : config.limits.refusal (core.used + granted) =
      some (.exhausted config.reportedLimit) := by
    rw [refusal_limits hchunks, ← hgranted]
    exact config.limitReached?_mostCells
  have hroom := room_limits hchunks (Nat.le_of_eq hgranted.symm)
  rw [hgranted] at hcells ⊢
  exact charge_of_refusal hroom (by omega) hrefused

end Config

end Plain

namespace Interpreter

open Plain

/-- Without room for its tokens the text is not evaluated. -/
theorem outcome_run_pushText_of_few {config : Config} (calls : List Call) {literals : List Literal}
    (hdelimiters : config.delimiters = ({} : Config).delimiters)
    (hchunks : config.reserves (max config.chunkSize 1))
    (hfew : config.mostCells < 4 * literals.length + 2) :
    outcome (run (String.ofList (pushText literals)) ((new config).after calls)) =
      (.error (.allocationFailure (.exhausted config.reportedLimit)), config.mostCells) := by
  have hlx : config.lexicon.Standard := ⟨congrArg String.toList hdelimiters, rfl⟩
  have hcharge : CoreM.charge (4 * literals.length + 2) config.limits ({} : Core Tokens) = _ :=
    charge_of_mostCells_lt hchunks (Nat.zero_le _) (by simpa using hfew)
  rw [outcome_run ((ready_new config).after calls), run_pushText_of_error hlx literals hcharge]
  rfl

/-- Pushing literals one by one onto the empty list, whatever has been evaluated before. The tokens
need room first, then the levels have to be enough, and then the list needs room. There is room for
as many cells as are allowed, but not for more than have an index. -/
theorem outcome_run_pushText (config : Config) (calls : List Call) (literals : List Literal)
    (hdelimiters : config.delimiters = ({} : Config).delimiters)
    (hchunks : config.reserves (max config.chunkSize 1)) :
    let tokenCells := 4 * literals.length + 2
    let allCells := 5 * literals.length + 2
    let refused : Except EvalError String × Nat :=
      (.error (.allocationFailure (.exhausted config.reportedLimit)), config.mostCells)
    outcome (run (String.ofList (pushText literals)) ((new config).after calls)) =
      if config.mostCells < tokenCells then refused
      else if config.maxDepth ≤ literals.length then
        (.error (.tooDeep config.maxDepth), tokenCells)
      else if config.mostCells < allCells then refused
      else (.ok (String.ofList
        ('[' :: [',', ' '].intercalate (literals.map Literal.written) ++ [']'])), allCells) := by
  intro tokenCells allCells refused
  have hlx : config.lexicon.Standard := ⟨congrArg String.toList hdelimiters, rfl⟩
  by_cases hfew : config.mostCells < tokenCells
  · rw [if_pos hfew]
    exact outcome_run_pushText_of_few calls hdelimiters hchunks hfew
  rw [if_neg hfew, outcome_run ((ready_new config).after calls)]
  have htokens : CoreM.charge tokenCells config.limits ({} : Core Tokens) =
      .ok () ⟨tokenCells, #[]⟩ := by
    have hcharge : CoreM.charge tokenCells config.limits ({} : Core Tokens) = _ :=
      charge_of_le hchunks (by simpa using hfew)
    rwa [Nat.zero_add] at hcharge
  by_cases hdeep : config.maxDepth ≤ literals.length
  · rw [if_pos hdeep, run_pushText_of_levels_le hlx literals htokens hdeep]
    rfl
  rw [if_neg hdeep, run_pushText_of_lt_levels hlx literals htokens (Nat.lt_of_not_le hdeep)]
  have hcells : tokenCells + literals.length = allCells := by omega
  by_cases hmore : config.mostCells < allCells
  · have hlist : CoreM.charge literals.length config.limits ⟨tokenCells, #[]⟩ = _ :=
      charge_of_mostCells_lt hchunks (Nat.le_of_not_lt hfew) (by rwa [← hcells] at hmore)
    rw [if_pos hmore, charging_of_error hlist]
    rfl
  · have hlist : CoreM.charge literals.length config.limits ⟨tokenCells, #[]⟩ = _ :=
      charge_of_le hchunks (Nat.le_of_not_lt (by rwa [← hcells] at hmore))
    rw [if_neg hmore, charging_of_ok hlist]
    simp only [Plain.outcome, hcells]
    rfl

/-- Two strings, with just enough cells and levels, with a cell too few for the list, with a level
too few, and with a cell too few for the tokens. -/
theorem outcome_run_pushText_two :
    ({} : Config).delimiters = ({} : Config).delimiters ∧
      (∀ maxDepth cells, let config : Config := { maxDepth, maxCells := some cells }
        config.reserves (max config.chunkSize 1)) ∧
      let outcomeWith := fun maxDepth cells => outcome (run "PUSH \"a\" PUSH 'b\"' NIL"
        ((new { maxDepth, maxCells := some cells }).after [.run "("]))
      outcomeWith 3 12 = (.ok "[\"a\", 'b\"']", 12) ∧
        outcomeWith 3 11 = (.error (.allocationFailure (.exhausted 11)), 11) ∧
        outcomeWith 2 11 = (.error (.tooDeep 2), 10) ∧
        outcomeWith 2 9 = (.error (.allocationFailure (.exhausted 9)), 9) := by
  have hchunks : ∀ maxDepth cells, let config : Config := { maxDepth, maxCells := some cells }
      config.reserves (max config.chunkSize 1) := by
    intro maxDepth cells config
    simp only [config]
    decide
  have houtcome := fun maxDepth cells =>
    outcome_run_pushText { maxDepth, maxCells := some cells } [.run "("]
      [.string '"' ['a'] (.inr rfl) (by decide), .string '\'' ['b', '"'] (.inl rfl) (by decide)]
      rfl (hchunks maxDepth cells)
  exact ⟨rfl, hchunks, houtcome 3 12, houtcome 3 11, houtcome 2 11, houtcome 2 9⟩

/-- A list for which no limit is set is refused when its tokens need more cells than have an
index. It is not found to be too deep then. -/
theorem outcome_run_pushText_unlimited :
    let literals := List.replicate (2 ^ 30) (Literal.string '"' ['a'] (.inr rfl) (by decide))
    let result := outcome (run (String.ofList (pushText literals)) (new {}))
    ({} : Config).maxCells = none ∧ ({} : Config).maxDepth ≤ literals.length ∧
      result = (.error (.allocationFailure (.exhausted 4294967295)), 4294967296) ∧
      result.1 ≠ .error (.tooDeep ({} : Config).maxDepth) := by
  intro literals result
  have hlength : literals.length = 2 ^ 30 := List.length_replicate
  have hfew : ({} : Config).mostCells < 4 * literals.length + 2 := by
    rw [hlength]
    decide
  have hresult : result = (.error (.allocationFailure (.exhausted 4294967295)), 4294967296) :=
    outcome_run_pushText_of_few [] rfl (by decide) hfew
  refine ⟨rfl, by rw [hlength]; decide, hresult, ?_⟩
  rw [hresult]
  nofun

end Interpreter

end BraceLang
