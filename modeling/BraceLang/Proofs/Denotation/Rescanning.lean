import BraceLang.Proofs.Denotation.Interpreter
import BraceLang.Proofs.Denotation.Rendering
import BraceLang.Proofs.Plain.Reading
import BraceLang.Proofs.Store.Refinement

/-!
# Scanning printed tokens

The tokens of a text can be printed and scanned again, in any memory that has the cells for it. The
memory may be in any state between two steps of an evaluation: what its slots hold does not matter
here, as a scanned token never stands for a deferred binding.

* `Memory.Grants`: a number of cells that a memory does not refuse.
* `Memory.Wrote`: what is left of a memory when cells were taken, and nothing else was done.
* `Memory.Writes`: an operation that takes a number of cells, and fails exactly when one of them is
  refused.
* `Memory.writes_scan`, `Memory.writes_forward`: scanning, and putting tokens into their order.
* `scan_renderTokens`: printed tokens are scanned as the tokens they were.
-/

namespace BraceLang

namespace Memory

/-! ## Cells that are taken -/

/-- The memory has that many cells left. -/
def Grants (m : Memory) (cells : Nat) : Prop :=
  ∀ i < cells, m.store.refusalAt? (m.store.used + i) = none

/-- A memory that is in order, and what another one has become when a number of cells was taken. -/
structure Wrote (m : Memory) (cells : Nat) (m' : Memory) : Prop where
  layout : m'.store.Layout
  distinct : m'.texts.Distinct
  extension : m.Extends m'
  used : m'.store.used = m.store.used + cells
  maxCells : m'.store.maxCells = m.store.maxCells
  chunkSize : m'.store.chunkSize = m.store.chunkSize
  slots : m'.store.slots = m.store.slots
  chunks : m'.store.chunks.size ≤
    max m.store.chunks.size (partsFor m.store.chunkSize m'.store.used)

variable {α β : Type} {m m' m'' : Memory} {cells cells' : Nat}

theorem Wrote.refl (hs : m.store.Layout) (ht : m.texts.Distinct) : m.Wrote 0 m :=
  ⟨hs, ht, .refl m, rfl, rfl, rfl, rfl, Nat.le_max_left _ _⟩

theorem Wrote.trans (h : m.Wrote cells m') (h' : m'.Wrote cells' m'') :
    m.Wrote (cells + cells') m'' where
  layout := h'.layout
  distinct := h'.distinct
  extension := h.extension.trans h'.extension
  used := by rw [h'.used, h.used, Nat.add_assoc]
  maxCells := h'.maxCells.trans h.maxCells
  chunkSize := h'.chunkSize.trans h.chunkSize
  slots := h'.slots.trans h.slots
  chunks := by
    have hfirst := h.chunks
    have hsecond := h'.chunks
    rw [h.chunkSize] at hsecond
    have hused : m'.store.used ≤ m''.store.used := by
      rw [h'.used]
      exact Nat.le_add_right _ _
    have hparts := partsFor_mono m.store.chunkSize hused
    omega

/-- The cells of two steps are granted together or one after the other. -/
theorem Wrote.grants_add_iff (h : m.Wrote cells m') (cells' : Nat) :
    m.Grants (cells + cells') ↔ m.Grants cells ∧ m'.Grants cells' := by
  unfold Grants
  rw [h.used, h.extension.store.refusalAt?_eq]
  constructor
  · intro hall
    refine ⟨fun i hi => hall i (by omega), fun i hi => ?_⟩
    rw [Nat.add_assoc]
    exact hall (cells + i) (by omega)
  · rintro ⟨hfirst, hsecond⟩ i hi
    by_cases hlt : i < cells
    · exact hfirst i hlt
    · have := hsecond (i - cells) (by omega)
      rwa [show m.store.used + cells + (i - cells) = m.store.used + i by omega] at this

theorem grants_zero (m : Memory) : m.Grants 0 := fun i hi => absurd hi (Nat.not_lt_zero i)

theorem grants_one_iff :
    m.Grants 1 ↔ m.store.refusalAt? m.store.used = none := by
  constructor
  · intro h
    exact h 0 Nat.zero_lt_one
  · intro h i hi
    rwa [Nat.lt_one_iff.mp hi]

/-- How an operation ends that takes a number of cells. If the memory does not have them, it fails
at the first one that is refused, and keeps those that it has taken. -/
inductive Writes (m : Memory) (cells : Nat) (Q : Memory → α → Prop) :
    EStateM.Result EvalError Memory α → Prop
  | ok {a : α} {m' : Memory} : m.Grants cells → m.Wrote cells m' → Q m' a →
    Writes m cells Q (.ok a m')
  | error {cause : StoreError} {taken : Nat} {m' : Memory} : taken < cells → m.Grants taken →
    m.Wrote taken m' →
    m'.store.refusalAt? m'.store.used = some cause →
    Writes m cells Q (.error (.ofStore cause) m')

namespace Writes

variable {Q : Memory → α → Prop} {R : Memory → β → Prop}

theorem bind {total : Nat} {c : MemoryM α} {f : α → MemoryM β} (h : Writes m cells Q (c m))
    (htotal : total = cells + cells')
    (hf : ∀ a m', m.Wrote cells m' → Q m' a → Writes m' cells' R (f a m')) :
    Writes m total R ((c >>= f) m) := by
  subst htotal
  generalize hc : c m = result at h
  cases h with
  | error htaken hgranted hwrote hrefusal =>
    rw [bind_of_error hc]
    exact .error (Nat.lt_add_right cells' htaken) hgranted hwrote hrefusal
  | ok hgranted hwrote hQ =>
    rw [bind_of_ok hc]
    have hrest := hf _ _ hwrote hQ
    generalize f _ _ = result at hrest
    cases hrest with
    | error htaken hgranted' hwrote' hrefusal =>
      exact .error (Nat.add_lt_add_left htaken cells)
        ((hwrote.grants_add_iff _).mpr ⟨hgranted, hgranted'⟩) (hwrote.trans hwrote') hrefusal
    | ok hgranted' hwrote' hR =>
      exact .ok ((hwrote.grants_add_iff cells').mpr ⟨hgranted, hgranted'⟩) (hwrote.trans hwrote') hR

theorem mono {Q' : Memory → α → Prop} {result : EStateM.Result EvalError Memory α}
    (h : Writes m cells Q result) (hQ : ∀ m' a, Q m' a → Q' m' a) : Writes m cells Q' result := by
  cases h with
  | ok hgranted hwrote h => exact .ok hgranted hwrote (hQ _ _ h)
  | error htaken hgranted hwrote hrefusal => exact .error htaken hgranted hwrote hrefusal

theorem of_ok {a : α} (h : Writes m cells Q (.ok a m')) :
    m.Grants cells ∧ m.Wrote cells m' ∧ Q m' a := by
  cases h with
  | ok hgranted hwrote hQ => exact ⟨hgranted, hwrote, hQ⟩

/-- A refused cell is one that the memory did not have. -/
theorem not_grants {e : EvalError} (h : Writes m cells Q (.error e m')) : ¬ m.Grants cells := by
  intro hgranted
  cases h with
  | @error _ taken _ htaken _ hwrote hrefusal =>
    have hgiven := hgranted taken htaken
    rw [hwrote.extension.store.refusalAt?_eq, hwrote.used, hgiven] at hrefusal
    cases hrefusal

theorem exists_ok {result : EStateM.Result EvalError Memory α} (h : Writes m cells Q result)
    (hgranted : m.Grants cells) : ∃ a m', result = .ok a m' ∧ m.Wrote cells m' ∧ Q m' a := by
  cases result with
  | ok a m' => exact ⟨a, m', rfl, h.of_ok.2⟩
  | error e m' => exact absurd hgranted h.not_grants

end Writes

/-! ## Scanning -/

section Scanning

variable {l : ListRef} {values : List Value}

theorem writes_push (hs : m.store.Layout) (ht : m.texts.Distinct) (l : ListRef) (value : Value) :
    Writes m 1
      (fun m' l' => ∀ values, m.store.Chain l values → m'.store.Chain l' (value :: values))
      (Memory.ofStoreM (Store.push l value) m) := by
  simp only [Memory.ofStoreM, Store.push_eq hs]
  cases hrefusal : m.store.refusalAt? m.store.used with
  | some e => exact .error Nat.zero_lt_one (grants_zero m) (.refl hs ht) hrefusal
  | none =>
    refine .ok (grants_one_iff.mpr hrefusal) ?_ fun _ hl => Store.chain_written hs hl value
    exact ⟨hs.written _ (Store.reserves_of_refusal? hrefusal), ht,
      ⟨Store.extends_written _ _, id⟩, rfl, rfl, rfl, rfl, Store.size_chunks_written_le hs _⟩

theorem writes_toValue (hs : m.store.Layout) (ht : m.texts.Distinct) (token : Lexeme) :
    Writes m 0 (fun m' v => m'.texts.DenotesToken v token) (token.toValue m) := by
  have hintern : ∀ text : List Char, ∃ ref m', Memory.intern (String.ofList text) m = .ok ref m' ∧
      m.Wrote 0 m' ∧ m'.texts.Names ref text := fun text =>
    ⟨_, _, rfl, ⟨hs, ht.intern _, ⟨.refl _, fun h => h.intern _⟩, rfl, rfl, rfl, rfl,
        Nat.le_max_left _ _⟩,
      TextTable.names_intern _ _⟩
  have hrefl : m.Wrote 0 m := .refl hs ht
  cases token with
  | delimiter c => exact .ok (grants_zero m) hrefl .delimiter
  | number n => exact .ok (grants_zero m) hrefl .number
  | keyword k => exact .ok (grants_zero m) hrefl .keyword
  | string text =>
    obtain ⟨ref, m', hrun, hwrote, hname⟩ := hintern text
    simp only [Lexeme.toValue, Functor.map, EStateM.map, hrun]
    exact .ok (grants_zero m) hwrote (.string hname)
  | atom name =>
    obtain ⟨ref, m', hrun, hwrote, hname⟩ := hintern name
    simp only [Lexeme.toValue, Functor.map, EStateM.map, hrun]
    exact .ok (grants_zero m) hwrote (.atom hname)

/-- A stream holds these tokens and counts them. -/
def Holds (m : Memory) (stream : TokenStream) (tokens : Tokens) : Prop :=
  m.HoldsTokens stream tokens ∧ stream.length = tokens.length

theorem writes_add (hs : m.store.Layout) (ht : m.texts.Distinct) {stream : TokenStream}
    {tokens : Tokens} (h : m.Holds stream tokens) (token : Lexeme) :
    Writes m 1 (fun m' stream' => m'.Holds stream' (tokens ++ [token])) (stream.add token m) := by
  unfold TokenStream.add
  refine (writes_toValue hs ht token).bind (Nat.zero_add 1).symm fun v m' hwrote hv => ?_
  obtain ⟨values, hchain, htokens⟩ := h.1.mono hwrote.extension
  refine (writes_push hwrote.layout hwrote.distinct stream.reversed v).bind (Nat.add_zero 1).symm
    fun l m'' hwrote' hl => ?_
  refine .ok (grants_zero m'') (.refl hwrote'.layout hwrote'.distinct) ⟨?_, ?_⟩
  · unfold HoldsTokens
    rw [List.reverse_append]
    exact ⟨v :: values, hl values hchain,
      .cons (hv.mono hwrote'.extension) (htokens.imp fun _ _ h => h.mono hwrote'.extension)⟩
  · simp [h.2]

theorem writes_addAll (hs : m.store.Layout) (ht : m.texts.Distinct) {stream : TokenStream}
    {before : Tokens} (h : m.Holds stream before) (tokens : Tokens) :
    Writes m tokens.length (fun m' stream' => m'.Holds stream' (before ++ tokens))
      (tokens.foldlM TokenStream.add stream m) := by
  induction tokens generalizing m stream before with
  | nil =>
    rw [List.append_nil]
    exact .ok (grants_zero m) (.refl hs ht) h
  | cons token tokens ih =>
    rw [List.foldlM_cons, List.length_cons]
    refine (writes_add hs ht h token).bind (Nat.add_comm _ _) fun stream' m' hwrote hstream => ?_
    rw [List.append_cons]
    exact ih hwrote.layout hwrote.distinct hstream

theorem holds_nil (m : Memory) : m.Holds {} [] := ⟨⟨[], .nil, .nil⟩, rfl⟩

/-- Scanning a text takes a cell for every token. -/
theorem writes_scan (hs : m.store.Layout) (ht : m.texts.Distinct) {lx : Lexicon} {text : String}
    {tokens : Tokens} (hlex : lx.lex text.toList = (tokens, none)) :
    Writes m tokens.length (fun m' stream => m'.Holds stream tokens) (scan lx text m) := by
  have hscan : scan lx text = tokens.foldlM TokenStream.add {} >>= pure := by
    simp only [scan, Lexer.ofString, hlex]
  rw [hscan]
  refine (writes_addAll hs ht (holds_nil m) tokens).bind (Nat.add_zero _).symm
    fun stream m' hwrote hstream => ?_
  exact .ok (grants_zero m') (.refl hwrote.layout hwrote.distinct) hstream

/-- A text that was scanned has no string without end. -/
theorem lex_of_scan {lx : Lexicon} {text : String} {stream : TokenStream}
    (h : scan lx text m = .ok stream m') : (lx.lex text.toList).2 = none := by
  simp only [scan, Lexer.ofString] at h
  cases hquote : (lx.lex text.toList).2 with
  | none => rfl
  | some quote =>
    rw [hquote, bind_eq_ok_iff] at h
    obtain ⟨_, _, _, hthrow⟩ := h
    cases hthrow

/-! ## Order -/

theorem writes_reverseOnto (hs : m.store.Layout) (ht : m.texts.Distinct) {steps : Nat}
    {onto : ListRef} {before : List Value} (hl : m.store.Chain l values)
    (honto : m.store.Chain onto before) (hsteps : values.length ≤ steps) :
    Writes m values.length (fun m' l' => m'.store.Chain l' (values.reverse ++ before))
      (Memory.ofStoreM (Store.reverseOnto steps onto l) m) := by
  induction values generalizing m steps onto l before with
  | nil =>
    have hstop : Memory.ofStoreM (Store.reverseOnto steps onto l) m = .ok onto m := by
      cases steps with
      | zero => rfl
      | succ steps =>
        unfold Store.reverseOnto
        rw [ofStoreM_bind, bind_of_ok (ofStoreM_read_of_ok hl.split_nil)]
        rfl
    rw [hstop]
    exact .ok (grants_zero m) (.refl hs ht) honto
  | cons value values ih =>
    obtain ⟨steps, rfl⟩ := Nat.exists_eq_add_of_lt hsteps
    rw [Nat.add_right_comm, Nat.add_right_comm, Store.reverseOnto, ofStoreM_bind]
    obtain ⟨rest, hsplit, hrest⟩ := hl.split_cons
    rw [bind_of_ok (ofStoreM_read_of_ok hsplit), List.length_cons]
    simp only [ofStoreM_bind]
    refine (writes_push hs ht onto value).bind (Nat.add_comm _ _) fun l' m' hwrote hl' => ?_
    refine (ih hwrote.layout hwrote.distinct (hrest.mono hwrote.extension.store)
      (hl' before honto) (by omega)).mono fun m'' l'' hchain => ?_
    rw [List.reverse_cons, List.append_assoc]
    exact hchain

theorem writes_reverse (hs : m.store.Layout) (ht : m.texts.Distinct)
    (hl : m.store.Chain l values) :
    Writes m values.length (fun m' l' => m'.store.Chain l' values.reverse)
      (Memory.ofStoreM (Store.reverse l) m) := by
  have hsteps : values.length ≤ m.store.maxSteps + m.store.maxCells.getD 0 :=
    Nat.le_trans (hl.length_le_maxSteps hs) (Nat.le_add_right _ _)
  have hreverse : Memory.ofStoreM (Store.reverse l) m =
      Memory.ofStoreM (Store.reverseOnto (m.store.maxSteps + m.store.maxCells.getD 0) .empty l)
        m := rfl
  rw [hreverse]
  refine (writes_reverseOnto hs ht hl .nil hsteps).mono fun m' l' hchain => ?_
  rwa [List.append_nil] at hchain

/-- Putting tokens into their order takes another cell for each of them. -/
theorem writes_forward (hs : m.store.Layout) (ht : m.texts.Distinct) {stream : TokenStream}
    {tokens : Tokens} (h : m.Holds stream tokens) :
    Writes m tokens.length (fun m' l => m'.DenotesTokens l tokens)
      (Memory.ofStoreM stream.forward m) := by
  obtain ⟨⟨values, hchain, htokens⟩, -⟩ := h
  have hlength : values.length = tokens.length := by
    rw [htokens.length_eq, List.length_reverse]
  have hwrites := writes_reverse hs ht hchain
  rw [hlength] at hwrites
  have hforward : Memory.ofStoreM (Store.reverse stream.reversed) m =
      Memory.ofStoreM stream.forward m := rfl
  rw [hforward] at hwrites
  generalize Memory.ofStoreM stream.forward m = result at hwrites ⊢
  cases hwrites with
  | error htaken hgranted hwrote hrefusal => exact .error htaken hgranted hwrote hrefusal
  | ok hgranted hwrote hl =>
    refine .ok hgranted hwrote ⟨values.reverse, hl, ?_⟩
    have hordered :=
      List.forall₂_reverse_iff.mpr (htokens.imp fun _ _ h => h.mono hwrote.extension)
    rwa [List.reverse_reverse] at hordered

end Scanning

/-- A memory that grants every number of cells that another one grants. -/
def AtLeast (m m' : Memory) : Prop := ∀ cells, m'.Grants cells → m.Grants cells

end Memory

/-- The tokens of a text are printed, and what is printed is scanned as the same tokens again. -/
theorem scan_renderTokens {lx : Lexicon} (hlx : lx.Standard) {text : String} {m m₁ m₂ : Memory}
    {stream : TokenStream} {l : ListRef} (hs : m.store.Layout) (ht : m.texts.Distinct)
    (hscan : scan lx text m = .ok stream m₁)
    (hforward : Memory.ofStoreM stream.forward m₁ = .ok l m₂) :
    ∃ tokens printed, m₂.DenotesTokens l tokens ∧ tokens.length = stream.length ∧
      m₂.renderTokens l = .ok printed ∧
      ∀ m' : Memory, m'.store.Layout → m'.texts.Distinct → m'.AtLeast m →
        ∃ stream' m₁' l' m₂', scan lx printed m' = .ok stream' m₁' ∧
          stream'.length = stream.length ∧
          Memory.ofStoreM stream'.forward m₁' = .ok l' m₂' ∧ m₂'.DenotesTokens l' tokens := by
  obtain ⟨tokens, htokens⟩ : ∃ tokens, lx.lex text.toList = (tokens, none) :=
    ⟨_, Prod.ext rfl (Memory.lex_of_scan hscan)⟩
  have hreads : ∀ token ∈ tokens, lx.Reads token := by
    have := Lexicon.reads_of_mem_lex hlx text.toList
    rwa [htokens] at this
  have hwrites := Memory.writes_scan hs ht htokens
  rw [hscan] at hwrites
  obtain ⟨hgranted, hwrote, hholds⟩ := hwrites.of_ok
  have hwrites' := Memory.writes_forward hwrote.layout hwrote.distinct hholds
  rw [hforward] at hwrites'
  obtain ⟨hgranted', hwrote', hl⟩ := hwrites'.of_ok
  refine ⟨tokens, _, hl, hholds.2.symm, Memory.renderTokens_eq hwrote'.layout hl, ?_⟩
  intro m' hs' ht' hroom
  have hall : m'.Grants (tokens.length + tokens.length) :=
    hroom _ ((hwrote.grants_add_iff _).mpr ⟨hgranted, hgranted'⟩)
  have hlex : lx.lex (String.ofList (Lexeme.spaced true tokens)).toList = (tokens, none) := by
    rw [String.toList_ofList]
    exact Lexicon.lex_spaced hlx hreads true
  obtain ⟨stream', m₁', hscan', hwrote₁, hholds'⟩ :=
    (Memory.writes_scan hs' ht' hlex).exists_ok fun i hi => hall i (by omega)
  obtain ⟨l', m₂', hforward', -, hl'⟩ :=
    (Memory.writes_forward hwrote₁.layout hwrote₁.distinct hholds').exists_ok
      ((hwrote₁.grants_add_iff _).mp hall).2
  exact ⟨stream', m₁', l', m₂', hscan', hholds'.2.trans hholds.2.symm, hforward', hl'⟩

/-- A string with a double quote, numbers and a comment. -/
theorem scan_renderTokens_quotes :
    ∃ (stream : TokenStream) (l : ListRef) (m₁ m₂ : Memory) (tokens : Tokens) (printed : String),
      scan ({} : Config).lexicon "\x7bx !y: 'say \"a\"' (f -0.25 1e400 nan)\x7d \\ end"
        (Interpreter.new {}).memory = .ok stream m₁ ∧
      Memory.ofStoreM stream.forward m₁ = .ok l m₂ ∧ m₂.DenotesTokens l tokens ∧
      tokens.length = stream.length ∧ m₂.renderTokens l = .ok printed ∧
      ∀ m' : Memory, m'.store.Layout → m'.texts.Distinct →
        m'.AtLeast (Interpreter.new {}).memory →
        ∃ stream' m₁' l' m₂', scan ({} : Config).lexicon printed m' = .ok stream' m₁' ∧
          stream'.length = stream.length ∧
          Memory.ofStoreM stream'.forward m₁' = .ok l' m₂' ∧ m₂'.DenotesTokens l' tokens := by
  have hready := Interpreter.ready_new {}
  have hscan := eq_ok_of_resultOf? (by decide +kernel :
    resultOf? (scan ({} : Config).lexicon "\x7bx !y: 'say \"a\"' (f -0.25 1e400 nan)\x7d \\ end"
      (Interpreter.new {}).memory) = some ⟨.chain ⟨12, 0⟩, 13⟩)
  have hforward := eq_ok_of_resultOf? (by decide +kernel :
    resultOf? (Memory.ofStoreM (TokenStream.forward ⟨.chain ⟨12, 0⟩, 13⟩)
      (stateOf (scan ({} : Config).lexicon "\x7bx !y: 'say \"a\"' (f -0.25 1e400 nan)\x7d \\ end"
        (Interpreter.new {}).memory))) = some (.chain ⟨25, 0⟩))
  obtain ⟨tokens, printed, h⟩ :=
    scan_renderTokens ⟨rfl, rfl⟩ hready.layout hready.distinct hscan hforward
  exact ⟨_, _, _, _, tokens, printed, hscan, hforward, h⟩

end BraceLang
