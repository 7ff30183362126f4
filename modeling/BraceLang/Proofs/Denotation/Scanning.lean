import BraceLang.Proofs.Denotation.Terms
import BraceLang.Token.Stream

/-!
# Simulation of scanning

Scanning a text takes a cell for every token, and putting the tokens into the order of the text
takes another one for each. The texts that are interned on the way keep their references.

* `Memory.Fits`: the state of a memory and that of an evaluation on data belong together.
* `Memory.agrees_addAll`: the tokens of a text are stored, last first.
* `Memory.agrees_reverse`: the tokens are put into their order.
-/

namespace BraceLang

/-- A memory that is in order, with the cells and the slots of an evaluation on data. -/
structure Memory.Fits (m : Memory) (limits : Limits) (core : Core Tokens) : Prop where
  layout : m.store.Layout
  distinct : m.texts.Distinct
  refusal : limits.refusal = m.store.refusalAt?
  used : core.used = m.store.used
  slots : m.DenotesSlots core.slots

/-- The outcomes of an operation on a memory and of one on data belong together. -/
inductive Memory.Agrees {α β : Type} (limits : Limits) (m : Memory) (R : Memory → α → β → Prop) :
    EStateM.Result EvalError Memory α → EStateM.Result Fault (Core Tokens) β → Prop
  | ok {a : α} {b : β} {m' : Memory} {core : Core Tokens} : m'.Fits limits core → m.Extends m' →
    R m' a b → Memory.Agrees limits m R (.ok a m') (.ok b core)
  | error (fault : Fault) {m' : Memory} {core : Core Tokens} : core.used = m'.store.used →
    Memory.Agrees limits m R (.error fault.val m') (.error fault core)

namespace Memory

variable {α α' β β' : Type} {limits : Limits} {m : Memory} {core : Core Tokens}
  {R : Memory → α → β → Prop}

theorem Agrees.of_extends {m' : Memory} {result : EStateM.Result EvalError Memory α}
    {result' : EStateM.Result Fault (Core Tokens) β} (h : Agrees limits m' R result result')
    (hext : m.Extends m') : Agrees limits m R result result' := by
  cases h with
  | ok hfits hext' hR => exact .ok hfits (hext.trans hext') hR
  | error fault hused => exact .error fault hused

theorem Agrees.mono {Q : Memory → α → β → Prop} {result : EStateM.Result EvalError Memory α}
    {result' : EStateM.Result Fault (Core Tokens) β} (h : Agrees limits m R result result')
    (hQ : ∀ m' x y, R m' x y → Q m' x y) : Agrees limits m Q result result' := by
  cases h with
  | ok hfits hext hR => exact .ok hfits hext (hQ _ _ _ hR)
  | error fault hused => exact .error fault hused

theorem Agrees.bind {c : MemoryM α} {a : CoreM Tokens β} {f : α → MemoryM α'}
    {g : β → CoreM Tokens β'} {Q : Memory → α' → β' → Prop}
    (h : Agrees limits m R (c m) (a limits core))
    (hf : ∀ x y m' core', m'.Fits limits core' → m.Extends m' → R m' x y →
      Agrees limits m' Q (f x m') (g y limits core')) :
    Agrees limits m Q ((c >>= f) m) ((a >>= g) limits core) := by
  generalize hc : c m = result at h
  generalize ha : a limits core = result' at h
  cases h with
  | ok hfits hext hR =>
    rw [bind_of_ok hc, reader_bind_of_ok ha]
    exact (hf _ _ _ _ hfits hext hR).of_extends hext
  | error fault hused =>
    rw [bind_of_error hc, reader_bind_of_error ha]
    exact .error fault hused

/-! ## Tokens -/

/-- The token of a lexeme takes no cell. Its text is put into the table. -/
theorem toValue_apply (m : Memory) (token : Lexeme) :
    ∃ v texts, token.toValue m = .ok v { m with texts } ∧ texts.DenotesToken v token ∧
      (m.texts.Distinct → texts.Distinct) ∧
      ∀ {ref : TextRef} {text : List Char}, m.texts.Names ref text → texts.Names ref text := by
  have hintern : ∀ text : List Char, Memory.intern (String.ofList text) m =
      .ok (m.texts.intern (String.ofList text)).1
        { m with texts := (m.texts.intern (String.ofList text)).2 } := fun _ => rfl
  cases token with
  | delimiter c => exact ⟨_, m.texts, rfl, .delimiter, id, id⟩
  | number n => exact ⟨_, m.texts, rfl, .number, id, id⟩
  | keyword k => exact ⟨_, m.texts, rfl, .keyword, id, id⟩
  | string text =>
    refine ⟨.string (m.texts.intern (String.ofList text)).1, _, ?_,
      .string (TextTable.names_intern _ _), fun h => h.intern _, fun h => h.intern _⟩
    simp only [Lexeme.toValue, Functor.map, EStateM.map, hintern]
  | atom name =>
    refine ⟨.atom (m.texts.intern (String.ofList name)).1, _, ?_,
      .atom (TextTable.names_intern _ _), fun h => h.intern _, fun h => h.intern _⟩
    simp only [Lexeme.toValue, Functor.map, EStateM.map, hintern]

theorem toValue_eq (hfits : m.Fits limits core) (token : Lexeme) :
    ∃ v m', token.toValue m = .ok v m' ∧ m'.Fits limits core ∧ m.Extends m' ∧
      m'.texts.DenotesToken v token := by
  obtain ⟨v, texts, hvalue, hv, hdistinct, hnames⟩ := toValue_apply m token
  have hext : m.Extends { m with texts } := ⟨.refl _, hnames⟩
  exact ⟨v, _, hvalue, ⟨hfits.layout, hdistinct hfits.distinct, hfits.refusal, hfits.used,
    hfits.slots.mono hext rfl⟩, hext, hv⟩

theorem agrees_push (hfits : m.Fits limits core) {l : ListRef} {values : List Value}
    (hl : m.store.Chain l values) (value : Value) :
    Agrees limits m (fun m' l' _ => m'.store.Chain l' (value :: values))
      (Memory.ofStoreM (Store.push l value) m) (CoreM.alloc limits core) := by
  simp only [CoreM.alloc, hfits.refusal, hfits.used, Memory.ofStoreM, Store.push_eq hfits.layout]
  cases hr : m.store.refusalAt? m.store.used with
  | some e =>
    simp only [ofStore_of_refusal? hr]
    exact .error ⟨.allocationFailure e, rfl⟩ hfits.used
  | none =>
    have hext : m.Extends { m with store := m.store.written ⟨value, l⟩ } :=
      ⟨Store.extends_written _ _, id⟩
    refine .ok ⟨hfits.layout.written _ (Store.reserves_of_refusal? hr), hfits.distinct,
      hfits.refusal, rfl, hfits.slots.mono hext rfl⟩ hext ?_
    exact Store.chain_written hfits.layout hl value

/-- Tokens that have been read so far, last first. -/
def HoldsTokens (m : Memory) (stream : TokenStream) (tokens : Tokens) : Prop :=
  m.DenotesTokens stream.reversed tokens.reverse

theorem agrees_add (hfits : m.Fits limits core) {stream : TokenStream} {tokens : Tokens}
    (h : m.HoldsTokens stream tokens) (token : Lexeme) :
    Agrees limits m (fun m' stream' _ => m'.HoldsTokens stream' (tokens ++ [token]))
      (stream.add token m) (CoreM.alloc limits core) := by
  obtain ⟨v, m', hvalue, hfits', hext, hv⟩ := toValue_eq hfits token
  obtain ⟨values, hchain, htokens⟩ := h.mono hext
  have hadd : stream.add token m =
      (Memory.ofStoreM (Store.push stream.reversed v) >>= fun reversed =>
        pure ⟨reversed, stream.length + 1⟩ : MemoryM TokenStream) m' := by
    unfold TokenStream.add
    rw [bind_of_ok hvalue]
  have hmap : (CoreM.alloc limits core : EStateM.Result Fault (Core Tokens) Unit) =
      (CoreM.alloc >>= fun _ => pure () : CoreM Tokens Unit) limits core := by
    rw [bind_pure_unit]
  rw [hadd, hmap]
  refine Agrees.of_extends ?_ hext
  refine (agrees_push hfits' hchain v).bind fun l _ m'' core'' hfits'' hext' hl => ?_
  refine .ok hfits'' (.refl _) ?_
  unfold HoldsTokens
  rw [List.reverse_append]
  exact ⟨v :: values, hl, .cons (hv.mono hext') (htokens.imp fun _ _ h => h.mono hext')⟩

theorem agrees_addAll (hfits : m.Fits limits core) {stream : TokenStream} {before : Tokens}
    (h : m.HoldsTokens stream before) (tokens : Tokens) :
    Agrees limits m (fun m' stream' _ => m'.HoldsTokens stream' (before ++ tokens))
      (tokens.foldlM TokenStream.add stream m) (CoreM.charge tokens.length limits core) := by
  induction tokens generalizing m core stream before with
  | nil =>
    refine .ok hfits (.refl _) ?_
    rw [List.append_nil]
    exact h
  | cons token tokens ih =>
    rw [List.foldlM_cons, List.length_cons]
    refine (agrees_add hfits h token).bind fun stream' _ m' core' hfits' _ hstream => ?_
    rw [List.append_cons]
    exact ih hfits' hstream

/-! ## Order -/

theorem ofStoreM_bind {γ δ : Type} (x : StoreM γ) (f : γ → StoreM δ) :
    Memory.ofStoreM (x >>= f) = Memory.ofStoreM x >>= fun y => Memory.ofStoreM (f y) := by
  funext m
  cases hx : x m.store with
  | ok y store =>
    rw [bind_of_ok (ofStoreM_ok hx)]
    simp only [Memory.ofStoreM, bind_of_ok hx]
  | error e store =>
    rw [bind_of_error (ofStoreM_error hx)]
    simp only [Memory.ofStoreM, bind_of_error hx]

theorem ofStoreM_read_of_ok {γ : Type} {question : Store → Except StoreError γ} {x : γ}
    (h : question m.store = .ok x) : Memory.ofStoreM (Store.read question) m = .ok x m := by
  simp only [Memory.ofStoreM, Store.read, h]

theorem agrees_reverseOnto (hfits : m.Fits limits core) {steps : Nat} {onto l : ListRef}
    {values before : List Value} (hl : m.store.Chain l values) (honto : m.store.Chain onto before)
    (hsteps : values.length ≤ steps) :
    Agrees limits m (fun m' l' _ => m'.store.Chain l' (values.reverse ++ before))
      (Memory.ofStoreM (Store.reverseOnto steps onto l) m)
      (CoreM.charge values.length limits core) := by
  induction steps generalizing m core onto l values before with
  | zero =>
    cases values with
    | nil => exact .ok hfits (.refl _) honto
    | cons value values => simp at hsteps
  | succ steps ih =>
    unfold Store.reverseOnto
    rw [ofStoreM_bind]
    cases values with
    | nil =>
      rw [bind_of_ok (ofStoreM_read_of_ok hl.split_nil)]
      exact .ok hfits (.refl _) honto
    | cons value values =>
      obtain ⟨rest, hsplit, hrest⟩ := hl.split_cons
      rw [bind_of_ok (ofStoreM_read_of_ok hsplit)]
      simp only [ofStoreM_bind, List.length_cons]
      refine (agrees_push hfits honto value).bind fun l' _ m' core' hfits' hext hl' => ?_
      refine (ih hfits' (hrest.mono hext.store) hl' (Nat.le_of_succ_le_succ hsteps)).mono ?_
      intro m'' l'' _ hchain
      rw [List.reverse_cons, List.append_assoc]
      exact hchain

theorem agrees_reverse (hfits : m.Fits limits core) {stream : TokenStream} {tokens : Tokens}
    (h : m.HoldsTokens stream tokens) :
    Agrees limits m (fun m' l _ => m'.DenotesTokens l tokens)
      (Memory.ofStoreM stream.forward m) (CoreM.charge tokens.length limits core) := by
  obtain ⟨values, hchain, htokens⟩ := h
  have hlength : values.length = tokens.length := by
    rw [htokens.length_eq, List.length_reverse]
  have hsteps : values.length ≤ m.store.maxSteps + m.store.maxCells.getD 0 :=
    Nat.le_trans (hchain.length_le_maxSteps hfits.layout) (Nat.le_add_right _ _)
  have hforward : Memory.ofStoreM stream.forward m =
      Memory.ofStoreM (Store.reverseOnto (m.store.maxSteps + m.store.maxCells.getD 0) .empty
        stream.reversed) m := rfl
  have hagrees := agrees_reverseOnto hfits hchain .nil hsteps
  rw [hforward, ← hlength]
  generalize Memory.ofStoreM _ m = result at hagrees ⊢
  generalize CoreM.charge values.length limits core = result' at hagrees ⊢
  cases hagrees with
  | @ok l _ m' core' hfits' hext hl =>
    refine .ok hfits' hext ⟨values.reverse, ?_, ?_⟩
    · rwa [List.append_nil] at hl
    · have hordered := List.forall₂_reverse_iff.mpr (htokens.imp fun _ _ h => h.mono hext)
      rwa [List.reverse_reverse] at hordered
  | error fault hused => exact .error fault hused

end Memory

end BraceLang
