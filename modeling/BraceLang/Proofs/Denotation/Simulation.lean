import BraceLang.Proofs.Denotation.Rendering
import BraceLang.Proofs.Evaluation.Runs
import BraceLang.Proofs.Plain.Core

/-!
# Simulation

An evaluation on a memory and one on data are run side by side. `Models` relates their states: the
cursor and the slots stand for the tokens and the data in slots, the same number of cells is in use,
and a cell is refused for the same reason.

`Simulates` says of two actions that from given states they both succeed, in states that are related
again, or both fail with the same failure and the same number of cells in use. Its rules put a
statement on two programs together from statements on their steps, where the memory may have grown
in between.

* `Simulates.bind`, `Simulates.nested`, `Simulates.onTokens`: the rules for programs.
* `simulates_ofList`, `simulates_push`, `simulates_newSlot`, `simulates_fill`: the operations of the
  store.
-/

namespace BraceLang

/-- The memory of an evaluation. -/
def EvalState.memory (st : EvalState) (context : EvalContext) : Memory := ⟨st.store, context.texts⟩

/-- The states of an evaluation on a memory and of one on data belong together. -/
structure Models (context : EvalContext) (limits : Limits) (st : EvalState) (tokens : Tokens)
    (core : Core Tokens) : Prop where
  layout : st.store.Layout
  distinct : context.texts.Distinct
  maxDepth : limits.maxDepth = context.maxDepth
  depth : limits.depth = st.depth
  refusal : limits.refusal = st.store.refusalAt?
  used : core.used = st.store.used
  slots : (st.memory context).DenotesSlots core.slots
  cursor : (st.memory context).DenotesTokens st.cursor tokens

/-- The outcomes of two actions belong together: related results in states that belong together, or
the same failure with the same number of cells in use. -/
inductive Agrees {α β : Type} (context : EvalContext) (limits : Limits) (st : EvalState)
    (R : Memory → α → β → Prop) :
    EStateM.Result EvalError EvalState α → EStateM.Result Fault (Core Tokens) (β × Tokens) → Prop
  | ok {a : α} {b : β} {st' : EvalState} {tokens : Tokens} {core : Core Tokens} :
    Models context limits st' tokens core → st.store.Extends st'.store →
      R (st'.memory context) a b → Agrees context limits st R (.ok a st') (.ok (b, tokens) core)
  | error (fault : Fault) {st' : EvalState} {core : Core Tokens} : core.used = st'.store.used →
      Agrees context limits st R (.error fault.val st') (.error fault core)

/-- From these states on, the outcomes of the two actions belong together. -/
def Simulates {α β : Type} (context : EvalContext) (limits : Limits) (st : EvalState)
    (tokens : Tokens) (core : Core Tokens) (c : EvalM α) (a : ReadM Tokens Tokens β)
    (R : Memory → α → β → Prop) : Prop :=
  Agrees context limits st R (c context st) (a tokens limits core)

section Rules

variable {α α' β β' : Type} {context : EvalContext} {limits : Limits} {st : EvalState}
  {tokens : Tokens} {core : Core Tokens} {c : EvalM α} {a : ReadM Tokens Tokens β}
  {R : Memory → α → β → Prop}

theorem EvalState.memory_extends {st' : EvalState} (h : st.store.Extends st'.store) :
    (st.memory context).Extends (st'.memory context) := ⟨h, id⟩

namespace Agrees

variable {result : EStateM.Result EvalError EvalState α}
  {result' : EStateM.Result Fault (Core Tokens) (β × Tokens)}

theorem of_extends {st' : EvalState} (h : Agrees context limits st' R result result')
    (hext : st.store.Extends st'.store) : Agrees context limits st R result result' := by
  cases h with
  | ok hmodels hext' hR => exact .ok hmodels (hext.trans hext') hR
  | error fault hused => exact .error fault hused

theorem mono {Q : Memory → α → β → Prop} (h : Agrees context limits st R result result')
    (hQ : ∀ m x y, R m x y → Q m x y) : Agrees context limits st Q result result' := by
  cases h with
  | ok hmodels hext hR => exact .ok hmodels hext (hQ _ _ _ hR)
  | error fault hused => exact .error fault hused

end Agrees

namespace Simulates

theorem pure (h : Models context limits st tokens core) {x : α} {y : β}
    (hR : R (st.memory context) x y) :
    Simulates context limits st tokens core (Pure.pure x) (Pure.pure y) R :=
  Agrees.ok h (.refl _) hR

theorem bind {f : α → EvalM α'} {g : β → ReadM Tokens Tokens β'} {Q : Memory → α' → β' → Prop}
    (h : Simulates context limits st tokens core c a R)
    (hf : ∀ x y st' tokens' core', a tokens limits core = .ok (y, tokens') core' →
      Models context limits st' tokens' core' → (st.memory context).Extends (st'.memory context) →
      R (st'.memory context) x y →
      Simulates context limits st' tokens' core' (f x) (g y) Q) :
    Simulates context limits st tokens core (c >>= f) (a >>= g) Q := by
  have hplain : (a >>= g) tokens limits core =
      (a tokens >>= fun p => g p.1 p.2) limits core := rfl
  unfold Simulates at h hf ⊢
  rw [hplain]
  generalize hc : c context st = result at h
  generalize ha : a tokens limits core = result' at h
  cases h with
  | ok hmodels hext hR =>
    rw [reader_bind_of_ok hc, reader_bind_of_ok ha]
    exact (hf _ _ _ _ _ ha hmodels (EvalState.memory_extends hext) hR).of_extends hext
  | error fault hused =>
    rw [reader_bind_of_error hc, reader_bind_of_error ha]
    exact Agrees.error fault hused

theorem mono {Q : Memory → α → β → Prop} (h : Simulates context limits st tokens core c a R)
    (hQ : ∀ m x y, R m x y → Q m x y) : Simulates context limits st tokens core c a Q :=
  Agrees.mono h hQ

theorem map {f : α → α'} {g : β → β'} {Q : Memory → α' → β' → Prop}
    (h : Simulates context limits st tokens core c a R)
    (hQ : ∀ m x y, R m x y → Q m (f x) (g y)) :
    Simulates context limits st tokens core (f <$> c) (g <$> a) Q := by
  rw [← bind_pure_comp, ← bind_pure_comp]
  exact h.bind fun x y _ _ _ _ hmodels _ hR => pure hmodels (hQ _ _ _ hR)

end Simulates

/-! ## Levels and other tokens -/

namespace Models

theorem with_cursor (h : Models context limits st tokens core) {l : ListRef} {tokens' : Tokens}
    (hl : (st.memory context).DenotesTokens l tokens') :
    Models context limits { st with cursor := l } tokens' core :=
  ⟨h.layout, h.distinct, h.maxDepth, h.depth, h.refusal, h.used, h.slots, hl⟩

theorem deeper (h : Models context limits st tokens core) :
    Models context limits.deeper { st with depth := st.depth + 1 } tokens core :=
  ⟨h.layout, h.distinct, h.maxDepth, congrArg (· + 1) h.depth, h.refusal, h.used, h.slots, h.cursor⟩

theorem higher (h : Models context limits.deeper st tokens core) :
    Models context limits { st with depth := st.depth - 1 } tokens core :=
  ⟨h.layout, h.distinct, h.maxDepth, by simp only [← h.depth, Limits.deeper]; omega, h.refusal,
    h.used, h.slots, h.cursor⟩

end Models

theorem Simulates.nested (h : Models context limits st tokens core)
    (hc : Simulates context limits.deeper { st with depth := st.depth + 1 } tokens core c a R) :
    Simulates context limits st tokens core (EvalM.nested c) (ReadM.nested a) R := by
  obtain ⟨store, cursor, depth⟩ := st
  unfold Simulates at hc ⊢
  simp only [EvalM.nested, ReadM.nested, CoreM.nested, h.maxDepth, h.depth]
  by_cases hdeep : context.maxDepth ≤ depth
  · simp only [if_pos hdeep]
    exact Agrees.error ⟨.tooDeep context.maxDepth, rfl⟩ h.used
  · simp only [if_neg hdeep]
    simp only at hc
    generalize c context ⟨store, cursor, depth + 1⟩ = result at hc
    generalize a tokens limits.deeper core = result' at hc
    cases hc with
    | ok hmodels hext hR => exact Agrees.ok hmodels.higher hext hR
    | error fault hused => exact Agrees.error fault hused

theorem CoreM.lift_apply (action : CoreM Tokens β) :
    (action.lift : ReadM Tokens Tokens β) tokens limits core =
      match action limits core with
      | .ok b core' => .ok (b, tokens) core'
      | .error fault core' => .error fault core' := by
  unfold CoreM.lift
  cases haction : action limits core with
  | ok b core' => exact reader_bind_of_ok haction
  | error fault core' => exact reader_bind_of_error haction

theorem CoreM.lift_bind (action : CoreM Tokens β) (f : β → CoreM Tokens β') :
    ((action >>= f).lift : ReadM Tokens Tokens β') = action.lift >>= fun b => (f b).lift := by
  funext tokens limits core
  have hbind : (action.lift >>= fun b => (f b).lift : ReadM Tokens Tokens β') tokens limits core =
      ((action.lift : ReadM Tokens Tokens β) tokens >>= fun p =>
        (f p.1).lift p.2) limits core := rfl
  rw [hbind]
  cases haction : action limits core with
  | ok b core' =>
    have hlift : (action.lift : ReadM Tokens Tokens β) tokens limits core =
        .ok (b, tokens) core' := by
      rw [lift_apply, haction]
    rw [reader_bind_of_ok hlift, lift_apply, lift_apply, reader_bind_of_ok haction]
  | error fault core' =>
    have hlift : (action.lift : ReadM Tokens Tokens β) tokens limits core = .error fault core' := by
      rw [lift_apply, haction]
    rw [reader_bind_of_error hlift, lift_apply, reader_bind_of_error haction]

/-- An action on tokens of its own. -/
theorem Simulates.onTokens {l : ListRef} {argument : Tokens}
    (h : Models context limits st tokens core)
    (hc : Simulates context limits { st with cursor := l } argument core c a R) :
    Simulates context limits st tokens core (EvalM.onTokens l c) (a argument).lift
      (fun m x y => R m x.1 y.1 ∧ m.DenotesTokens x.2 y.2) := by
  obtain ⟨store, cursor, depth⟩ := st
  unfold Simulates at hc ⊢
  rw [CoreM.lift_apply]
  simp only [EvalM.onTokens]
  simp only at hc
  generalize c context ⟨store, l, depth⟩ = result at hc
  generalize a argument limits core = result' at hc
  cases hc with
  | @ok x y st' left core' hmodels hext hR =>
    have hcursor := h.cursor.mono (EvalState.memory_extends hext)
    exact Agrees.ok (hmodels.with_cursor hcursor) hext ⟨hR, hmodels.cursor⟩
  | error fault hused => exact Agrees.error fault hused

/-! ## Single steps -/

namespace Simulates

/-- A step on the memory that changes nothing. -/
theorem bind_left {γ : Type} {c : EvalM γ} {x : γ} {f : γ → EvalM α} (hc : c context st = .ok x st)
    (h : Simulates context limits st tokens core (f x) a R) :
    Simulates context limits st tokens core (c >>= f) a R := by
  unfold Simulates at h ⊢
  rwa [reader_bind_of_ok hc]

/-- A step on data that changes nothing. -/
theorem bind_right {γ : Type} {a : CoreM Tokens γ} {x : γ} {g : γ → ReadM Tokens Tokens β}
    (ha : a limits core = .ok x core)
    (h : Simulates context limits st tokens core c (g x) R) :
    Simulates context limits st tokens core c (a.lift >>= g) R := by
  have hlift : (a.lift : ReadM Tokens Tokens γ) tokens limits core = .ok (x, tokens) core := by
    rw [CoreM.lift_apply, ha]
  have hplain : (a.lift >>= g) tokens limits core =
      ((a.lift : ReadM Tokens Tokens γ) tokens >>= fun p => g p.1 p.2) limits core := rfl
  unfold Simulates at h ⊢
  rw [hplain, reader_bind_of_ok hlift]
  exact h

theorem fail (h : Models context limits st tokens core) (fault : FormFault) :
    Simulates context limits st tokens core (EvalM.fail fault.val) (CoreM.fail fault).lift R :=
  Agrees.error fault.toFault h.used

end Simulates

theorem askMemory_of_ok {γ : Type} {question : Memory → Except EvalError γ} {x : γ}
    (h : question (st.memory context) = .ok x) :
    EvalM.askMemory question context st = .ok x st := by
  have hask : EvalM.askMemory question context st =
      (MonadExcept.ofExcept (question (st.memory context)) : EvalM γ) context st := rfl
  rw [hask, h]
  rfl

theorem resolve_of_names {ref : TextRef} {text : List Char} (h : context.texts.Names ref text) :
    EvalM.resolve ref context st = .ok (String.ofList text) st := by
  refine askMemory_of_ok ?_
  unfold TextTable.Names at h
  simp only [EvalState.memory, h]
  rfl

namespace Models

theorem look?_nil (h : Models context limits st [] core) :
    EvalM.look? context st = .ok none st := by
  obtain ⟨values, hchain, htokens⟩ := h.cursor
  cases htokens
  exact EvalM.look?_of_nil context hchain

theorem look?_cons {token : Lexeme} (h : Models context limits st (token :: tokens) core) :
    ∃ v rest, EvalM.look? context st = .ok (some (v, rest)) st ∧
      context.texts.DenotesToken v token ∧
      Models context limits { st with cursor := rest } tokens core := by
  obtain ⟨values, hchain, htokens⟩ := h.cursor
  cases htokens with
  | @cons v _ values _ hv htokens =>
    obtain ⟨rest, hlook, hreads⟩ := EvalM.look?_of_cons context hchain
    have hrest : st.store.Chain rest values := hreads.chain_of_cons hchain
    exact ⟨v, rest, hlook, hv, h.with_cursor ⟨values, hrest, htokens⟩⟩

end Models

/-! ## Operations of the store -/

/-- One more cell in use. -/
theorem Models.written (h : Models context limits st tokens core) (cell : Cell)
    (hr : st.store.refusalAt? st.store.used = none) :
    Models context limits { st with store := st.store.written cell } tokens
      { core with used := core.used + 1 } := by
  have hext := Store.extends_written st.store cell
  have hmemory : (st.memory context).Extends
      (({ st with store := st.store.written cell } : EvalState).memory context) :=
    EvalState.memory_extends hext
  exact ⟨h.layout.written cell (Store.reserves_of_refusal? hr), h.distinct, h.maxDepth, h.depth,
    h.refusal, congrArg (· + 1) h.used, h.slots.mono hmemory rfl, h.cursor.mono hmemory⟩

theorem ofStore_of_refusal? {reserves : Nat → Bool} {maxCells : Option Nat} {chunkSize used : Nat}
    {e : StoreError} (h : Store.refusal? reserves maxCells chunkSize used = some e) :
    EvalError.ofStore e = .allocationFailure e := by
  simp only [EvalError.ofStore, Store.isExhaustion_of_refusal? h, if_true]

theorem simulates_push (h : Models context limits st tokens core) {l : ListRef}
    {values : List Value} (hl : st.store.Chain l values) (value : Value) :
    Simulates context limits st tokens core (EvalM.ofStoreM (Store.push l value)) CoreM.alloc.lift
      (fun m l' _ => m.store.Chain l' (value :: values) ∧ m.store.used = st.store.used + 1) := by
  unfold Simulates
  rw [CoreM.lift_apply]
  simp only [CoreM.alloc, h.refusal, h.used, EvalM.ofStoreM, Store.push_eq h.layout]
  cases hr : st.store.refusalAt? st.store.used with
  | some e =>
    simp only [ofStore_of_refusal? hr]
    exact Agrees.error ⟨.allocationFailure e, rfl⟩ h.used
  | none =>
    simp only
    rw [← h.used]
    exact Agrees.ok (h.written ⟨value, l⟩ hr) (Store.extends_written _ _)
      ⟨Store.chain_written h.layout hl value, congrArg (· + 1) h.used.symm⟩

theorem EvalM.ofStoreM_bind {γ δ : Type} (x : StoreM γ) (f : γ → StoreM δ) :
    EvalM.ofStoreM (x >>= f) = EvalM.ofStoreM x >>= fun y => EvalM.ofStoreM (f y) := by
  funext context st
  obtain ⟨store, cursor, depth⟩ := st
  have hright : (EvalM.ofStoreM x >>= fun y => EvalM.ofStoreM (f y)) context
      ⟨store, cursor, depth⟩ =
      (EvalM.ofStoreM x context >>= fun y => EvalM.ofStoreM (f y) context) ⟨store, cursor, depth⟩ :=
    rfl
  rw [hright]
  cases hx : x store with
  | ok y store' =>
    have hfirst : EvalM.ofStoreM x context ⟨store, cursor, depth⟩ =
        .ok y ⟨store', cursor, depth⟩ := by
      simp only [EvalM.ofStoreM, hx]
    rw [bind_of_ok hfirst]
    simp only [EvalM.ofStoreM, bind_of_ok hx]
  | error e store' =>
    have hfirst : EvalM.ofStoreM x context ⟨store, cursor, depth⟩ =
        .error (.ofStore e) ⟨store', cursor, depth⟩ := by
      simp only [EvalM.ofStoreM, hx]
    rw [bind_of_error hfirst]
    simp only [EvalM.ofStoreM, bind_of_error hx]

theorem CoreM.charge_succ (n : Nat) :
    (charge (n + 1) : CoreM β Unit) = charge n >>= fun _ => alloc := by
  induction n with
  | zero => simp [charge]
  | succ n ih =>
    calc (charge (n + 2) : CoreM β Unit)
        = alloc >>= fun _ => charge (n + 1) := rfl
      _ = alloc >>= fun _ => charge n >>= fun _ => alloc := by rw [ih]
      _ = charge (n + 1) >>= fun _ => alloc := (bind_assoc _ _ _).symm

/-- A list of values takes a cell for each. -/
theorem simulates_ofList (h : Models context limits st tokens core) (values : List Value) :
    Simulates context limits st tokens core (EvalM.ofStoreM (Store.ofList values))
      (CoreM.charge values.length).lift (fun m l _ => m.store.Chain l values ∧
        m.store.used = st.store.used + values.length) := by
  induction values with
  | nil => exact Simulates.pure h ⟨.nil, rfl⟩
  | cons value values ih =>
    rw [Store.ofList_cons, EvalM.ofStoreM_bind, List.length_cons, CoreM.charge_succ,
      CoreM.lift_bind]
    refine ih.bind fun l _ st' tokens' core' _ hmodels _ hl => ?_
    refine (simulates_push hmodels hl.1 value).mono fun m l' _ hl' => ⟨hl'.1, ?_⟩
    have hused : st'.store.used = st.store.used + values.length := hl.2
    omega

/-- The slot of a captured argument. -/
def Memory.HoldsArgument (m : Memory) (ref : SlotRef) (name : TextRef) (index : Nat)
    (tokens : Tokens) :
    Prop :=
  ref = ⟨index, m.store.generation⟩ ∧ ∃ slot : Slot, m.store.slots[index]? = some slot ∧
    slot.name = name ∧ m.DenotesTokens slot.tokens tokens

theorem Memory.HoldsArgument.mono {m m' : Memory} {ref : SlotRef} {name : TextRef} {index : Nat}
    (h : m.HoldsArgument ref name index tokens) (hext : m.Extends m') :
    m'.HoldsArgument ref name index tokens := by
  obtain ⟨href, slot, hslot, hname, htokens⟩ := h
  obtain ⟨slot', hslot', hname', htokens', -⟩ := hext.store.slot hslot
  refine ⟨by rw [href, hext.store.generation], slot', hslot', hname'.trans hname, ?_⟩
  rw [htokens']
  exact htokens.mono hext

theorem simulates_newSlot (h : Models context limits st tokens core) (name : TextRef) {l : ListRef}
    {argument : Tokens} (hl : (st.memory context).DenotesTokens l argument) :
    Simulates context limits st tokens core (EvalM.ofStoreM (Store.newSlot name l))
      CoreM.newSlot.lift (fun m ref index => m.HoldsArgument ref name index argument) := by
  have hext := Store.extends_newSlot st.store name l
  have hmemory : (st.memory context).Extends
      (({ st with store := { st.store with slots := st.store.slots.push { name, tokens := l } } } :
        EvalState).memory context) := EvalState.memory_extends hext
  have hsize : core.slots.size = st.store.slots.size := h.slots.size
  unfold Simulates
  rw [CoreM.lift_apply]
  simp only [CoreM.newSlot, EvalM.ofStoreM, Store.newSlot_eq, hsize]
  cases hindex : Store.indexFault? st.store.slots.size with
  | some e =>
    obtain ⟨rfl, -⟩ := Store.eq_of_indexFault? hindex
    exact Agrees.error ⟨.allocationFailure _, rfl⟩ h.used
  | none =>
    refine Agrees.ok ?_ hext ?_
    · exact ⟨h.layout.with_slots _, h.distinct, h.maxDepth, h.depth, h.refusal, h.used,
        h.slots.push hmemory rfl rfl, h.cursor.mono hmemory⟩
    · exact ⟨rfl, { name, tokens := l }, Array.getElem?_push_size, rfl, hl.mono hmemory⟩

/-- A slot that has no value yet takes one. -/
theorem simulates_fill (h : Models context limits st tokens core) {ref : SlotRef} {name : TextRef}
    {index : Nat} {argument : Tokens} {v : Value} {d : Datum Tokens}
    (href : (st.memory context).HoldsArgument ref name index argument)
    (hpending : core.slots.value? index = none) (hv : (st.memory context).Denotes v d) :
    Simulates context limits st tokens core (EvalM.ofStoreM (Store.fill ref v))
      (CoreM.fill index d).lift (fun _ _ _ => True) := by
  obtain ⟨hindex, slot, hslot, -, -⟩ := href
  have href : ref = ⟨index, st.store.generation⟩ := hindex
  subst href
  have hempty : slot.value? = none := by
    have hrel := h.slots.value hslot
    rw [hpending] at hrel
    generalize slot.value? = value? at hrel
    cases hrel
    rfl
  have hget : st.store.slot ⟨index, st.store.generation⟩ = .ok slot :=
    Store.slot_eq_ok_iff.mpr ⟨rfl, hslot⟩
  have hfill : Store.fill ⟨index, st.store.generation⟩ v st.store =
      .ok () (st.store.setSlot index { slot with value? := some v }) := by
    simp only [Store.fill, hget, hempty]
  have hext := Store.extends_setSlot hslot hempty v
  have hmemory : (st.memory context).Extends
      (({ st with store := st.store.setSlot index { slot with value? := some v } } :
        EvalState).memory context) := EvalState.memory_extends hext
  unfold Simulates
  rw [CoreM.lift_apply]
  simp only [EvalM.ofStoreM, hfill]
  refine Agrees.ok ?_ hext trivial
  exact ⟨h.layout.with_slots _, h.distinct, h.maxDepth, h.depth, h.refusal, h.used,
    h.slots.set hmemory rfl rfl hv, h.cursor.mono hmemory⟩

end Rules

end BraceLang
