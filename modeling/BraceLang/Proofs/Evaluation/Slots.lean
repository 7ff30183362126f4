import BraceLang.Evaluation.Term
import BraceLang.Proofs.Store.Growth
import BraceLang.Proofs.Store.Readings

/-!
# Evaluation steps and slots

A step of an evaluation makes the store grow, and the slots that are there before it are the same
behind it, whatever the outcome. A step that succeeds leaves no slot of its own without a value, and
no step fails because a slot has its value. Most steps have no slots of their own; the exception are
calls, which open slots for their deferred arguments and fill them later.

* `Store.GrowsAbove`: the first slots are left alone.
* `Store.Awaits`: the slots that have no value yet.
* `EvalM.Tidy`: what a step does to the slots. `EvalM.Tidy.spares` is its frame rule.
* `EvalM.Basic`: steps without slots and terms of their own.
-/

namespace BraceLang

/-! ## Slots of a store -/

namespace Store

/-- The store grows, and its first slots stay the same. -/
structure GrowsAbove (n : Nat) (s s' : Store) : Prop where
  grows : s.Grows s'
  generation : s'.generation = s.generation
  size_le : n ≤ s'.slots.size
  slots : ∀ i, i < n → s'.slots[i]? = s.slots[i]?

/-- The slots from a position on that have no value are these, all of them different. -/
structure Awaits (n : Nat) (s : Store) (refs : List SlotRef) : Prop where
  nodup : refs.Nodup
  start_le : ∀ ref ∈ refs, n ≤ ref.index
  pending : ∀ ref ∈ refs, ∃ slot, s.slot ref = .ok slot ∧ slot.value? = none
  others : ∀ i slot, n ≤ i → s.slots[i]? = some slot → slot.value? = none →
    ⟨i, s.generation⟩ ∈ refs

variable {n n' : Nat} {s s' s'' : Store} {refs refs' : List SlotRef}

namespace GrowsAbove

theorem refl (h : n ≤ s.slots.size) : s.GrowsAbove n s :=
  ⟨Std.Refl.refl s, rfl, h, fun _ _ => rfl⟩

theorem trans (h : s.GrowsAbove n s') (h' : s'.GrowsAbove n s'') : s.GrowsAbove n s'' where
  grows := IsTrans.trans _ _ _ h.grows h'.grows
  generation := h'.generation.trans h.generation
  size_le := h'.size_le
  slots := fun i hi => (h'.slots i hi).trans (h.slots i hi)

theorem mono (h : s.GrowsAbove n s') (hn : n' ≤ n) : s.GrowsAbove n' s' where
  grows := h.grows
  generation := h.generation
  size_le := Nat.le_trans hn h.size_le
  slots := fun i hi => h.slots i (Nat.lt_of_lt_of_le hi hn)

/-- The slots are all the same. -/
theorem of_slots_eq (hgrows : s.Grows s') (hslots : s'.slots = s.slots)
    (hgeneration : s'.generation = s.generation) : s.GrowsAbove s.slots.size s' where
  grows := hgrows
  generation := hgeneration
  size_le := Nat.le_of_eq (congrArg Array.size hslots).symm
  slots := fun i _ => congrArg (·[i]?) hslots

/-- A slot that can be read is the same. -/
theorem slot_eq (h : s.GrowsAbove n s') {ref : SlotRef} {slot : Slot}
    (hslot : s.slot ref = .ok slot) (hn : ref.index < n) : s'.slot ref = .ok slot := by
  obtain ⟨hgeneration, hget⟩ := slot_eq_ok_iff.mp hslot
  refine slot_eq_ok_iff.mpr ⟨hgeneration.trans h.generation.symm, ?_⟩
  rw [h.slots _ hn, hget]

end GrowsAbove

theorem index_lt_of_slot {ref : SlotRef} {slot : Slot} (h : s.slot ref = .ok slot) :
    ref.index < s.slots.size :=
  (Array.getElem?_eq_some_iff.mp (slot_eq_ok_iff.mp h).2).1

/-- A slot that was filled has the value. -/
theorem slot_of_fill {ref : SlotRef} {value : Value} {u : Unit} (h : fill ref value s = .ok u s') :
    ∃ slot, s'.slot ref = .ok slot ∧ slot.value? = some value := by
  unfold fill at h
  split at h
  · cases h
  · rename_i slot hslot
    split at h
    · cases h
    · cases h
      obtain ⟨hgeneration, hget⟩ := slot_eq_ok_iff.mp hslot
      have hlt := (Array.getElem?_eq_some_iff.mp hget).1
      refine ⟨{ slot with value? := some value }, slot_eq_ok_iff.mpr ⟨hgeneration, ?_⟩, rfl⟩
      simp [setSlot, hlt]

namespace Awaits

/-- Behind the last slot there is none that has no value. -/
theorem of_size_le (h : s.slots.size ≤ n) : s.Awaits n [] where
  nodup := List.nodup_nil
  start_le := by simp
  pending := by simp
  others := by
    intro i slot hi hslot
    have hlt := (Array.getElem?_eq_some_iff.mp hslot).1
    omega

/-- The slots that were there are the same, and of the new ones these have no value. -/
theorem append (h : s.Awaits n refs) (hn : n ≤ s.slots.size)
    (hgrows : s.GrowsAbove s.slots.size s') (hnew : s'.Awaits s.slots.size refs') :
    s'.Awaits n (refs ++ refs') where
  nodup := by
    refine List.nodup_append.mpr ⟨h.nodup, hnew.nodup, fun ref href ref' href' => ?_⟩
    rintro rfl
    obtain ⟨slot, hslot, -⟩ := h.pending ref href
    have hlt := index_lt_of_slot hslot
    have hge := hnew.start_le ref href'
    omega
  start_le := by
    intro ref href
    rcases List.mem_append.mp href with hold | hadded
    · exact h.start_le ref hold
    · exact Nat.le_trans hn (hnew.start_le ref hadded)
  pending := by
    intro ref href
    rcases List.mem_append.mp href with hold | hadded
    · obtain ⟨slot, hslot, hempty⟩ := h.pending ref hold
      exact ⟨slot, hgrows.slot_eq hslot (index_lt_of_slot hslot), hempty⟩
    · exact hnew.pending ref hadded
  others := by
    intro i slot hi hslot hempty
    apply List.mem_append.mpr
    by_cases hold : i < s.slots.size
    · rw [hgrows.slots i hold] at hslot
      rw [hgrows.generation]
      exact Or.inl (h.others i slot hi hslot hempty)
    · exact Or.inr (hnew.others i slot (by omega) hslot hempty)

/-- An empty slot is added. -/
theorem newSlot (s : Store) (name : TextRef) (tokens : ListRef) :
    ({ s with slots := s.slots.push { name, tokens } } : Store).Awaits s.slots.size
      [⟨s.slots.size, s.generation⟩] where
  nodup := List.nodup_singleton _
  start_le := by simp
  pending := by
    intro ref href
    rw [List.mem_singleton.mp href]
    exact ⟨_, slot_newSlot s name tokens, rfl⟩
  others := by
    intro i slot hi hslot _
    have hlt := (Array.getElem?_eq_some_iff.mp hslot).1
    rw [Array.size_push] at hlt
    have hlast : i = s.slots.size := by omega
    rw [hlast]
    exact List.mem_singleton.mpr rfl

/-- The first of the slots that are awaited takes its value. -/
theorem fill {ref : SlotRef} (h : s.Awaits n (ref :: refs)) (hn : n ≤ s.slots.size)
    (value : Value) :
    ∃ slot, s.slot ref = .ok slot ∧ fill ref value s =
        .ok () (s.setSlot ref.index { slot with value? := some value }) ∧
      s.GrowsAbove n (s.setSlot ref.index { slot with value? := some value }) ∧
      (s.setSlot ref.index { slot with value? := some value }).Awaits n refs := by
  obtain ⟨slot, hslot, hempty⟩ := h.pending ref List.mem_cons_self
  obtain ⟨hgeneration, hget⟩ := slot_eq_ok_iff.mp hslot
  have hlt := index_lt_of_slot hslot
  have hle := h.start_le ref List.mem_cons_self
  have hfill : Store.fill ref value s =
      .ok () (s.setSlot ref.index { slot with value? := some value }) := by
    simp only [Store.fill, hslot, hempty]
  have hother : ∀ i, i ≠ ref.index →
      (s.setSlot ref.index { slot with value? := some value }).slots[i]? = s.slots[i]? :=
    fun i hi => Array.getElem?_setIfInBounds_ne (Ne.symm hi)
  refine ⟨slot, hslot, hfill, ⟨?_, rfl, ?_, fun i hi => hother i (by omega)⟩, ?_⟩
  · exact Relation.ReflTransGen.single (Step.fill hfill)
  · simpa [setSlot] using hn
  · refine ⟨h.nodup.of_cons, fun r hr => h.start_le r (List.mem_cons_of_mem _ hr), ?_, ?_⟩
    · intro r hr
      obtain ⟨slot', hslot', hempty'⟩ := h.pending r (List.mem_cons_of_mem _ hr)
      obtain ⟨hgeneration', hget'⟩ := slot_eq_ok_iff.mp hslot'
      -- all references are of one generation, so that different ones have different indices
      have hne : r.index ≠ ref.index := by
        intro heq
        have hsame : r = ref := by
          cases r
          cases ref
          simp_all
        exact (List.nodup_cons.mp h.nodup).1 (hsame ▸ hr)
      exact ⟨slot', slot_eq_ok_iff.mpr ⟨hgeneration', by rw [hother _ hne, hget']⟩, hempty'⟩
    · intro i found hi hfound hnone
      by_cases heq : i = ref.index
      · subst heq
        have hset : (s.setSlot ref.index { slot with value? := some value }).slots[ref.index]? =
            some { slot with value? := some value } := by simp [setSlot, hlt]
        rw [hset] at hfound
        cases hfound
        cases hnone
      · rw [hother i heq] at hfound
        rcases List.mem_cons.mp (h.others i found hi hfound hnone) with hhead | hrest
        · exact absurd (congrArg SlotRef.index hhead) heq
        · exact hrest

/-- Only the slots that are awaited have no value. -/
theorem isSome_of_nil (h : s.Awaits n []) {ref : SlotRef} {slot : Slot} (hn : n ≤ ref.index)
    (hslot : s.slot ref = .ok slot) : slot.value?.isSome = true := by
  cases hvalue : slot.value? with
  | some value => rfl
  | none =>
    have hmem := h.others ref.index slot hn (slot_eq_ok_iff.mp hslot).2 hvalue
    cases hmem

end Awaits

end Store

/-! ## Outcomes -/

/-- Whatever the outcome, the store grows and its first slots are the same. A success has the
property, and a failure is not that of a slot which has its value. -/
inductive Spares {α : Type} (n : Nat) (s : Store) (post : α → Store → Prop) :
    EStateM.Result EvalError EvalState α → Prop
  | ok {a : α} {st : EvalState} : s.GrowsAbove n st.store → post a st.store →
    Spares n s post (.ok a st)
  | error {e : EvalError} {st : EvalState} : s.GrowsAbove n st.store → e.isRefill = false →
    Spares n s post (.error e st)

namespace Spares

variable {α β : Type} {n n' : Nat} {s s' : Store} {post : α → Store → Prop}
  {result : EStateM.Result EvalError EvalState α}

theorem weaken {post' : α → Store → Prop} (h : Spares n s post result) (hn : n' ≤ n)
    (hpost : ∀ a s', s.GrowsAbove n s' → post a s' → post' a s') : Spares n' s post' result := by
  cases h with
  | ok hsame ha => exact .ok (hsame.mono hn) (hpost _ _ hsame ha)
  | error hsame he => exact .error (hsame.mono hn) he

theorem of_growsAbove (h : Spares n s' post result) (hsame : s.GrowsAbove n s') :
    Spares n s post result := by
  cases h with
  | ok hsame' ha => exact .ok (hsame.trans hsame') ha
  | error hsame' he => exact .error (hsame.trans hsame') he

theorem bind {m : EvalM α} {f : α → EvalM β} {post' : β → Store → Prop} {context : EvalContext}
    {st : EvalState} (h : Spares n st.store post (m context st))
    (hf : ∀ a st', st.store.GrowsAbove n st'.store → post a st'.store →
      Spares n st'.store post' (f a context st')) :
    Spares n st.store post' ((m >>= f) context st) := by
  generalize hm : m context st = result at h
  cases h with
  | ok hsame ha =>
    rw [reader_bind_of_ok hm]
    exact (hf _ _ hsame ha).of_growsAbove hsame
  | error hsame he =>
    rw [reader_bind_of_error hm]
    exact .error hsame he

/-- What holds behind a success. -/
theorem of_ok {a : α} {st : EvalState} (h : Spares n s post (.ok a st)) :
    s.GrowsAbove n st.store ∧ post a st.store := by
  cases h with
  | ok hsame ha => exact ⟨hsame, ha⟩

end Spares

namespace EvalM

/-- The store grows, the slots that were there are the same, and those that the program adds have
their values when it succeeds. -/
def Tidy {α : Type} (m : EvalM α) : Prop :=
  ∀ context st, Spares st.store.slots.size st.store
    (fun _ s => s.Awaits st.store.slots.size []) (m context st)

namespace Tidy

variable {α β : Type} {m : EvalM α}

/-- The frame rule: slots that are awaited around the program are so behind it. -/
theorem spares (h : Tidy m) (context : EvalContext) {st : EvalState} {n : Nat}
    {refs : List SlotRef} (hn : n ≤ st.store.slots.size) (ha : st.store.Awaits n refs) :
    Spares n st.store (fun _ s => s.Awaits n refs) (m context st) := by
  refine (h context st).weaken hn fun _ _ hgrows hnew => ?_
  simpa using ha.append hn hgrows hnew

theorem pure (a : α) : Tidy (Pure.pure a : EvalM α) :=
  fun _ _ => .ok (.refl (Nat.le_refl _)) (.of_size_le (Nat.le_refl _))

theorem throw {e : EvalError} (h : e.isRefill = false) :
    Tidy (MonadExcept.throw e : EvalM α) :=
  fun _ _ => .error (.refl (Nat.le_refl _)) h

theorem bind {f : α → EvalM β} (hm : Tidy m) (hf : ∀ a, Tidy (f a)) : Tidy (m >>= f) :=
  fun context st => (hm context st).bind fun a _ hsame ha =>
    (hf a).spares context hsame.size_le ha

/-- A program that leaves the store as it is and succeeds. -/
theorem of_store_eq (h : ∀ context st, ∃ a st', m context st = .ok a st' ∧ st'.store = st.store) :
    Tidy m := by
  intro context st
  obtain ⟨a, st', hm, hstore⟩ := h context st
  rw [hm]
  have hsize : st'.store.slots.size ≤ st.store.slots.size := by rw [hstore]
  refine .ok ?_ (.of_size_le hsize)
  rw [hstore]
  exact .refl (Nat.le_refl _)

theorem get : Tidy (MonadState.get : EvalM EvalState) := of_store_eq fun _ st => ⟨st, st, rfl, rfl⟩

theorem read : Tidy (MonadReader.read : EvalM EvalContext) :=
  of_store_eq fun context st => ⟨context, st, rfl, rfl⟩

end Tidy

end EvalM

/-! ## Operations of the store that have nothing to do with slots -/

namespace Store

/-- The store grows by cells alone, and a failure is not that of a slot which has its value. -/
structure LeavesSlots {α : Type} (action : StoreM α) : Prop where
  grows : Keeps Grows action
  same : ∀ s, (stateOf (action s)).slots = s.slots ∧
    (stateOf (action s)).generation = s.generation ∧
    ∀ e s', action s = .error e s' → e.isRefill = false

namespace LeavesSlots

variable {α β : Type} {action : StoreM α}

theorem pure (a : α) : LeavesSlots (Pure.pure a : StoreM α) where
  grows := Keeps.pure a
  same := fun _ => ⟨rfl, rfl, fun _ _ h => by cases h⟩

theorem bind {f : α → StoreM β} (h : LeavesSlots action) (hf : ∀ a, LeavesSlots (f a)) :
    LeavesSlots (action >>= f) := by
  refine ⟨h.grows.bind fun a => (hf a).grows, fun s => ?_⟩
  obtain ⟨hslots, hgeneration, herror⟩ := h.same s
  cases hrun : action s with
  | ok a t =>
    rw [hrun] at hslots hgeneration
    rw [bind_of_ok hrun]
    obtain ⟨hslots', hgeneration', herror'⟩ := (hf a).same t
    exact ⟨hslots'.trans hslots, hgeneration'.trans hgeneration, herror'⟩
  | error e t =>
    rw [hrun] at hslots hgeneration
    rw [bind_of_error hrun]
    refine ⟨hslots, hgeneration, fun e' s' h' => ?_⟩
    cases h'
    exact herror e t hrun

theorem map {f : α → β} (h : LeavesSlots action) : LeavesSlots (f <$> action) := by
  rw [← bind_pure_comp]
  exact h.bind fun _ => pure _

end LeavesSlots

theorem leavesSlots_read {α : Type} {question : Store → Except StoreError α}
    (h : ∀ s, FailsWith IsStale (question s)) : LeavesSlots (read question) := by
  refine ⟨keeps_read question, fun s => ?_⟩
  unfold read
  cases hq : question s with
  | ok a => exact ⟨rfl, rfl, fun _ _ h' => by cases h'⟩
  | error e =>
    refine ⟨rfl, rfl, fun e' s' h' => ?_⟩
    cases h'
    exact isRefill_of_isStale (h s e hq)

theorem isRefill_of_limitReached? {maxCells : Option Nat} {used : Nat} {e : StoreError}
    (h : limitReached? maxCells used = some e) : e.isRefill = false := by
  obtain ⟨limit, rfl⟩ := exists_of_limitReached? h
  rfl

theorem leavesSlots_alloc (value : Value) (next : ListRef) : LeavesSlots (alloc value next) := by
  refine ⟨keeps_alloc value next, fun s => ?_⟩
  rw [alloc_apply]
  cases hlimit : limitReached? s.maxCells s.used with
  | some e =>
    refine ⟨rfl, rfl, fun e' s' h' => ?_⟩
    cases h'
    exact isRefill_of_limitReached? hlimit
  | none =>
    simp only
    split
    · refine ⟨rfl, rfl, fun e' s' h' => ?_⟩
      cases h'
      rfl
    · exact ⟨rfl, rfl, fun _ _ h' => by cases h'⟩

theorem leavesSlots_push (l : ListRef) (value : Value) : LeavesSlots (push l value) :=
  (leavesSlots_alloc value l).map

theorem leavesSlots_ofList (values : List Value) : LeavesSlots (ofList values) := by
  induction values with
  | nil => exact .pure _
  | cons value values ih =>
    unfold ofList at ih ⊢
    rw [List.foldrM_cons]
    exact ih.bind fun _ => leavesSlots_push _ _

end Store

theorem Closure.leavesSlots_build (c : Closure) : Store.LeavesSlots c.build :=
  (Store.leavesSlots_ofList _).map

theorem Environment.leavesSlots_extend (env : Environment) (bindings : List (TextRef × Value)) :
    Store.LeavesSlots (env.extend bindings) :=
  (Store.leavesSlots_ofList _).bind fun _ => (Store.leavesSlots_push _ _).bind fun _ => .pure _

/-! ## Steps without terms inside -/

namespace EvalM

variable {α : Type}

theorem tidy_ofStoreM {action : StoreM α} (h : Store.LeavesSlots action) :
    Tidy (ofStoreM action) := by
  intro context st
  have hgrows := h.grows st.store
  obtain ⟨hslots, hgeneration, herror⟩ := h.same st.store
  unfold ofStoreM
  cases hrun : action st.store with
  | ok a s =>
    rw [hrun] at hgrows hslots hgeneration
    simp only [hrun]
    refine .ok (.of_slots_eq hgrows hslots hgeneration) (.of_size_le ?_)
    exact Nat.le_of_eq (congrArg Array.size hslots)
  | error e s =>
    rw [hrun] at hgrows hslots hgeneration
    simp only [hrun]
    refine .error (.of_slots_eq hgrows hslots hgeneration) ?_
    rw [EvalError.isRefill_ofStore]
    exact herror e s hrun

theorem tidy_moveTo (cursor : ListRef) : Tidy (moveTo cursor) :=
  .of_store_eq fun _ st => ⟨(), { st with cursor }, rfl, rfl⟩

theorem tidy_nested {action : EvalM α} (h : Tidy action) : Tidy (nested action) := by
  rintro context ⟨store, cursor, depth⟩
  have hrun := h context ⟨store, cursor, depth + 1⟩
  unfold nested
  by_cases hdeep : context.maxDepth ≤ depth
  · simp only [if_pos hdeep]
    exact .error (.refl (Nat.le_refl _)) rfl
  · simp only [if_neg hdeep]
    generalize action context ⟨store, cursor, depth + 1⟩ = result at hrun
    cases hrun with
    | ok hsame ha => exact .ok hsame ha
    | error hsame he => exact .error hsame he

theorem tidy_onTokens (tokens : ListRef) {action : EvalM α} (h : Tidy action) :
    Tidy (onTokens tokens action) := by
  rintro context ⟨store, cursor, depth⟩
  have hrun := h context ⟨store, tokens, depth⟩
  simp only [onTokens]
  generalize action context ⟨store, tokens, depth⟩ = result at hrun
  cases hrun with
  | ok hsame ha => exact .ok hsame ha
  | error hsame he => exact .error hsame he

/-- Steps that are put together from those that have no slots and no terms of their own. -/
inductive Basic : {α : Type} → EvalM α → Prop
  | pure {α : Type} (a : α) : Basic (Pure.pure a)
  | throw {α : Type} {e : EvalError} : e.isLocal = true → Basic (MonadExcept.throw e : EvalM α)
  | get : Basic (MonadState.get : EvalM EvalState)
  | read : Basic (MonadReader.read : EvalM EvalContext)
  | moveTo (cursor : ListRef) : Basic (moveTo cursor)
  | ofStoreM {α : Type} {action : StoreM α} : Store.LeavesSlots action → Basic (ofStoreM action)
  | bind {α β : Type} {m : EvalM α} {f : α → EvalM β} : Basic m → (∀ a, Basic (f a)) →
    Basic (m >>= f)

theorem Basic.map {β : Type} {m : EvalM α} {f : α → β} (h : Basic m) : Basic (f <$> m) := by
  rw [← bind_pure_comp]
  exact h.bind fun _ => .pure _

theorem Basic.tidy {m : EvalM α} (h : Basic m) : Tidy m := by
  induction h with
  | pure a => exact .pure a
  | throw he => exact .throw (EvalError.isRefill_of_isLocal he)
  | get => exact .get
  | read => exact .read
  | moveTo cursor => exact tidy_moveTo cursor
  | ofStoreM h => exact tidy_ofStoreM h
  | bind _ _ ih ihf => exact ih.bind ihf

theorem basic_fail (fault : SyntaxFault) : Basic (fail fault : EvalM α) := .throw rfl

theorem basic_ask {question : Store → Except StoreError α}
    (h : ∀ s, FailsWith Store.IsStale (question s)) : Basic (ask question) :=
  Basic.ofStoreM (Store.leavesSlots_read h)

theorem basic_askMemory {question : Memory → Except EvalError α}
    (h : ∀ m, FailsLocally (question m)) : Basic (askMemory question) := by
  refine Basic.get.bind fun st => Basic.read.bind fun context => ?_
  cases hq : question ⟨st.store, context.texts⟩ with
  | ok a => exact Basic.pure a
  | error e => exact Basic.throw (h _ e hq)

theorem basic_resolve (ref : TextRef) : Basic (resolve ref) :=
  basic_askMemory fun m => m.texts.failsWith_resolve ref

theorem basic_look? : Basic look? :=
  Basic.get.bind fun st => basic_ask fun s => s.failsWith_split st.cursor

theorem basic_next (atEnd : SyntaxFault) : Basic (next atEnd) := by
  refine basic_look?.bind fun found => ?_
  cases found with
  | none => exact basic_fail _
  | some parts => exact (Basic.moveTo _).bind fun _ => Basic.pure _

theorem basic_unexpected (token : Value) : Basic (unexpected token : EvalM α) :=
  (basic_askMemory fun m => m.failsWith_render token).bind fun _ => basic_fail _

theorem basic_consume {σ : Type} (atEnd : σ → SyntaxFault)
    (step : σ → Value → Except SyntaxFault (Progress σ α)) (state : σ) :
    Basic (consume atEnd step state) := by
  refine Basic.get.bind fun st => ?_
  generalize st.store.maxSteps = steps
  induction steps generalizing state with
  | zero => exact basic_fail _
  | succ steps ih =>
    refine (basic_next _).bind fun token => ?_
    split
    · exact ih _
    · exact Basic.pure _
    · exact basic_fail _

theorem basic_mismatch (op : Keyword) (expected : Expectation) (found : String) :
    Basic (mismatch op expected found : EvalM α) := .throw rfl

theorem basic_closure (env : Environment) : Basic (closure env) := by
  refine (basic_consume _ _ _).bind fun formals => (basic_consume _ _ _).bind fun body => ?_
  refine Basic.ofStoreM ?_
  exact (Store.leavesSlots_ofList _).bind fun _ => (Store.leavesSlots_ofList _).bind fun _ =>
    Closure.leavesSlots_build _

theorem basic_expect (delimiter : Char) : Basic (expect delimiter) := by
  refine basic_look?.bind fun found => ?_
  split
  · split
    · exact Basic.moveTo _
    · exact basic_fail _
  · exact basic_fail _

theorem basic_separator : Basic separator := by
  refine basic_look?.bind fun found => ?_
  split
  · split
    · exact (Basic.moveTo _).bind fun _ => Basic.pure _
    · exact basic_fail _
  · exact basic_fail _

theorem basic_captureArgument : Basic captureArgument :=
  (basic_consume _ _ _).bind fun _ => (Basic.ofStoreM (Store.leavesSlots_ofList _)).bind fun _ =>
    Basic.pure _

theorem basic_lookupName (name : TextRef) (env : Environment) : Basic (lookupName name env) := by
  refine (basic_ask fun s => env.failsWith_lookup s name).bind fun value => ?_
  split
  · exact (basic_resolve _).bind fun _ => Basic.throw rfl
  · refine (basic_ask fun s => s.failsWith_slot _).bind fun slot => ?_
    split
    · exact Basic.pure _
    · exact (basic_resolve _).bind fun _ => Basic.throw rfl
  · exact Basic.pure _

theorem basic_checkSeparator (last : Bool) (separator : Separator) :
    Basic (checkSeparator last separator) := by
  unfold checkSeparator
  split
  · cases last
    · exact basic_fail _
    · exact Basic.pure _
  · cases last
    · exact Basic.pure _
    · exact basic_fail _

theorem tidy_tooDeep : Tidy (tooDeep : EvalM α) := Tidy.read.bind fun _ => Tidy.throw rfl

end EvalM

end BraceLang
