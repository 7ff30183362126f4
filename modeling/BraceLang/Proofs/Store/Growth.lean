import Mathlib.Logic.Relation
import BraceLang.Environment
import BraceLang.Closure
import BraceLang.Proofs.Effects
import BraceLang.Proofs.Store.Layout

/-!
# How a store grows

Between two resets a store changes in three ways only: a cell is written, a slot is added, or
an empty slot takes its value. A store grows by any number of these steps. Whatever could be
read before can still be read behind them, with the same content, and a slot that has a value
keeps it.

* `Store.step_cases`: what a step does.
* `Store.Layout.of_grows`, `Store.extends_of_grows`: growing keeps the layout and extends the store.
-/

namespace BraceLang.Store

/-- A change that is made to a store between two resets. -/
inductive Step : Store → Store → Prop
  | alloc {s s' : Store} {value : Value} {next : ListRef} {ref : CellRef} :
    alloc value next s = .ok ref s' → Step s s'
  | newSlot {s s' : Store} {name : TextRef} {tokens : ListRef} {ref : SlotRef} :
    newSlot name tokens s = .ok ref s' → Step s s'
  | fill {s s' : Store} {ref : SlotRef} {value : Value} :
    fill ref value s = .ok () s' → Step s s'

/-- Any number of steps. -/
def Grows : Store → Store → Prop := Relation.ReflTransGen Step

instance : IsPreorder Store Grows where
  refl := fun _ => Relation.ReflTransGen.refl
  trans := fun _ _ _ => Relation.ReflTransGen.trans

theorem slot_eq_ok_iff {s : Store} {ref : SlotRef} {slot : Slot} :
    s.slot ref = .ok slot ↔
      ref.generation = s.generation ∧ s.slots[ref.index]? = some slot := by
  unfold Store.slot
  by_cases hgeneration : ref.generation = s.generation
  · cases hget : s.slots[ref.index]? <;> simp [hgeneration]
  · simp [hgeneration]

/-- A slot is added as long as there is an index for it. -/
theorem newSlot_eq (s : Store) (name : TextRef) (tokens : ListRef) :
    newSlot name tokens s =
      match indexFault? s.slots.size with
      | some e => .error e s
      | none =>
        .ok ⟨s.slots.size, s.generation⟩ { s with slots := s.slots.push { name, tokens } } := by
  have hget : (get : StoreM Store) s = .ok s s := rfl
  unfold newSlot
  rw [bind_of_ok hget]
  simp only [bind, EStateM.bind, checkIndex_apply]
  cases indexFault? s.slots.size <;> rfl

theorem newSlot_eq_ok_iff {s s' : Store} {name : TextRef} {tokens : ListRef} {ref : SlotRef} :
    newSlot name tokens s = .ok ref s' ↔
      s.slots.size < indexCount ∧ ⟨s.slots.size, s.generation⟩ = ref ∧
        { s with slots := s.slots.push { name, tokens } } = s' := by
  rw [newSlot_eq, ← indexFault?_eq_none_iff]
  cases indexFault? s.slots.size <;> simp

theorem eq_of_newSlot_error {s s' : Store} {name : TextRef} {tokens : ListRef} {e : StoreError}
    (h : newSlot name tokens s = .error e s') :
    s' = s ∧ e = .exhausted (indexCount - 1) ∧ indexCount ≤ s.slots.size := by
  rw [newSlot_eq] at h
  cases hfault : indexFault? s.slots.size with
  | none =>
    rw [hfault] at h
    cases h
  | some fault =>
    rw [hfault] at h
    cases h
    exact ⟨rfl, eq_of_indexFault? hfault⟩

theorem slot_newSlot (s : Store) (name : TextRef) (tokens : ListRef) :
    ({ s with slots := s.slots.push { name, tokens } } : Store).slot ⟨s.slots.size, s.generation⟩ =
      .ok { name, tokens } :=
  slot_eq_ok_iff.mpr ⟨rfl, Array.getElem?_push_size⟩

/-- All that a step can do. -/
theorem step_cases {s s' : Store} (h : Step s s') :
    (∃ c, limitReached? s.maxCells s.used = none ∧
      (s.used / s.chunkSize = s.chunks.size → s.reserves s.chunkSize = true) ∧ s' = s.written c) ∨
    (∃ name tokens, s' = { s with slots := s.slots.push { name, tokens } }) ∨
    ∃ (index : Nat) (slot : Slot) (value : Value), s.slots[index]? = some slot ∧
      slot.value? = none ∧ s' = s.setSlot index { slot with value? := some value } := by
  cases h with
  | @alloc value next ref h =>
    rw [alloc_apply] at h
    split at h
    · cases h
    · rename_i hlimit
      split at h
      · cases h
      · rename_i hroom
        cases h
        exact Or.inl ⟨_, hlimit, fun hfull => not_not.mp fun hr => hroom ⟨hfull, hr⟩, rfl⟩
  | @newSlot name tokens ref h =>
    obtain ⟨-, -, rfl⟩ := newSlot_eq_ok_iff.mp h
    exact Or.inr (Or.inl ⟨name, tokens, rfl⟩)
  | @fill ref value h =>
    unfold fill at h
    split at h
    · cases h
    · rename_i slot hslot
      split at h
      · cases h
      · rename_i hv
        cases h
        exact Or.inr (Or.inr ⟨_, slot, value, (slot_eq_ok_iff.mp hslot).2, hv, rfl⟩)

/-! ## What growing leaves alone -/

/-- Whatever one store has, the other one has too. -/
structure Extends (s s' : Store) : Prop where
  generation : s'.generation = s.generation
  chunkSize : s'.chunkSize = s.chunkSize
  reserves : s'.reserves = s.reserves
  maxCells : s'.maxCells = s.maxCells
  used_le : s.used ≤ s'.used
  cell : ∀ {ref : CellRef} {c : Cell}, s.cell ref = .ok c → s'.cell ref = .ok c
  slot : ∀ {index : Nat} {slot : Slot}, s.slots[index]? = some slot →
    ∃ slot' : Slot, s'.slots[index]? = some slot' ∧ slot'.name = slot.name ∧
      slot'.tokens = slot.tokens ∧ ∀ v, slot.value? = some v → slot'.value? = some v

namespace Extends

theorem refl (s : Store) : s.Extends s where
  generation := rfl
  chunkSize := rfl
  reserves := rfl
  maxCells := rfl
  used_le := Nat.le_refl _
  cell := id
  slot := fun h => ⟨_, h, rfl, rfl, fun _ => id⟩

theorem trans {s t u : Store} (h : s.Extends t) (h' : t.Extends u) : s.Extends u where
  generation := h'.generation.trans h.generation
  chunkSize := h'.chunkSize.trans h.chunkSize
  reserves := h'.reserves.trans h.reserves
  maxCells := h'.maxCells.trans h.maxCells
  used_le := Nat.le_trans h.used_le h'.used_le
  cell := fun hc => h'.cell (h.cell hc)
  slot := by
    intro index slot hslot
    obtain ⟨slot', hslot', hname, htokens, hvalue⟩ := h.slot hslot
    obtain ⟨slot'', hslot'', hname', htokens', hvalue'⟩ := h'.slot hslot'
    exact ⟨slot'', hslot'', hname'.trans hname, htokens'.trans htokens,
      fun v hv => hvalue' v (hvalue v hv)⟩

theorem refusalAt?_eq {s s' : Store} (h : s.Extends s') : s'.refusalAt? = s.refusalAt? := by
  unfold refusalAt?
  rw [h.reserves, h.maxCells, h.chunkSize]

theorem slots_size_le {s s' : Store} (h : s.Extends s') : s.slots.size ≤ s'.slots.size := by
  by_contra hlt
  have hget : s.slots[s'.slots.size]? = some s.slots[s'.slots.size] :=
    Array.getElem?_eq_getElem (by omega)
  obtain ⟨slot', hslot', -⟩ := h.slot hget
  rw [Array.getElem?_eq_none (Nat.le_refl _)] at hslot'
  cases hslot'

theorem slot_of_ok {s s' : Store} (h : s.Extends s') {ref : SlotRef} {slot : Slot}
    (hslot : s.slot ref = .ok slot) :
    ∃ slot', s'.slot ref = .ok slot' ∧ slot'.tokens = slot.tokens := by
  obtain ⟨hgeneration, hget⟩ := slot_eq_ok_iff.mp hslot
  obtain ⟨slot', hget', -, htokens, -⟩ := h.slot hget
  exact ⟨slot', slot_eq_ok_iff.mpr ⟨hgeneration.trans h.generation.symm, hget'⟩, htokens⟩

end Extends

section Steps

variable {s s' : Store}

theorem extends_written (s : Store) (c : Cell) : s.Extends (s.written c) where
  generation := rfl
  chunkSize := rfl
  reserves := rfl
  maxCells := rfl
  used_le := Nat.le_succ _
  cell := cell_written_of_ok s c
  slot := fun h => ⟨_, h, rfl, rfl, fun _ => id⟩

theorem extends_newSlot (s : Store) (name : TextRef) (tokens : ListRef) :
    s.Extends { s with slots := s.slots.push { name, tokens } } where
  generation := rfl
  chunkSize := rfl
  reserves := rfl
  maxCells := rfl
  used_le := Nat.le_refl _
  cell := id
  slot := by
    intro index slot h
    have hlt := (Array.getElem?_eq_some_iff.mp h).1
    refine ⟨slot, ?_, rfl, rfl, fun _ => id⟩
    rw [Array.getElem?_push, if_neg (Nat.ne_of_lt hlt), h]

theorem extends_setSlot {index : Nat} {slot : Slot} (h : s.slots[index]? = some slot)
    (hv : slot.value? = none) (value : Value) :
    s.Extends (s.setSlot index { slot with value? := some value }) where
  generation := rfl
  chunkSize := rfl
  reserves := rfl
  maxCells := rfl
  used_le := Nat.le_refl _
  cell := id
  slot := by
    intro other found hfound
    by_cases hi : index = other
    · subst hi
      rw [h] at hfound
      cases hfound
      have hlt := (Array.getElem?_eq_some_iff.mp h).1
      refine ⟨{ slot with value? := some value }, by simp [setSlot, hlt], rfl, rfl, ?_⟩
      intro v hsome
      rw [hv] at hsome
      cases hsome
    · exact ⟨found, by simp [setSlot, hi, hfound], rfl, rfl,
        fun _ => id⟩

theorem extends_of_step (h : Step s s') : s.Extends s' := by
  rcases step_cases h with ⟨c, -, -, rfl⟩ | ⟨name, tokens, rfl⟩ |
    ⟨index, slot, value, hslot, hv, rfl⟩
  · exact extends_written s c
  · exact extends_newSlot s name tokens
  · exact extends_setSlot hslot hv value

theorem extends_of_grows (h : Grows s s') : s.Extends s' := by
  induction h with
  | refl => exact Extends.refl s
  | tail _ step ih => exact ih.trans (extends_of_step step)

/-- A store never takes more cells than are allowed and have an index. -/
theorem used_le_of_grows (h : Grows s s') {most : Nat}
    (hmost : ∀ used, limitReached? s.maxCells used = none → used < most) (hused : s.used ≤ most) :
    s'.used ≤ most := by
  induction h with
  | refl => exact hused
  | @tail middle last hgrows step ih =>
    rcases step_cases step with ⟨c, hfree, -, rfl⟩ | ⟨name, tokens, rfl⟩ |
      ⟨index, slot, value, -, -, rfl⟩
    · rw [(extends_of_grows hgrows).maxCells] at hfree
      exact hmost _ hfree
    · exact ih
    · exact ih

end Steps

namespace Layout

variable {s s' : Store}

/-- The cells are the same in a store with other slots. -/
theorem with_slots (hs : s.Layout) (slots : Array Slot) : ({ s with slots } : Store).Layout :=
  ⟨hs.chunkSize_pos, hs.used_le, hs.share, hs.reserves⟩

theorem of_step (hs : s.Layout) (h : Step s s') : s'.Layout := by
  rcases step_cases h with ⟨c, -, hroom, rfl⟩ | ⟨name, tokens, rfl⟩ |
    ⟨index, slot, value, hslot, hv, rfl⟩
  · refine hs.written c ?_
    by_cases hfull : s.used / s.chunkSize = s.chunks.size
    · exact hroom hfull
    · have hlt := hs.used_lt_roomy
      rw [roomy, if_neg hfull] at hlt
      exact hs.reserves (Nat.zero_lt_of_lt hlt)
  · exact hs.with_slots _
  · exact hs.with_slots _

theorem of_grows (hs : s.Layout) (h : Grows s s') : s'.Layout := by
  induction h with
  | refl => exact hs
  | tail _ step ih => exact ih.of_step step

end Layout

/-! ## Operations that grow a store -/

theorem keeps_alloc (value : Value) (next : ListRef) : Keeps Grows (alloc value next) := by
  intro s
  cases h : alloc value next s with
  | ok ref s' => exact Relation.ReflTransGen.single (Step.alloc h)
  | error e s' =>
    rw [eq_of_alloc_error h]
    exact Relation.ReflTransGen.refl

theorem keeps_newSlot (name : TextRef) (tokens : ListRef) : Keeps Grows (newSlot name tokens) := by
  intro s
  cases h : newSlot name tokens s with
  | ok ref s' => exact Relation.ReflTransGen.single (Step.newSlot h)
  | error e s' =>
    rw [(eq_of_newSlot_error h).1]
    exact Relation.ReflTransGen.refl

theorem keeps_fill (ref : SlotRef) (value : Value) : Keeps Grows (fill ref value) := by
  intro s
  cases h : fill ref value s with
  | ok _ s' => exact Relation.ReflTransGen.single (Step.fill h)
  | error e s' =>
    have : s' = s := by
      unfold fill at h
      split at h
      · cases h; rfl
      · split at h
        · cases h; rfl
        · cases h
    rw [this]
    exact Relation.ReflTransGen.refl

theorem keeps_read {α : Type} (question : Store → Except StoreError α) :
    Keeps Grows (read question) := by
  intro s
  unfold read
  split <;> exact Relation.ReflTransGen.refl

theorem keeps_push (l : ListRef) (value : Value) : Keeps Grows (push l value) :=
  (keeps_alloc value l).map

theorem keeps_ofList (values : List Value) : Keeps Grows (ofList values) := by
  induction values with
  | nil => exact Keeps.pure _
  | cons value values ih =>
    unfold ofList at ih ⊢
    rw [List.foldrM_cons]
    exact ih.bind fun _ => keeps_push _ _

theorem keeps_reverseOnto (steps : Nat) (onto l : ListRef) :
    Keeps Grows (reverseOnto steps onto l) := by
  induction steps generalizing onto l with
  | zero => exact Keeps.pure _
  | succ steps ih =>
    refine (keeps_read _).bind fun parts => ?_
    cases parts with
    | none => exact Keeps.pure _
    | some parts => exact (keeps_push _ _).bind fun _ => ih _ _

theorem keeps_reverse (l : ListRef) : Keeps Grows (reverse l) := by
  have hget : Keeps Grows (get : StoreM Store) := fun s => Relation.ReflTransGen.refl
  exact hget.bind fun s => keeps_reverseOnto _ _ _

end BraceLang.Store

namespace BraceLang

theorem Closure.keeps_build (c : Closure) : Keeps Store.Grows c.build :=
  (Store.keeps_ofList _).map

theorem Environment.keeps_extend (env : Environment) (bindings : List (TextRef × Value)) :
    Keeps Store.Grows (env.extend bindings) :=
  (Store.keeps_ofList _).bind fun _ => (Store.keeps_push _ _).bind fun _ => Keeps.pure _

end BraceLang
