import Mathlib.Data.List.Perm.Subperm
import BraceLang.Proofs.Store.Growth

/-!
# Finite lists in the store

`Store.Chain s l values` says that the list `l` runs through cells that can be read, holds the
values in this order and ends. Such a list has no cell twice, so in a well laid out store it is
never longer than the number of cells in use. That is less than the bound on the steps of a
reading, hence every reading of a finite list is complete.

* `Store.Chain.items_eq`: the items of a finite list are its values.
* `Store.Chain.mono`: a finite list stays the same while the store grows.
* `Store.Reads`: the part of a list in front of one of its tails.
* `Store.chain_of_ofList`: a list that was stored holds the values that were given.
-/

namespace BraceLang.Store

/-- A list runs through readable cells and ends behind the last value. -/
inductive Chain (s : Store) : ListRef → List Value → Prop
  | nil : Chain s .empty []
  | cons {first : CellRef} {value : Value} {rest : ListRef} {values : List Value} :
    s.cell first = .ok ⟨value, rest⟩ → Chain s rest values →
      Chain s (.chain first) (value :: values)

theorem split_of_cell {s : Store} {first : CellRef} {value : Value} {rest : ListRef}
    (h : s.cell first = .ok ⟨value, rest⟩) : s.split (.chain first) = .ok (some (value, rest)) := by
  simp [split, h, Except.map]

namespace Chain

variable {s s' : Store} {l : ListRef} {values : List Value}

theorem empty_iff : s.Chain .empty values ↔ values = [] := by
  constructor
  · intro h
    cases h
    rfl
  · rintro rfl
    exact .nil

theorem nil_iff : s.Chain l [] ↔ l = .empty := by
  constructor
  · intro h
    cases h
    rfl
  · rintro rfl
    exact .nil

theorem split_nil (h : s.Chain l []) : s.split l = .ok none := by
  rw [nil_iff.mp h]
  rfl

theorem split_cons {value : Value} (h : s.Chain l (value :: values)) :
    ∃ rest, s.split l = .ok (some (value, rest)) ∧ s.Chain rest values := by
  cases h with
  | cons hcell hrest => exact ⟨_, split_of_cell hcell, hrest⟩

theorem mono (h : s.Chain l values) (hext : s.Extends s') : s'.Chain l values := by
  induction h with
  | nil => exact .nil
  | cons hcell _ ih => exact .cons (hext.cell hcell) ih

theorem unique {values' : List Value} (h : s.Chain l values) (h' : s.Chain l values') :
    values = values' := by
  induction h generalizing values' with
  | nil => exact (empty_iff.mp h').symm
  | cons hcell _ ih =>
    cases h' with
    | cons hcell' hrest' =>
      rw [hcell] at hcell'
      cases hcell'
      rw [ih hrest']

/-- The cells of a finite list are distinct: from each of them on the list is shorter than from
the one before. -/
theorem exists_indices (hs : s.Layout) (h : s.Chain l values) :
    ∃ indices : List Nat, indices.length = values.length ∧ indices.Nodup ∧
      ∀ i ∈ indices, i < s.used ∧
        ∃ rest, s.Chain (.chain ⟨i, s.generation⟩) rest ∧ rest.length ≤ values.length := by
  induction h with
  | nil => exact ⟨[], rfl, List.nodup_nil, by simp⟩
  | @cons first value rest values hcell hrest ih =>
    obtain ⟨indices, hlength, hnodup, hmem⟩ := ih
    have hfirst : first = ⟨first.index, s.generation⟩ := by
      rw [← generation_of_cell hcell]
    refine ⟨first.index :: indices, by simp [hlength], ?_, ?_⟩
    · refine List.nodup_cons.mpr ⟨?_, hnodup⟩
      intro hin
      obtain ⟨-, found, hfound, hle⟩ := hmem _ hin
      rw [← hfirst] at hfound
      have := congrArg List.length (hfound.unique (.cons hcell hrest))
      simp only [List.length_cons] at this
      omega
    · intro i hi
      rcases List.mem_cons.mp hi with rfl | hi
      · refine ⟨hs.index_lt hcell, value :: values, ?_, Nat.le_refl _⟩
        rw [← hfirst]
        exact .cons hcell hrest
      · obtain ⟨hlt, found, hfound, hle⟩ := hmem i hi
        exact ⟨hlt, found, hfound, Nat.le_succ_of_le hle⟩

theorem length_le (hs : s.Layout) (h : s.Chain l values) : values.length ≤ s.used := by
  obtain ⟨indices, hlength, hnodup, hmem⟩ := h.exists_indices hs
  have hsub : indices ⊆ List.range s.used := fun i hi => List.mem_range.mpr (hmem i hi).1
  have := (List.subperm_of_subset hnodup hsub).length_le
  rw [List.length_range] at this
  omega

theorem length_le_maxSteps (hs : s.Layout) (h : s.Chain l values) :
    values.length ≤ s.maxSteps := by
  have := h.length_le hs
  unfold maxSteps
  nlinarith

theorem itemsWithin_eq (h : s.Chain l values) {steps : Nat} (hsteps : values.length ≤ steps) :
    s.itemsWithin steps l = values.map .ok := by
  induction h generalizing steps with
  | nil => cases steps <;> rfl
  | @cons first value rest values hcell hrest ih =>
    cases steps with
    | zero => simp at hsteps
    | succ steps =>
      simp only [itemsWithin, split_of_cell hcell, List.map_cons]
      rw [ih (Nat.le_of_succ_le_succ hsteps)]

theorem items_eq (hs : s.Layout) (h : s.Chain l values) : s.items l = values.map .ok :=
  h.itemsWithin_eq (h.length_le_maxSteps hs)

theorem toList_eq (hs : s.Layout) (h : s.Chain l values) : s.toList l = .ok values :=
  toList_eq_ok.mpr (h.items_eq hs)

theorem head?_eq (h : s.Chain l values) : s.head? l = .ok values.head? := by
  cases values with
  | nil => simp [head?, h.split_nil, Except.map]
  | cons value values =>
    obtain ⟨rest, hsplit, -⟩ := h.split_cons
    simp [head?, hsplit, Except.map]

theorem tail_eq (h : s.Chain l values) :
    ∃ rest, s.tail l = .ok rest ∧ s.Chain rest values.tail := by
  cases values with
  | nil =>
    refine ⟨.empty, by simp [tail, h.split_nil, Except.map], .nil⟩
  | cons value values =>
    obtain ⟨rest, hsplit, hrest⟩ := h.split_cons
    exact ⟨rest, by simp [tail, hsplit, Except.map], hrest⟩

end Chain

/-! ## Parts of a list -/

/-- Reading these values from the front of one list leads to the other one. -/
inductive Reads (s : Store) : ListRef → List Value → ListRef → Prop
  | nil {l : ListRef} : Reads s l [] l
  | cons {first : CellRef} {value : Value} {rest l : ListRef} {values : List Value} :
    s.cell first = .ok ⟨value, rest⟩ → Reads s rest values l →
      Reads s (.chain first) (value :: values) l

namespace Reads

variable {s s' : Store} {l l' l'' : ListRef} {values values' : List Value}

theorem append (h : s.Reads l values l') (h' : s.Reads l' values' l'') :
    s.Reads l (values ++ values') l'' := by
  induction h with
  | nil => exact h'
  | cons hcell _ ih => exact .cons hcell (ih h')

theorem split_of_chain (h : s.Reads l values l') {all : List Value} (hc : s.Chain l all) :
    ∃ rest, all = values ++ rest ∧ s.Chain l' rest := by
  induction h generalizing all with
  | nil => exact ⟨all, rfl, hc⟩
  | cons hcell _ ih =>
    cases hc with
    | cons hcell' hrest =>
      rw [hcell] at hcell'
      cases hcell'
      obtain ⟨rest, rfl, htail⟩ := ih hrest
      exact ⟨rest, rfl, htail⟩

theorem chain_append {rest : List Value} (h : s.Reads l values l')
    (hc : s.Chain l (values ++ rest)) : s.Chain l' rest := by
  obtain ⟨rest', hsplit, htail⟩ := h.split_of_chain hc
  rw [List.append_cancel_left hsplit]
  exact htail

theorem chain_of_cons {value : Value} (h : s.Reads l [value] l')
    (hc : s.Chain l (value :: values)) : s.Chain l' values :=
  h.chain_append hc

/-- What is read of a finite list in a larger store was there to be read before. -/
theorem of_extends (h : s'.Reads l values l') (hext : s.Extends s') {all : List Value}
    (hc : s.Chain l all) : s.Reads l values l' := by
  induction h generalizing all with
  | nil => exact .nil
  | cons hcell _ ih =>
    cases hc with
    | cons hcell' hrest =>
      have := hext.cell hcell'
      rw [hcell] at this
      cases this
      exact .cons hcell' (ih hrest)

theorem target_unique (h : s.Reads l values l') (h' : s.Reads l values l'') : l' = l'' := by
  induction h with
  | nil =>
    cases h'
    rfl
  | cons hcell _ ih =>
    cases h' with
    | cons hcell' hrest' =>
      rw [hcell] at hcell'
      cases hcell'
      exact ih hrest'

end Reads

theorem Chain.exists_reads {s : Store} {l : ListRef} {values rest : List Value}
    (h : s.Chain l (values ++ rest)) : ∃ l', s.Reads l values l' ∧ s.Chain l' rest := by
  induction values generalizing l with
  | nil => exact ⟨l, .nil, h⟩
  | cons value values ih =>
    cases h with
    | cons hcell hrest =>
      obtain ⟨l', hreads, hchain⟩ := ih hrest
      exact ⟨l', .cons hcell hreads, hchain⟩

/-! ## Lists that were stored -/

theorem push_eq {s : Store} (hs : s.Layout) (l : ListRef) (value : Value) :
    push l value s =
      match s.refusalAt? s.used with
      | some e => .error e s
      | none => .ok (.chain s.nextRef) (s.written ⟨value, l⟩) := by
  simp only [push, Functor.map, EStateM.map, hs.alloc_eq]
  cases s.refusalAt? s.used <;> rfl

theorem chain_written {s : Store} (hs : s.Layout) {l : ListRef} {values : List Value}
    (h : s.Chain l values) (value : Value) :
    (s.written ⟨value, l⟩).Chain (.chain s.nextRef) (value :: values) :=
  .cons (hs.cell_written_nextRef _) (h.mono (extends_written _ _))

theorem chain_of_push {s s' : Store} (hs : s.Layout) {l l' : ListRef} {values : List Value}
    {value : Value} (h : s.Chain l values) (hpush : push l value s = .ok l' s') :
    s'.Chain l' (value :: values) := by
  rw [push_eq hs] at hpush
  split at hpush
  · cases hpush
  · cases hpush
    exact chain_written hs h value

theorem ofList_cons (value : Value) (values : List Value) :
    ofList (value :: values) = ofList values >>= fun l => push l value := by
  simp only [ofList, List.foldrM_cons]

theorem layout_of_ofList {s s' : Store} (hs : s.Layout) {l : ListRef} {values : List Value}
    (h : ofList values s = .ok l s') : s'.Layout :=
  hs.of_grows ((keeps_ofList values).of_ok h)

theorem chain_of_ofList {s s' : Store} (hs : s.Layout) {l : ListRef} {values : List Value}
    (h : ofList values s = .ok l s') : s'.Chain l values := by
  induction values generalizing l s' with
  | nil =>
    cases h
    exact .nil
  | cons value values ih =>
    rw [ofList_cons, bind_eq_ok_iff] at h
    obtain ⟨rest, t, hrest, hpush⟩ := h
    exact chain_of_push (layout_of_ofList hs hrest) (ih hrest) hpush

end BraceLang.Store
