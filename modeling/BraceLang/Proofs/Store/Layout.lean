import Mathlib.Tactic
import BraceLang.Store.Chain
import BraceLang.Proofs.Effects

/-!
# The layout of the cells

The cells of a store lie one after the other in chunks of equal size. `Store.Layout` says so:
the chunks have room for all cells in use, each holds its share of them, and there are no
chunks of a size that cannot be had. In such a store the handles that can be read are
exactly those of the current generation whose index is below the number of cells in use.

Whether the next cell can be had depends on the limits of the store and on the number of cells
in use only, which is what `Store.refusal?` computes.

* `Store.Layout.alloc_eq`: an allocation is refused for that reason, and otherwise writes the
  next cell.
* `Store.Layout.written`, `Store.Layout.reset`: the layout is kept.
* `Store.layout_new`: a new store has it.
-/

namespace BraceLang.Store

/-- Why no cell is left of those that are allowed and have an index. -/
def limitReached? (maxCells : Option Nat) (used : Nat) : Option StoreError :=
  (maxCells.bind fun limit => if limit ≤ used then some (.exhausted limit) else none).or
    (indexFault? used)

@[simp] theorem indexFault?_eq_none_iff {taken : Nat} :
    indexFault? taken = none ↔ taken < indexCount := by
  simp [indexFault?]

theorem eq_of_indexFault? {taken : Nat} {e : StoreError} (h : indexFault? taken = some e) :
    e = .exhausted (indexCount - 1) ∧ indexCount ≤ taken := by
  unfold indexFault? at h
  split at h
  · rename_i hle
    cases h
    exact ⟨rfl, hle⟩
  · cases h

/-- A cell is left when there are fewer than are allowed and fewer than there are indices. -/
theorem limitReached?_eq_none_iff {maxCells : Option Nat} {used : Nat} :
    limitReached? maxCells used = none ↔
      (∀ limit, maxCells = some limit → used < limit) ∧ used < indexCount := by
  cases maxCells <;> simp [limitReached?]

/-- The reason is the limit that is reached, or the last index. -/
theorem exists_of_limitReached? {maxCells : Option Nat} {used : Nat} {e : StoreError}
    (h : limitReached? maxCells used = some e) : ∃ limit, e = .exhausted limit := by
  rcases Option.or_eq_some_iff.mp h with hlimit | ⟨-, hindex⟩
  · obtain ⟨limit, -, hlimit⟩ := Option.bind_eq_some_iff.mp hlimit
    split at hlimit
    · cases hlimit
      exact ⟨limit, rfl⟩
    · cases hlimit
  · exact ⟨_, (eq_of_indexFault? hindex).1⟩

/-- Why a store with these limits does not give another cell when that many are in use. -/
def refusal? (reserves : Nat → Bool) (maxCells : Option Nat) (chunkSize used : Nat) :
    Option StoreError :=
  (limitReached? maxCells used).or
    (if reserves chunkSize then none else some (.outOfMemory chunkSize))

section Refusals

variable {reserves : Nat → Bool} {maxCells : Option Nat} {chunkSize used : Nat}

theorem isExhaustion_of_refusal? {e : StoreError}
    (h : refusal? reserves maxCells chunkSize used = some e) : e.isExhaustion = true := by
  rcases Option.or_eq_some_iff.mp h with hlimit | ⟨-, hmemory⟩
  · obtain ⟨limit, rfl⟩ := exists_of_limitReached? hlimit
    rfl
  · split at hmemory
    · cases hmemory
    · cases hmemory
      rfl

/-- A cell is given when the limits leave one and its chunk can be had. -/
theorem refusal?_eq_none_iff :
    refusal? reserves maxCells chunkSize used = none ↔
      (∀ limit, maxCells = some limit → used < limit) ∧ used < indexCount ∧
        reserves chunkSize = true := by
  rw [refusal?, Option.or_eq_none_iff, limitReached?_eq_none_iff, and_assoc]
  by_cases hr : reserves chunkSize = true <;> simp [hr]

theorem reserves_of_refusal? (h : refusal? reserves maxCells chunkSize used = none) :
    reserves chunkSize = true := (refusal?_eq_none_iff.mp h).2.2

end Refusals

/-- Why the store does not give another cell when that many are in use. -/
abbrev refusalAt? (s : Store) : Nat → Option StoreError :=
  refusal? s.reserves s.maxCells s.chunkSize

/-- The cells in use fill the chunks from the front. -/
structure Layout (s : Store) : Prop where
  chunkSize_pos : 0 < s.chunkSize
  used_le : s.used ≤ s.chunks.size * s.chunkSize
  share : ∀ i chunk, s.chunks[i]? = some chunk →
    chunk.size = min s.chunkSize (s.used - i * s.chunkSize)
  reserves : 0 < s.chunks.size → s.reserves s.chunkSize = true

/-! ## Reading cells -/

theorem cell_eq_ok_iff {s : Store} {ref : CellRef} {c : Cell} :
    s.cell ref = .ok c ↔ ref.generation = s.generation ∧
      s.chunks[ref.index / s.chunkSize]?.bind (·[ref.index % s.chunkSize]?) = some c := by
  unfold cell
  split
  · rename_i hg
    cases h : s.chunks[ref.index / s.chunkSize]?.bind (·[ref.index % s.chunkSize]?) <;>
      simp [hg]
  · rename_i hg
    simp [hg]

theorem generation_of_cell {s : Store} {ref : CellRef} {c : Cell} (h : s.cell ref = .ok c) :
    ref.generation = s.generation := (cell_eq_ok_iff.mp h).1

namespace Layout

variable {s : Store}

/-- A handle that can be read belongs to a cell in use. -/
theorem index_lt (hs : s.Layout) {ref : CellRef} {c : Cell} (h : s.cell ref = .ok c) :
    ref.index < s.used := by
  obtain ⟨-, hc⟩ := cell_eq_ok_iff.mp h
  obtain ⟨chunk, hchunk, hcell⟩ := Option.bind_eq_some_iff.mp hc
  have hsize := hs.share _ _ hchunk
  have hlt := (Array.getElem?_eq_some_iff.mp hcell).1
  have hdiv := Nat.div_add_mod ref.index s.chunkSize
  rw [Nat.mul_comm] at hdiv
  omega

/-! ## Writing a cell -/

/-- A store has chunks that can be had, or no cells at all. -/
theorem used_eq_zero (hs : s.Layout) (h : ¬ s.reserves s.chunkSize) :
    s.chunks.size = 0 ∧ s.used = 0 := by
  have hsize : s.chunks.size = 0 := by
    by_contra hne
    exact h (hs.reserves (Nat.pos_of_ne_zero hne))
  have := hs.used_le
  rw [hsize, Nat.zero_mul] at this
  exact ⟨hsize, Nat.le_zero.mp this⟩

end Layout

/-- The chunks with a free place for the next cell. -/
def roomy (s : Store) : Array (Array Cell) :=
  if s.used / s.chunkSize = s.chunks.size then s.chunks.push #[] else s.chunks

/-- The store with one more cell. -/
def written (s : Store) (c : Cell) : Store :=
  { s with chunks := s.roomy.modify (s.used / s.chunkSize) (·.push c), used := s.used + 1 }

/-- The handle of the next cell. -/
def nextRef (s : Store) : CellRef := ⟨s.used, s.generation⟩

section Written

variable (s : Store) (c : Cell)

@[simp] theorem written_chunkSize : (s.written c).chunkSize = s.chunkSize := rfl
@[simp] theorem written_reserves : (s.written c).reserves = s.reserves := rfl
@[simp] theorem written_maxCells : (s.written c).maxCells = s.maxCells := rfl
@[simp] theorem written_used : (s.written c).used = s.used + 1 := rfl
@[simp] theorem written_generation : (s.written c).generation = s.generation := rfl
@[simp] theorem written_slots : (s.written c).slots = s.slots := rfl

/-- A chunk is added if the next cell falls behind the last one. -/
theorem size_chunks_written :
    (s.written c).chunks.size =
      if s.used / s.chunkSize = s.chunks.size then s.chunks.size + 1 else s.chunks.size := by
  unfold written roomy
  split <;> simp

end Written

/-- The old cells are where they were. -/
theorem cell_written_of_ok (s : Store) (c : Cell) {ref : CellRef} {old : Cell}
    (h : s.cell ref = .ok old) : (s.written c).cell ref = .ok old := by
  obtain ⟨hg, hc⟩ := cell_eq_ok_iff.mp h
  obtain ⟨chunk, hchunk, hcell⟩ := Option.bind_eq_some_iff.mp hc
  have hroomy : s.roomy[ref.index / s.chunkSize]? = some chunk := by
    unfold roomy
    split
    · have := (Array.getElem?_eq_some_iff.mp hchunk).1
      rw [Array.getElem?_push, if_neg (Nat.ne_of_lt this), hchunk]
    · exact hchunk
  have hpushed : (chunk.push c)[ref.index % s.chunkSize]? = some old := by
    have := (Array.getElem?_eq_some_iff.mp hcell).1
    rw [Array.getElem?_push, if_neg (Nat.ne_of_lt this), hcell]
  refine cell_eq_ok_iff.mpr ⟨hg, ?_⟩
  simp only [written, Array.getElem?_modify, hroomy]
  split <;> simp [hpushed, hcell]

theorem checkIndex_apply (taken : Nat) (s : Store) :
    checkIndex taken s =
      match indexFault? taken with
      | some e => .error e s
      | none => .ok () s := by
  unfold checkIndex
  cases indexFault? taken <;> rfl

theorem checkLimit_apply (s : Store) :
    checkLimit s =
      match limitReached? s.maxCells s.used with
      | some e => .error e s
      | none => .ok () s := by
  have hget : (get : StoreM Store) s = .ok s s := rfl
  unfold checkLimit limitReached?
  rw [bind_of_ok hget]
  cases s.maxCells with
  | none =>
    rw [Option.bind_none, Option.none_or]
    exact checkIndex_apply s.used s
  | some limit =>
    by_cases hle : limit ≤ s.used
    · simp only [Option.bind_some, if_pos hle]
      rfl
    · simp only [Option.bind_some, if_neg hle, Option.none_or]
      exact checkIndex_apply s.used s

theorem reserve_apply (s : Store) :
    reserve s =
      if s.used / s.chunkSize = s.chunks.size ∧ ¬ s.reserves s.chunkSize then
        .error (.outOfMemory s.chunkSize) s
      else .ok () { s with chunks := s.roomy } := by
  have hget : (get : StoreM Store) s = .ok s s := rfl
  unfold reserve roomy
  rw [bind_of_ok hget]
  by_cases hfull : s.used / s.chunkSize = s.chunks.size
  · cases s.reserves s.chunkSize
    · simp only [hfull]
      rfl
    · simp only [hfull]
      rfl
  · simp only [hfull, false_and, if_false]
    rfl

/-- An allocation is refused at the limit or for want of a chunk, and otherwise writes the next
cell. -/
theorem alloc_apply (s : Store) (value : Value) (next : ListRef) :
    alloc value next s =
      match limitReached? s.maxCells s.used with
      | some e => .error e s
      | none =>
        if s.used / s.chunkSize = s.chunks.size ∧ ¬ s.reserves s.chunkSize then
          .error (.outOfMemory s.chunkSize) s
        else .ok s.nextRef (s.written ⟨value, next⟩) := by
  unfold alloc
  simp only [bind, EStateM.bind, checkLimit_apply]
  cases limitReached? s.maxCells s.used with
  | some e => rfl
  | none =>
    by_cases hr : s.used / s.chunkSize = s.chunks.size ∧ ¬ s.reserves s.chunkSize
    · simp only [reserve_apply, if_pos hr]
    · simp only [reserve_apply, if_neg hr]
      rfl

/-- A refused allocation leaves the store as it was. -/
theorem eq_of_alloc_error {s s' : Store} {value : Value} {next : ListRef} {e : StoreError}
    (h : alloc value next s = .error e s') : s' = s := by
  rw [alloc_apply] at h
  split at h
  · cases h; rfl
  · split at h
    · cases h; rfl
    · cases h

namespace Layout

variable {s : Store}

/-- In a well laid out store, the limits alone decide on an allocation. -/
theorem alloc_eq (hs : s.Layout) (value : Value) (next : ListRef) :
    alloc value next s =
      match s.refusalAt? s.used with
      | some e => .error e s
      | none => .ok s.nextRef (s.written ⟨value, next⟩) := by
  rw [alloc_apply]
  unfold refusalAt? refusal?
  cases limitReached? s.maxCells s.used with
  | some e => rfl
  | none =>
    by_cases hr : s.reserves s.chunkSize
    · simp [hr]
    · obtain ⟨hchunks, hused⟩ := hs.used_eq_zero hr
      simp [hr, hchunks, hused]

/-- Room for another cell is a chunk that has one, or a chunk that memory can hold. -/
theorem used_lt_roomy (hs : s.Layout) : s.used / s.chunkSize < s.roomy.size := by
  have hle : s.used / s.chunkSize ≤ s.chunks.size := by
    have := Nat.div_le_div_right (c := s.chunkSize) hs.used_le
    rwa [Nat.mul_div_cancel _ hs.chunkSize_pos] at this
  unfold roomy
  split
  · rename_i h
    simp [h]
  · rename_i h
    exact Nat.lt_of_le_of_ne hle h

/-- Every chunk holds its share, the one that was added included. -/
theorem share_roomy (hs : s.Layout) {i : Nat} {chunk : Array Cell}
    (h : s.roomy[i]? = some chunk) :
    chunk.size = min s.chunkSize (s.used - i * s.chunkSize) := by
  unfold roomy at h
  split at h
  · rename_i hfull
    rw [Array.getElem?_push] at h
    split at h
    · rename_i hi
      cases h
      have hdiv := Nat.div_add_mod s.used s.chunkSize
      have hused := hs.used_le
      rw [hfull, Nat.mul_comm] at hdiv
      subst hi
      simp only [List.size_toArray, List.length_nil]
      omega
    · exact hs.share i chunk h
  · exact hs.share i chunk h

/-- The new cell is behind the handle that was given out for it. -/
theorem cell_written_nextRef (hs : s.Layout) (c : Cell) :
    (s.written c).cell s.nextRef = .ok c := by
  have hlt := hs.used_lt_roomy
  have hroomy := Array.getElem?_eq_getElem hlt
  have hsize := hs.share_roomy hroomy
  have hdiv := Nat.div_add_mod s.used s.chunkSize
  have hmod := Nat.mod_lt s.used hs.chunkSize_pos
  rw [Nat.mul_comm] at hdiv
  have hlast : s.used % s.chunkSize = (s.roomy[s.used / s.chunkSize]).size := by omega
  refine cell_eq_ok_iff.mpr ⟨rfl, ?_⟩
  simp [written, nextRef, Array.getElem?_modify, hroomy, hlast]

theorem written (hs : s.Layout) (c : Cell) (hr : s.reserves s.chunkSize = true) :
    (s.written c).Layout where
  chunkSize_pos := hs.chunkSize_pos
  used_le := by
    have hlt := hs.used_lt_roomy
    have hdiv := Nat.div_add_mod s.used s.chunkSize
    have hmod := Nat.mod_lt s.used hs.chunkSize_pos
    have hmul := Nat.mul_le_mul_right s.chunkSize hlt
    rw [Nat.mul_comm] at hdiv
    rw [Nat.succ_mul] at hmul
    simp only [Store.written, Array.size_modify]
    omega
  share := by
    intro i chunk h
    simp only [Store.written, Array.getElem?_modify] at h ⊢
    obtain ⟨old, hold, hnew⟩ : ∃ old, s.roomy[i]? = some old ∧
        chunk.size = old.size + if s.used / s.chunkSize = i then 1 else 0 := by
      split at h
      · rename_i hi
        obtain ⟨old, hold, rfl⟩ := Option.map_eq_some_iff.mp h
        exact ⟨old, hold, by simp [hi]⟩
      · rename_i hi
        exact ⟨chunk, h, by simp [hi]⟩
    have hsize := hs.share_roomy hold
    have hdiv := Nat.div_add_mod s.used s.chunkSize
    have hmod := Nat.mod_lt s.used hs.chunkSize_pos
    rw [Nat.mul_comm] at hdiv
    split at hnew
    · rename_i hi
      subst hi
      omega
    · rename_i hi
      rcases Nat.lt_or_gt_of_ne hi with hlt | hgt
      · have := Nat.mul_le_mul_right s.chunkSize hlt
        rw [Nat.succ_mul] at this
        omega
      · have := Nat.mul_le_mul_right s.chunkSize hgt
        rw [Nat.succ_mul] at this
        omega
  reserves := fun _ => hr

theorem reset (hs : s.Layout) : s.reset.Layout where
  chunkSize_pos := hs.chunkSize_pos
  used_le := Nat.zero_le _
  share := by
    intro i chunk h
    simp only [Store.reset, Array.getElem?_map, Option.map_eq_some_iff] at h
    obtain ⟨old, -, rfl⟩ := h
    simp [Store.reset]
  reserves := by
    intro h
    exact hs.reserves (by simpa [Store.reset] using h)

end Layout

theorem layout_new (chunkSize : Nat) (maxCells : Option Nat) (reserves : Nat → Bool) :
    (new chunkSize maxCells reserves).Layout where
  chunkSize_pos := by simp [new]
  used_le := Nat.zero_le _
  share := by simp [new]
  reserves := by simp [new]

end BraceLang.Store
