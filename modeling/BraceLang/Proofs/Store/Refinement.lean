import BraceLang.Proofs.Store.Flat

/-!
# The store of chunks is a flat store

Chunks outlive a reset, and a chunk is added only when the next cell falls behind the last one. None
of this can be noticed from outside: after any operations with lists that the store has issued, it
answers as the flat store does. Its links lead to smaller indices, so every list ends.

* `Store.Refines`: the relation between the two stores.
* `Refines.agrees_perform`: every operation keeps it and gives the same answer.
* `Store.replay_refines`: the same for all sequences of operations, with what follows for readings,
  lists and the number of chunks.
-/

namespace BraceLang

/-! ## Lists that end -/

/-- The list is empty or starts in an earlier generation. -/
def ListRef.Over (generation : Nat) : ListRef → Prop
  | .empty => True
  | .chain first => first.generation < generation

/-- What is still read of a list that is over. -/
def ListRef.leftover : ListRef → List (Except StoreError Value)
  | .empty => []
  | .chain first => [.error (.staleCell first.index)]

namespace Store

variable {s s' : Store} {l last : ListRef} {values : List Value}

theorem Reads.mono (h : s.Reads l values last) (hext : s.Extends s') : s'.Reads l values last := by
  induction h with
  | nil => exact .nil
  | cons hcell _ ih => exact .cons (hext.cell hcell) ih

theorem split_of_over (h : last.Over s.generation) :
    (last = .empty ∧ s.split last = .ok none) ∨
      ∃ first, last = .chain first ∧ s.split last = .error (.staleCell first.index) := by
  cases last with
  | empty => exact Or.inl ⟨rfl, rfl⟩
  | chain first =>
    have hne : first.generation ≠ s.generation := Nat.ne_of_lt h
    exact Or.inr ⟨first, rfl, by simp [split, cell_eq_error_of_generation hne, Except.map]⟩

theorem itemsWithin_of_reads (h : s.Reads l values last) (hover : last.Over s.generation)
    {steps : Nat} (hsteps : values.length < steps) :
    s.itemsWithin steps l = values.map .ok ++ last.leftover := by
  induction h generalizing steps with
  | @nil l =>
    obtain ⟨steps, rfl⟩ : ∃ k, steps = k + 1 := ⟨steps - 1, by omega⟩
    rcases split_of_over hover with ⟨rfl, hsplit⟩ | ⟨first, rfl, hsplit⟩
    · simp only [itemsWithin, hsplit]
      rfl
    · simp only [itemsWithin, hsplit]
      rfl
  | @cons first value rest l values hcell _ ih =>
    simp only [List.length_cons] at hsteps
    obtain ⟨steps, rfl⟩ : ∃ k, steps = k + 1 := ⟨steps - 1, by omega⟩
    simp only [itemsWithin, split_of_cell hcell, List.map_cons, List.cons_append]
    rw [ih hover (by omega)]

theorem used_lt_maxSteps (s : Store) : s.used < s.maxSteps := by
  unfold maxSteps
  nlinarith

theorem chain_of_reads (h : s.Reads l values .empty) : s.Chain l values := by
  generalize hl : ListRef.empty = last at h
  induction h with
  | nil =>
    subst hl
    exact .nil
  | cons hcell _ ih => exact .cons hcell (ih hl)

theorem reverseOnto_of_end (h : s.split l = .ok none) (steps : Nat) (onto : ListRef) :
    reverseOnto (steps + 1) onto l s = .ok onto s := by
  have hread : read (·.split l) s = .ok none s := by simp only [read, h]
  unfold reverseOnto
  rw [bind_of_ok hread]
  rfl

theorem reverseOnto_of_error {e : StoreError} (h : s.split l = .error e) (steps : Nat)
    (onto : ListRef) : reverseOnto (steps + 1) onto l s = .error e s := by
  have hread : read (·.split l) s = .error e s := by simp only [read, h]
  unfold reverseOnto
  rw [bind_of_error hread]

theorem reverseOnto_of_cell {first : CellRef} {value : Value} {rest : ListRef}
    (h : s.cell first = .ok ⟨value, rest⟩) (steps : Nat) (onto : ListRef) :
    reverseOnto (steps + 1) onto (.chain first) s =
      (push onto value >>= fun onto => reverseOnto steps onto rest) s := by
  have hread : read (·.split (.chain first)) s = .ok (some (value, rest)) s := by
    simp only [read, split_of_cell h]
  conv_lhs => unfold reverseOnto
  rw [bind_of_ok hread]

/-- A list that was reversed has come to its end, and the new one has its values in reverse order in
front of those that were there. -/
theorem chain_of_reverseOnto (hs : s.Layout) {onto l' : ListRef} {found : List Value} {steps : Nat}
    (h : s.Reads l values last) (hover : last.Over s.generation) (honto : s.Chain onto found)
    (hsteps : values.length < steps) (hrun : reverseOnto steps onto l s = .ok l' s') :
    last = .empty ∧ s'.Chain l' (values.reverse ++ found) := by
  induction values generalizing s l onto found steps with
  | nil =>
    cases h
    obtain ⟨steps, rfl⟩ : ∃ k, steps = k + 1 := ⟨steps - 1, by omega⟩
    rcases split_of_over hover with ⟨rfl, hsplit⟩ | ⟨first, rfl, hsplit⟩
    · rw [reverseOnto_of_end hsplit] at hrun
      cases hrun
      exact ⟨rfl, honto⟩
    · rw [reverseOnto_of_error hsplit] at hrun
      cases hrun
  | cons value values ih =>
    cases h with
    | @cons first _ rest _ _ hcell hreads =>
      simp only [List.length_cons] at hsteps
      obtain ⟨steps, rfl⟩ : ∃ k, steps = k + 1 := ⟨steps - 1, by omega⟩
      rw [reverseOnto_of_cell hcell] at hrun
      obtain ⟨onto', t, hpush, hrest⟩ := bind_eq_ok_iff.mp hrun
      have hgrows := (keeps_push onto value).of_ok hpush
      have hext := extends_of_grows hgrows
      have hover' : last.Over t.generation := by rwa [hext.generation]
      obtain ⟨hlast, hchain⟩ := ih (hs.of_grows hgrows) (hreads.mono hext) hover'
        (chain_of_push hs honto hpush) (by omega) hrest
      refine ⟨hlast, ?_⟩
      simpa using hchain

end Store

/-! ## The relation -/

/-- Every link of a cell leads to an earlier generation or to a smaller index. -/
def FlatStore.Linked (f : FlatStore) : Prop :=
  ∀ (i : Nat) (c : Cell), f.cells[i]? = some c → c.next.Below f.generation i

/-- The number of parts of a size that a number of things fills. -/
def partsFor (size n : Nat) : Nat := (n + size - 1) / size

/-- The store of chunks has the same cells and slots as the flat store, and as many chunks as it
has needed at most. -/
structure Store.Refines (s : Store) (f : FlatStore) : Prop where
  layout : s.Layout
  chunkSize : s.chunkSize = f.chunkSize
  reserves : s.reserves = f.reserves
  maxCells : s.maxCells = f.maxCells
  generation : s.generation = f.generation
  used : s.used = f.cells.size
  slots : s.slots = f.slots
  cells : ∀ i c, f.cells[i]? = some c → s.cell ⟨i, s.generation⟩ = .ok c
  chunks : s.chunks.size = partsFor f.chunkSize f.peak
  linked : f.Linked

theorem FlatStore.size_le_peak (f : FlatStore) : f.cells.size ≤ f.peak := Nat.le_max_left _ _

/-- One more thing needs another part exactly if it falls behind the last one. -/
theorem partsFor_succ {size used peak : Nat} (hsize : 0 < size) (hused : used ≤ peak) :
    partsFor size (max (used + 1) peak) =
      if used / size = partsFor size peak then partsFor size peak + 1 else partsFor size peak := by
  unfold partsFor
  have hceil : (peak + size - 1) / size ≤ peak / size + 1 := by
    rw [← Nat.add_div_right peak hsize]
    exact Nat.div_le_div_right (by omega)
  have hfloor : peak / size ≤ (peak + size - 1) / size := Nat.div_le_div_right (by omega)
  have hbelow : used / size ≤ peak / size := Nat.div_le_div_right hused
  have hnext : (peak + 1 + size - 1) / size = peak / size + 1 := by
    rw [show peak + 1 + size - 1 = peak + size by omega, Nat.add_div_right peak hsize]
  by_cases hmost : used = peak
  · subst hmost
    rw [Nat.max_eq_left (Nat.le_succ _), hnext]
    split <;> omega
  · rw [Nat.max_eq_right (by omega)]
    have hne : used / size ≠ (peak + size - 1) / size := by
      intro heq
      have hlt : used < peak := by omega
      have hdiv := Nat.div_add_mod (peak + size - 1) size
      have hmod := Nat.mod_lt (peak + size - 1) hsize
      have hle := Nat.mul_div_le used size
      rw [heq] at hle
      omega
    rw [if_neg hne]

theorem partsFor_mono (size : Nat) {n n' : Nat} (h : n ≤ n') :
    partsFor size n ≤ partsFor size n' :=
  Nat.div_le_div_right (by omega)

/-- A store has no more chunks than it had or than its cells need. -/
theorem Store.size_chunks_written_le {s : Store} (hs : s.Layout) (c : Cell) :
    (s.written c).chunks.size ≤ max s.chunks.size (partsFor s.chunkSize (s.used + 1)) := by
  have hparts : partsFor s.chunkSize (s.used + 1) = s.used / s.chunkSize + 1 := by
    unfold partsFor
    rw [show s.used + 1 + s.chunkSize - 1 = s.used + s.chunkSize by omega,
      Nat.add_div_right _ hs.chunkSize_pos]
  rw [size_chunks_written, hparts]
  split <;> omega

namespace Store.Refines

variable {s : Store} {f : FlatStore}

theorem new (chunkSize : Nat) (maxCells : Option Nat) (reserves : Nat → Bool) :
    (Store.new chunkSize maxCells reserves).Refines
      (FlatStore.new chunkSize maxCells reserves) where
  layout := layout_new chunkSize maxCells reserves
  chunkSize := rfl
  reserves := rfl
  maxCells := rfl
  generation := rfl
  used := rfl
  slots := rfl
  cells := by simp [FlatStore.new]
  chunks := by
    have hpos : 0 < max chunkSize 1 := Nat.lt_of_lt_of_le Nat.zero_lt_one (Nat.le_max_right _ _)
    exact (Nat.div_eq_of_lt (show 0 + max chunkSize 1 - 1 < max chunkSize 1 by omega)).symm
  linked := by
    intro i c hc
    simp [FlatStore.new] at hc

/-! ## Readings -/

section Readings

variable (h : s.Refines f)
include h

theorem cell_eq (ref : CellRef) : s.cell ref = f.cell ref := by
  unfold FlatStore.cell
  by_cases hgeneration : ref.generation = f.generation
  · rw [if_pos hgeneration]
    have href : ref = ⟨ref.index, s.generation⟩ := by rw [h.generation, ← hgeneration]
    cases hget : f.cells[ref.index]? with
    | some c =>
      rw [href]
      exact h.cells ref.index c hget
    | none =>
      cases hcell : s.cell ref with
      | ok c =>
        have hlt := h.layout.index_lt hcell
        have hle := Array.getElem?_eq_none_iff.mp hget
        have hused := h.used
        omega
      | error e =>
        unfold Store.cell at hcell
        rw [if_pos (hgeneration.trans h.generation.symm)] at hcell
        split at hcell
        · cases hcell
        · cases hcell
          rfl
  · rw [if_neg hgeneration]
    exact cell_eq_error_of_generation fun heq => hgeneration (heq.trans h.generation)

theorem slot_eq (ref : SlotRef) : s.slot ref = f.slot ref := by
  cases hget : f.slots[ref.index]? with
  | none => simp only [Store.slot, FlatStore.slot, h.generation, h.slots, hget]
  | some slot => simp only [Store.slot, FlatStore.slot, h.generation, h.slots, hget]

theorem split_eq (l : ListRef) : s.split l = f.split l := by
  cases l with
  | empty => rfl
  | chain first =>
    simp only [Store.split, FlatStore.split, h.cell_eq]

theorem itemsWithin_eq (steps : Nat) (l : ListRef) :
    s.itemsWithin steps l = f.itemsWithin steps l := by
  induction steps generalizing l with
  | zero => rfl
  | succ steps ih =>
    simp only [Store.itemsWithin, FlatStore.itemsWithin, h.split_eq]
    cases f.split l with
    | error e => rfl
    | ok parts =>
      cases parts with
      | none => rfl
      | some parts => simp only [ih]

/-- A list that starts below an index has fewer values than that, and then it ends or goes on in an
earlier generation. -/
theorem exists_reads_of_below {n : Nat} (hn : n ≤ f.cells.size) {l : ListRef}
    (hl : l.Below f.generation n) :
    ∃ values last, s.Reads l values last ∧ values.length ≤ n ∧ last.Over s.generation := by
  induction n using Nat.strongRecOn generalizing l with
  | ind n ih =>
    cases l with
    | empty => exact ⟨[], .empty, .nil, Nat.zero_le _, trivial⟩
    | chain first =>
      rcases hl with hold | ⟨hsame, hlt⟩
      · refine ⟨[], .chain first, .nil, Nat.zero_le _, ?_⟩
        rw [h.generation]
        exact hold
      · have hused : first.index < f.cells.size := by omega
        obtain ⟨c, hget⟩ : ∃ c, f.cells[first.index]? = some c :=
          ⟨_, Array.getElem?_eq_getElem hused⟩
        have hlink := h.linked _ _ hget
        obtain ⟨values, last, hreads, hlength, hover⟩ :=
          ih first.index hlt (by omega) hlink
        have hcell := h.cells _ _ hget
        rw [h.generation, ← hsame] at hcell
        refine ⟨c.value :: values, last, .cons hcell hreads, ?_, hover⟩
        simp only [List.length_cons]
        omega

theorem exists_reads {l : ListRef} (hl : f.Issued l) :
    ∃ values last, s.Reads l values last ∧ values.length ≤ s.used ∧ last.Over s.generation := by
  rw [h.used]
  exact h.exists_reads_of_below (Nat.le_refl _) hl

theorem items_eq {l : ListRef} (hl : f.Issued l) : s.items l = f.items l := by
  obtain ⟨values, last, hreads, hlength, hover⟩ := h.exists_reads hl
  have hmost := s.used_lt_maxSteps
  have hused := h.used
  unfold Store.items FlatStore.items
  rw [← h.itemsWithin_eq, itemsWithin_of_reads hreads hover (by omega),
    itemsWithin_of_reads hreads hover (by omega)]

theorem toList_eq {l : ListRef} (hl : f.Issued l) : s.toList l = f.toList l := by
  unfold Store.toList FlatStore.toList
  rw [h.items_eq hl]

end Readings

end Store.Refines

/-! ## Operations -/

/-- The outcomes are the same, and so are the stores behind them. A result has the property. -/
inductive Store.AnswersAs {α : Type} (post : α → FlatStore → Prop) :
    EStateM.Result StoreError Store α → EStateM.Result StoreError FlatStore α → Prop
  | ok {a : α} {s : Store} {f : FlatStore} : s.Refines f → post a f →
    AnswersAs post (.ok a s) (.ok a f)
  | error {e : StoreError} {s : Store} {f : FlatStore} : s.Refines f →
    AnswersAs post (.error e s) (.error e f)

namespace Store.AnswersAs

variable {α β : Type} {post : α → FlatStore → Prop} {post' : β → FlatStore → Prop} {s : Store}
  {f : FlatStore} {m : StoreM α} {m' : FlatM α}

theorem bind {k : α → StoreM β} {k' : α → FlatM β} (h : AnswersAs post (m s) (m' f))
    (hk : ∀ a s f, s.Refines f → post a f → AnswersAs post' (k a s) (k' a f)) :
    AnswersAs post' ((m >>= k) s) ((m' >>= k') f) := by
  generalize hm : m s = result at h
  generalize hm' : m' f = result' at h
  cases h with
  | ok hrefines ha =>
    rw [bind_of_ok hm, bind_of_ok hm']
    exact hk _ _ _ hrefines ha
  | error hrefines =>
    rw [bind_of_error hm, bind_of_error hm']
    exact .error hrefines

theorem map {g : α → β} (h : AnswersAs post (m s) (m' f)) (hg : ∀ a f, post a f → post' (g a) f) :
    AnswersAs post' ((g <$> m) s) ((g <$> m') f) := by
  rw [← bind_pure_comp, ← bind_pure_comp]
  exact h.bind fun a _ f hrefines ha => .ok hrefines (hg a f ha)

end Store.AnswersAs

/-- Nothing is said of the result. -/
abbrev Always {α : Type} : α → FlatStore → Prop := fun _ _ => True

/-- The list has been given out. -/
abbrev GivesOut (l : ListRef) (f : FlatStore) : Prop := f.Issued l

namespace Store.Refines

variable {s : Store} {f : FlatStore} (h : s.Refines f)
include h

theorem written {c : Cell} (hnext : f.Issued c.next) (hr : s.reserves s.chunkSize = true) :
    (s.written c).Refines { f with cells := f.cells.push c } where
  layout := h.layout.written c hr
  chunkSize := h.chunkSize
  reserves := h.reserves
  maxCells := h.maxCells
  generation := h.generation
  used := by simp [h.used]
  slots := h.slots
  cells := by
    intro i found hfound
    rw [Array.getElem?_push] at hfound
    split at hfound
    · rename_i hi
      cases hfound
      have hlast := h.layout.cell_written_nextRef c
      rw [nextRef, h.used, ← hi] at hlast
      exact hlast
    · exact cell_written_of_ok s c (h.cells i found hfound)
  chunks := by
    have hpeak : FlatStore.peak { f with cells := f.cells.push c } =
        max (f.cells.size + 1) f.peak := by
      simp only [FlatStore.peak, List.foldr_cons, Array.size_push]
      omega
    have hpos : 0 < f.chunkSize := h.chunkSize ▸ h.layout.chunkSize_pos
    rw [size_chunks_written, hpeak, partsFor_succ hpos f.size_le_peak, h.chunks, h.used,
      h.chunkSize]
  linked := by
    intro i found hfound
    rw [Array.getElem?_push] at hfound
    split at hfound
    · rename_i hi
      cases hfound
      rw [hi]
      exact hnext
    · exact h.linked i found hfound

theorem answers_alloc (value : Value) {next : ListRef} (hnext : f.Issued next) :
    AnswersAs (fun ref f => GivesOut (.chain ref) f) (Store.alloc value next s)
      (FlatStore.alloc value next f) := by
  rw [h.layout.alloc_eq]
  unfold FlatStore.alloc
  simp only [refusalAt?, h.reserves, h.maxCells, h.chunkSize, h.used]
  cases hrefusal : refusal? f.reserves f.maxCells f.chunkSize f.cells.size with
  | some e => exact .error h
  | none =>
    have hr : s.reserves s.chunkSize = true := by
      rw [h.reserves, h.chunkSize]
      exact reserves_of_refusal? hrefusal
    simp only [nextRef, h.used, h.generation]
    refine .ok (h.written hnext hr) (Or.inr ⟨rfl, ?_⟩)
    simp

theorem answers_push {l : ListRef} (value : Value) (hl : f.Issued l) :
    AnswersAs GivesOut (Store.push l value s) (FlatStore.push l value f) :=
  (h.answers_alloc value hl).map fun _ _ hissued => hissued

theorem answers_ofList (values : List Value) :
    AnswersAs GivesOut (Store.ofList values s) (FlatStore.ofList values f) := by
  induction values with
  | nil => exact .ok h trivial
  | cons value values ih =>
    unfold Store.ofList FlatStore.ofList at ih ⊢
    rw [List.foldrM_cons, List.foldrM_cons]
    exact ih.bind fun l s f hrefines hl => hrefines.answers_push value hl

/-- The reading of a list goes on in the store that grows by the new one. -/
theorem answers_reverseOnto {onto l last : ListRef} {values : List Value} {steps : Nat}
    (honto : f.Issued onto) (hreads : s.Reads l values last) (hover : last.Over s.generation)
    (hsteps : values.length < steps) :
    AnswersAs GivesOut (Store.reverseOnto steps onto l s)
      ((values.map Except.ok ++ last.leftover).foldlM FlatStore.pushItem onto f) := by
  induction values generalizing s f l onto steps with
  | nil =>
    cases hreads
    obtain ⟨steps, rfl⟩ : ∃ k, steps = k + 1 := ⟨steps - 1, by omega⟩
    rcases split_of_over hover with ⟨rfl, hsplit⟩ | ⟨first, rfl, hsplit⟩
    · rw [reverseOnto_of_end hsplit]
      exact .ok h honto
    · rw [reverseOnto_of_error hsplit]
      exact .error h
  | cons value values ih =>
    cases hreads with
    | @cons first _ rest _ _ hcell hreads =>
      simp only [List.length_cons] at hsteps
      obtain ⟨steps, rfl⟩ : ∃ k, steps = k + 1 := ⟨steps - 1, by omega⟩
      rw [reverseOnto_of_cell hcell, List.map_cons, List.cons_append, List.foldlM_cons]
      -- the list is read on in the store behind the push, in which it is the same
      have hpush := h.answers_push value honto
      have hgrows := keeps_push onto value s
      show AnswersAs GivesOut
        ((Store.push onto value >>= fun onto => Store.reverseOnto steps onto rest) s)
        ((FlatStore.push onto value >>= fun onto =>
          (values.map Except.ok ++ last.leftover).foldlM FlatStore.pushItem onto) f)
      generalize hrun : Store.push onto value s = result at hpush hgrows
      generalize hrun' : FlatStore.push onto value f = result' at hpush
      cases hpush with
      | ok hrefines honto' =>
        have hext := extends_of_grows hgrows
        rw [bind_of_ok hrun, bind_of_ok hrun']
        have hgeneration := hext.generation
        simp only [stateOf] at hext hgeneration
        exact ih hrefines honto' (hreads.mono hext) (hgeneration ▸ hover) (by omega)
      | error hrefines =>
        rw [bind_of_error hrun, bind_of_error hrun']
        exact .error hrefines

theorem answers_reverse {l : ListRef} (hl : f.Issued l) :
    AnswersAs GivesOut (Store.reverse l s) (FlatStore.reverse l f) := by
  obtain ⟨values, last, hreads, hlength, hover⟩ := h.exists_reads hl
  have hmost := s.used_lt_maxSteps
  have hempty : f.Issued .empty := trivial
  unfold Store.reverse FlatStore.reverse
  rw [bind_of_ok (rfl : (get : StoreM Store) s = .ok s s), ← h.items_eq hl]
  unfold Store.items
  rw [itemsWithin_of_reads hreads hover (by omega)]
  exact h.answers_reverseOnto hempty hreads hover (by omega)

/-- The slots of both stores are changed in the same way. -/
theorem with_slots (slots : Array Slot) :
    ({ s with slots } : Store).Refines { f with slots } where
  layout := h.layout.with_slots slots
  chunkSize := h.chunkSize
  reserves := h.reserves
  maxCells := h.maxCells
  generation := h.generation
  used := h.used
  slots := rfl
  cells := h.cells
  chunks := h.chunks
  linked := h.linked

theorem answers_newSlot (name : TextRef) (tokens : ListRef) :
    AnswersAs Always (Store.newSlot name tokens s) (FlatStore.newSlot name tokens f) := by
  have hnew := h.with_slots (s.slots.push { name, tokens })
  have href : (⟨s.slots.size, s.generation⟩ : SlotRef) = ⟨f.slots.size, f.generation⟩ := by
    rw [h.slots, h.generation]
  rw [newSlot_eq, href]
  unfold FlatStore.newSlot
  rw [h.slots] at hnew ⊢
  cases indexFault? f.slots.size with
  | some e => exact .error h
  | none => exact .ok hnew trivial

theorem answers_fill (ref : SlotRef) (value : Value) :
    AnswersAs Always (Store.fill ref value s) (FlatStore.fill ref value f) := by
  unfold Store.fill FlatStore.fill
  rw [h.slot_eq]
  cases f.slot ref with
  | error e => exact .error h
  | ok slot =>
    cases hvalue : slot.value? with
    | some old =>
      simp only [hvalue]
      exact .error h
    | none =>
      have hset := h.with_slots
        (s.slots.setIfInBounds ref.index { slot with value? := some value })
      simp only [hvalue, setSlot]
      rw [h.slots] at hset ⊢
      exact .ok hset trivial

theorem reset : s.reset.Refines f.reset where
  layout := h.layout.reset
  chunkSize := h.chunkSize
  reserves := h.reserves
  maxCells := h.maxCells
  generation := congrArg (· + 1) h.generation
  used := rfl
  slots := rfl
  cells := by simp [FlatStore.reset]
  chunks := by
    have hpeak : f.reset.peak = f.peak := by
      simp [FlatStore.peak, FlatStore.reset]
    have hsize : s.reset.chunks.size = s.chunks.size := by simp [Store.reset]
    rw [hpeak, hsize]
    exact h.chunks
  linked := by
    intro i c hc
    simp [FlatStore.reset] at hc

/-- Every operation on lists that have been issued gives the same answer. -/
theorem answers_perform {op : StoreOp} (ht : f.Takes op) :
    AnswersAs Always (op.onStore s) (op.onFlat f) := by
  cases op with
  | alloc value next => exact (h.answers_alloc value ht).map fun _ _ _ => trivial
  | push l value => exact (h.answers_push value ht).map fun _ _ _ => trivial
  | ofList values => exact (h.answers_ofList values).map fun _ _ _ => trivial
  | reverse l => exact (h.answers_reverse ht).map fun _ _ _ => trivial
  | newSlot name tokens => exact (h.answers_newSlot name tokens).map fun _ _ _ => trivial
  | fill ref value => exact (h.answers_fill ref value).map fun _ _ _ => trivial
  | reset => exact .ok h.reset trivial

/-- An operation leads to stores that belong together. -/
theorem step {op : StoreOp} (ht : f.Takes op) :
    answerOf (op.onStore s) = answerOf (op.onFlat f) ∧
      (stateOf (op.onStore s)).Refines (stateOf (op.onFlat f)) := by
  have hanswers := h.answers_perform ht
  generalize op.onStore s = result at hanswers
  generalize op.onFlat f = result' at hanswers
  cases hanswers with
  | ok hrefines _ => exact ⟨rfl, hrefines⟩
  | error hrefines => exact ⟨rfl, hrefines⟩

theorem replay {ops : List StoreOp} (ha : f.Accepts ops) :
    (BraceLang.replay StoreOp.onStore ops s).1 = (BraceLang.replay StoreOp.onFlat ops f).1 ∧
      (BraceLang.replay StoreOp.onStore ops s).2.Refines
        (BraceLang.replay StoreOp.onFlat ops f).2 := by
  induction ops generalizing s f with
  | nil => exact ⟨rfl, h⟩
  | cons op ops ih =>
    obtain ⟨htakes, haccepts⟩ := ha
    obtain ⟨hanswer, hrefines⟩ := h.step htakes
    obtain ⟨hanswers, hlast⟩ := ih hrefines haccepts
    refine ⟨?_, hlast⟩
    show answerOf (op.onStore s) :: _ = answerOf (op.onFlat f) :: _
    rw [hanswer, hanswers]

end Store.Refines

end BraceLang
