import BraceLang.Proofs.Store.Refinement

/-!
# What a store answers after any operations

After any sequence of operations, of which some may have been refused, the store of chunks answers
every reading as the flat store does. Its lists end, lists that are made denote the values that they
are made of, and it has as many chunks as the largest number of cells that were in use needs.

* `Store.ReadsAs`: two stores that cannot be told apart.
* `Store.KeepsLists`: links, lists and room for cells.
* `Store.replay_refines`: both hold after any operations.
-/

namespace BraceLang

/-! ## How the flat store grows -/

/-- The last array gets longer and the others are left alone. -/
structure FlatStore.Longer (f f' : FlatStore) : Prop where
  chunkSize : f'.chunkSize = f.chunkSize
  past : f'.past = f.past
  size_le : f.cells.size ≤ f'.cells.size

namespace FlatStore

instance : IsPreorder FlatStore Longer where
  refl := fun _ => ⟨rfl, rfl, Nat.le_refl _⟩
  trans := fun _ _ _ h h' => ⟨h'.chunkSize.trans h.chunkSize, h'.past.trans h.past,
    Nat.le_trans h.size_le h'.size_le⟩

theorem keeps_alloc (value : Value) (next : ListRef) : Keeps Longer (alloc value next) := by
  intro f
  unfold alloc
  cases Store.refusal? f.reserves f.maxCells f.chunkSize f.cells.size with
  | some e => exact Std.Refl.refl f
  | none => exact ⟨rfl, rfl, by simp [stateOf]⟩

theorem keeps_push (l : ListRef) (value : Value) : Keeps Longer (push l value) :=
  (keeps_alloc value l).map

theorem keeps_ofList (values : List Value) : Keeps Longer (ofList values) := by
  induction values with
  | nil => exact Keeps.pure _
  | cons value values ih =>
    unfold ofList at ih ⊢
    rw [List.foldrM_cons]
    exact ih.bind fun _ => keeps_push _ _

theorem keeps_pushItems (items : List (Except StoreError Value)) (onto : ListRef) :
    Keeps Longer (items.foldlM pushItem onto) := by
  induction items generalizing onto with
  | nil => exact Keeps.pure _
  | cons item items ih =>
    rw [List.foldlM_cons]
    refine Keeps.bind ?_ ih
    cases item with
    | ok value => exact keeps_push onto value
    | error e => exact Keeps.throw e

theorem keeps_reverse (l : ListRef) : Keeps Longer (reverse l) :=
  fun f => keeps_pushItems (f.items l) .empty f

theorem keeps_newSlot (name : TextRef) (tokens : ListRef) : Keeps Longer (newSlot name tokens) := by
  intro f
  unfold newSlot
  cases Store.indexFault? f.slots.size with
  | some e => exact Std.Refl.refl f
  | none => exact ⟨rfl, rfl, Nat.le_refl _⟩

theorem keeps_fill (ref : SlotRef) (value : Value) : Keeps Longer (fill ref value) := by
  intro f
  unfold fill
  cases f.slot ref with
  | error e => exact Std.Refl.refl f
  | ok slot =>
    cases hvalue : slot.value? with
    | some old =>
      simp only [hvalue]
      exact Std.Refl.refl f
    | none =>
      simp only [hvalue]
      exact ⟨rfl, rfl, Nat.le_refl _⟩

theorem peak_eq (f : FlatStore) :
    f.peak = max f.cells.size (f.past.foldr (fun cells most => max cells.size most) 0) := rfl

/-- Every operation lets the last array grow, or starts another one. -/
theorem longer_or_reset (op : StoreOp) (f : FlatStore) :
    f.Longer (stateOf (op.onFlat f)) ∨ stateOf (op.onFlat f) = f.reset := by
  cases op with
  | alloc value next => exact Or.inl ((keeps_alloc value next).map f)
  | push l value => exact Or.inl ((keeps_push l value).map f)
  | ofList values => exact Or.inl ((keeps_ofList values).map f)
  | reverse l => exact Or.inl ((keeps_reverse l).map f)
  | newSlot name tokens => exact Or.inl ((keeps_newSlot name tokens).map f)
  | fill ref value => exact Or.inl ((keeps_fill ref value).map f)
  | reset => exact Or.inr rfl

/-- An operation raises the peak to the number of cells behind it. -/
theorem peak_perform (op : StoreOp) (f : FlatStore) :
    (stateOf (op.onFlat f)).peak = max f.peak (stateOf (op.onFlat f)).cells.size := by
  rcases longer_or_reset op f with hlonger | hreset
  · have hle := hlonger.size_le
    rw [peak_eq, f.peak_eq, hlonger.past]
    omega
  · rw [hreset]
    simp [peak, reset]

theorem chunkSize_replay (ops : List StoreOp) (f : FlatStore) :
    (replay StoreOp.onFlat ops f).2.chunkSize = f.chunkSize := by
  induction ops generalizing f with
  | nil => rfl
  | cons op ops ih =>
    have hstep : (stateOf (op.onFlat f)).chunkSize = f.chunkSize := by
      rcases longer_or_reset op f with hlonger | hreset
      · exact hlonger.chunkSize
      · rw [hreset]
        rfl
    exact (ih _).trans hstep

end FlatStore

namespace Store

/-- The largest number of cells that are in use at one time while some operations are done. -/
def mostUsed : List StoreOp → Store → Nat
  | [], s => s.used
  | op :: ops, s => max s.used (mostUsed ops (stateOf (op.onStore s)))

theorem used_le_mostUsed (ops : List StoreOp) (s : Store) : s.used ≤ mostUsed ops s := by
  cases ops with
  | nil => exact Nat.le_refl _
  | cons op ops => exact Nat.le_max_left _ _

theorem Refines.peak_replay {s : Store} {f : FlatStore} (h : s.Refines f) {ops : List StoreOp}
    (ha : f.Accepts ops) : (BraceLang.replay StoreOp.onFlat ops f).2.peak =
      max f.peak (mostUsed ops s) := by
  induction ops generalizing s f with
  | nil =>
    have hle := f.size_le_peak
    show f.peak = max f.peak s.used
    rw [h.used]
    omega
  | cons op ops ih =>
    obtain ⟨htakes, haccepts⟩ := ha
    obtain ⟨-, hrefines⟩ := h.step htakes
    have hlast := ih hrefines haccepts
    have hpeak := FlatStore.peak_perform op f
    have hused := hrefines.used
    have hle := used_le_mostUsed ops (stateOf (op.onStore s))
    have hle' := f.size_le_peak
    have hstart := h.used
    show (BraceLang.replay StoreOp.onFlat ops (stateOf (op.onFlat f))).2.peak =
      max f.peak (max s.used (mostUsed ops (stateOf (op.onStore s))))
    rw [hlast, hpeak]
    omega

/-! ## Readings and lists -/

/-- Every reading of the store is that of the flat store. Lists have to be lists that were given
out. -/
structure ReadsAs (s : Store) (f : FlatStore) : Prop where
  cell : ∀ ref, s.cell ref = f.cell ref
  slot : ∀ ref, s.slot ref = f.slot ref
  split : ∀ l, s.split l = f.split l
  head? : ∀ l, s.head? l = f.head? l
  tail : ∀ l, s.tail l = f.tail l
  items : ∀ l, f.Issued l → s.items l = f.items l
  toList : ∀ l, f.Issued l → s.toList l = f.toList l
  length : ∀ l, f.Issued l → s.length l = f.length l

theorem Refines.readsAs {s : Store} {f : FlatStore} (h : s.Refines f) : s.ReadsAs f where
  cell := h.cell_eq
  slot := h.slot_eq
  split := h.split_eq
  head? := fun l => by simp only [Store.head?, FlatStore.head?, h.split_eq]
  tail := fun l => by simp only [Store.tail, FlatStore.tail, h.split_eq]
  items := fun _ => h.items_eq
  toList := fun _ => h.toList_eq
  length := fun l hl => by simp only [Store.length, FlatStore.length, h.toList_eq hl]

/-- The list is empty or starts at a cell that the store has given out. -/
def Issued (s : Store) (l : ListRef) : Prop := l.Below s.generation s.used

/-- The list is empty or starts in this generation. -/
def Recent (s : Store) : ListRef → Prop
  | .empty => True
  | .chain first => first.generation = s.generation

/-- What holds of the cells and the lists of a store at any time. -/
structure KeepsLists (s : Store) : Prop where
  /-- the next cell falls into a chunk, also in the midst of an operation -/
  room : ∀ t, s.Grows t → ∀ s', reserve t = .ok () s' → s'.used / s'.chunkSize < s'.chunks.size
  /-- a link is empty, or stale, or leads to a smaller index -/
  links : ∀ ref c, s.cell ref = .ok c → c.next.Below s.generation ref.index
  /-- a list has no more values than cells are in use, behind which it ends or is stale -/
  ends : ∀ l, s.Issued l → ∃ values last, s.Reads l values last ∧ values.length ≤ s.used ∧
    last.Over s.generation ∧ s.items l = values.map .ok ++ last.leftover
  /-- if no cell links to an earlier generation, a list of this one denotes a sequence -/
  denotes : (∀ ref c, s.cell ref = .ok c → s.Recent c.next) → ∀ l, s.Issued l → s.Recent l →
    ∃ values, s.toList l = .ok values
  ofList : ∀ values l s', ofList values s = .ok l s' → s'.toList l = .ok values
  push : ∀ l value l' s', s.Issued l → push l value s = .ok l' s' →
    s'.toList l' = (s.toList l).map (value :: ·)
  reverse : ∀ l l' s', s.Issued l → reverse l s = .ok l' s' → ∃ values,
    s.toList l = .ok values ∧ s'.toList l' = .ok values.reverse ∧ s'.toList l = .ok values

theorem mapM_id_cons (value : Value) (items : List (Except StoreError Value)) :
    (Except.ok value :: items).mapM id = (items.mapM id).map (value :: ·) := by
  rw [List.mapM_cons]
  cases items.mapM id <;> rfl

theorem items_of_reads {s : Store} {l last : ListRef} {values : List Value}
    (hreads : s.Reads l values last) (hlength : values.length ≤ s.used)
    (hover : last.Over s.generation) : s.items l = values.map .ok ++ last.leftover := by
  have hmost := s.used_lt_maxSteps
  exact itemsWithin_of_reads hreads hover (by omega)

namespace Refines

variable {s : Store} {f : FlatStore} (h : s.Refines f)
include h

theorem issued {l : ListRef} (hl : s.Issued l) : f.Issued l := by
  unfold Store.Issued at hl
  rwa [h.generation, h.used] at hl

theorem links {ref : CellRef} {c : Cell} (hcell : s.cell ref = .ok c) :
    c.next.Below s.generation ref.index := by
  have hlt := h.layout.index_lt hcell
  rw [h.used] at hlt
  obtain ⟨found, hget⟩ : ∃ found, f.cells[ref.index]? = some found :=
    ⟨_, Array.getElem?_eq_getElem hlt⟩
  have hsame := h.cells _ _ hget
  rw [← generation_of_cell hcell, hcell] at hsame
  cases hsame
  rw [h.generation]
  exact h.linked _ _ hget

theorem toList_of_push {l l' : ListRef} {value : Value} {s' : Store} (hl : s.Issued l)
    (hpush : Store.push l value s = .ok l' s') :
    s'.toList l' = (s.toList l).map (value :: ·) := by
  obtain ⟨values, last, hreads, hlength, hover⟩ := h.exists_reads (h.issued hl)
  have hext := extends_of_grows ((keeps_push l value).of_ok hpush)
  rw [push_eq h.layout] at hpush
  split at hpush
  · cases hpush
  · cases hpush
    have hreads' : (s.written ⟨value, l⟩).Reads (.chain s.nextRef) (value :: values) last :=
      .cons (h.layout.cell_written_nextRef _) (hreads.mono hext)
    have hitems : (s.written ⟨value, l⟩).items (.chain s.nextRef) =
        (value :: values).map .ok ++ last.leftover :=
      Store.items_of_reads hreads' (Nat.succ_le_succ hlength) hover
    unfold Store.toList
    rw [hitems, Store.items_of_reads hreads hlength hover, List.map_cons, List.cons_append,
      mapM_id_cons]

theorem toList_of_reverse {l l' : ListRef} {s' : Store} (hl : s.Issued l)
    (hreverse : Store.reverse l s = .ok l' s') : ∃ values, s.toList l = .ok values ∧
      s'.toList l' = .ok values.reverse ∧ s'.toList l = .ok values := by
  obtain ⟨values, last, hreads, hlength, hover⟩ := h.exists_reads (h.issued hl)
  have hgrows := (keeps_reverse l).of_ok hreverse
  have hlayout := h.layout.of_grows hgrows
  have hmost := s.used_lt_maxSteps
  unfold Store.reverse at hreverse
  rw [bind_of_ok (rfl : (get : StoreM Store) s = .ok s s)] at hreverse
  obtain ⟨rfl, hchain⟩ :=
    chain_of_reverseOnto h.layout hreads hover .nil (by omega) hreverse
  rw [List.append_nil] at hchain
  have hold := chain_of_reads hreads
  exact ⟨values, hold.toList_eq h.layout, hchain.toList_eq hlayout,
    (hold.mono (extends_of_grows hgrows)).toList_eq hlayout⟩

theorem keepsLists : s.KeepsLists where
  room := by
    intro t hgrows s' hreserve
    rw [reserve_apply] at hreserve
    split at hreserve
    · cases hreserve
    · cases hreserve
      exact (h.layout.of_grows hgrows).used_lt_roomy
  links := fun _ _ => h.links
  ends := by
    intro l hl
    obtain ⟨values, last, hreads, hlength, hover⟩ := h.exists_reads (h.issued hl)
    exact ⟨values, last, hreads, hlength, hover, Store.items_of_reads hreads hlength hover⟩
  denotes := by
    intro hrecent l hl hstart
    obtain ⟨values, last, hreads, hlength, hover⟩ := h.exists_reads (h.issued hl)
    have hend : s.Recent last := by
      clear hl hover hlength
      induction hreads with
      | nil => exact hstart
      | cons hcell _ ih => exact ih (hrecent _ _ hcell)
    have hempty : last = .empty := by
      cases last with
      | empty => rfl
      | chain first => exact absurd hend (Nat.ne_of_lt hover)
    subst hempty
    exact ⟨values, (chain_of_reads hreads).toList_eq h.layout⟩
  ofList := by
    intro values l s' hrun
    have hlayout := layout_of_ofList h.layout hrun
    exact (chain_of_ofList h.layout hrun).toList_eq hlayout
  push := fun _ _ _ _ => h.toList_of_push
  reverse := fun _ _ _ => h.toList_of_reverse

end Refines

/-- After any operations on lists that have been given out, the store of chunks has given the
answers of the flat store and reads as it does; its lists end, and it has as many chunks as the
largest number of cells that have been in use fills. -/
theorem replay_refines (chunkSize : Nat) (maxCells : Option Nat) (reserves : Nat → Bool)
    (ops : List StoreOp) (h : (FlatStore.new chunkSize maxCells reserves).Accepts ops) :
    let chunked := replay StoreOp.onStore ops (new chunkSize maxCells reserves)
    let flat := replay StoreOp.onFlat ops (FlatStore.new chunkSize maxCells reserves)
    chunked.1 = flat.1 ∧ chunked.2.ReadsAs flat.2 ∧ chunked.2.used = flat.2.cells.size ∧
      chunked.2.KeepsLists ∧
      chunked.2.chunks.size =
        partsFor (max chunkSize 1) (mostUsed ops (new chunkSize maxCells reserves)) := by
  intro chunked flat
  have hnew := Refines.new chunkSize maxCells reserves
  obtain ⟨hanswers, hrefines⟩ := hnew.replay h
  have hpeak := hnew.peak_replay h
  have hstart : (FlatStore.new chunkSize maxCells reserves).peak = 0 := rfl
  rw [hstart, Nat.zero_max] at hpeak
  refine ⟨hanswers, hrefines.readsAs, hrefines.used, hrefines.keepsLists, ?_⟩
  have hsize : flat.2.chunkSize = max chunkSize 1 := FlatStore.chunkSize_replay ops _
  rw [← hpeak, ← hsize]
  exact hrefines.chunks

/-- A list of the first generation in front of which a value is put after a reset, which is then
reversed, and a list that the limit cuts off. -/
theorem replay_refines_stale_tail :
    let ops : List StoreOp := [.ofList [.absent, .absent], .reset, .push (.chain ⟨1, 0⟩) .absent,
      .newSlot ⟨0, 0⟩ (.chain ⟨0, 1⟩), .fill ⟨0, 1⟩ .absent, .reverse (.chain ⟨0, 1⟩),
      .ofList [.absent, .absent, .absent]]
    let chunked := replay StoreOp.onStore ops (new 2 (some 3))
    let flat := replay StoreOp.onFlat ops (FlatStore.new 2 (some 3))
    (FlatStore.new 2 (some 3)).Accepts ops ∧ chunked.1 = flat.1 ∧ chunked.2.ReadsAs flat.2 ∧
      chunked.2.used = flat.2.cells.size ∧ chunked.2.KeepsLists ∧
      chunked.2.chunks.size = partsFor 2 (mostUsed ops (new 2 (some 3))) := by
  intro ops chunked flat
  have haccepts : (FlatStore.new 2 (some 3)).Accepts ops :=
    ⟨trivial, trivial, Or.inl (by decide +kernel), Or.inr (by decide +kernel), trivial,
      Or.inr (by decide +kernel), trivial, trivial⟩
  exact ⟨haccepts, replay_refines 2 (some 3) fitsBlock ops haccepts⟩

end Store

end BraceLang
