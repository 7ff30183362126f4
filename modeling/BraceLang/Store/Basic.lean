import BraceLang.Config
import BraceLang.Value

/-!
# The cell store

All lists live in one store of cells. A cell holds a value and the rest of its list, and is
never changed once it is written. Cells are placed one after the other into chunks of a
fixed size; a reset empties the chunks, keeps them for later use and starts a new
generation, so that every handle issued before it is refused from then on.

Beside the cells the store keeps slots, one for every deferred argument. A slot takes a
value once.

Cells and slots are numbered by indices of 32 bits, so there are no more than `indexCount` of
either.

* `Store.alloc`: a cell is refused when the limit is reached, when no index is left or when no
  chunk can be had, and a refusal leaves the store as it was.
* `Store.cell`, `Store.slot`: a handle is good for its own generation only.
* `Store.fill_filled`: a slot that has a value keeps it.
-/

namespace BraceLang

/-- A list cell. -/
structure Cell where
  value : Value
  next : ListRef

/-- The binding of a deferred parameter: the captured argument, and its value once that has
been computed. -/
structure Slot where
  name : TextRef
  tokens : ListRef
  value? : Option Value := none

/-- Chunks of cells with a count of the cells in use. -/
structure Store where
  chunkSize : Nat
  /-- whether a chunk of so many cells can be had -/
  reserves : Nat → Bool
  maxCells : Option Nat
  chunks : Array (Array Cell) := #[]
  used : Nat := 0
  generation : Nat := 0
  slots : Array Slot := #[]

/-- Operations on a store keep what they wrote when they fail later. -/
abbrev StoreM := EStateM StoreError Store

namespace Store

/-- A store without cells. -/
def new (chunkSize : Nat) (maxCells : Option Nat) (reserves : Nat → Bool := fitsBlock) : Store :=
  { chunkSize := max chunkSize 1, reserves, maxCells }

/-- The number of indices for cells, and for slots. -/
def indexCount : Nat := Nat.pow 2 32

/-- Why there is no index for another one when that many are taken. -/
def indexFault? (taken : Nat) : Option StoreError :=
  if indexCount ≤ taken then some (.exhausted (indexCount - 1)) else none

/-- Refuse when that many indices are all there are. -/
def checkIndex (taken : Nat) : StoreM Unit :=
  match indexFault? taken with
  | some e => throw e
  | none => pure ()

/-- Answer from the store without changing it. -/
def read {α : Type} (question : Store → Except StoreError α) : StoreM α := fun s =>
  match question s with
  | .ok a => .ok a s
  | .error e => .error e s

/-! ## Cells -/

/-- Refuse when as many cells are in use as are allowed, or as have an index. -/
def checkLimit : StoreM Unit := do
  let s ← get
  match s.maxCells with
  | some limit => if limit ≤ s.used then throw (.exhausted limit)
  | none => pure ()
  checkIndex s.used

/-- Add a chunk when the next cell would fall behind the last one, if it can be had. -/
def reserve : StoreM Unit := do
  let s ← get
  if s.used / s.chunkSize = s.chunks.size then
    if !s.reserves s.chunkSize then
      throw (.outOfMemory s.chunkSize)
    modify fun s => { s with chunks := s.chunks.push #[] }

/-- Write a cell into the next free place. -/
def place (cell : Cell) : StoreM CellRef :=
  modifyGet fun s =>
    (⟨s.used, s.generation⟩,
      { s with
        chunks := s.chunks.modify (s.used / s.chunkSize) (·.push cell)
        used := s.used + 1 })

/-- Allocate a cell. -/
def alloc (value : Value) (next : ListRef) : StoreM CellRef := do
  checkLimit
  reserve
  place ⟨value, next⟩

/-- The cell of a handle. -/
def cell (s : Store) (ref : CellRef) : Except StoreError Cell :=
  if ref.generation = s.generation then
    match s.chunks[ref.index / s.chunkSize]?.bind (·[ref.index % s.chunkSize]?) with
    | some cell => .ok cell
    | none => .error (.staleCell ref.index)
  else .error (.staleCell ref.index)

theorem cell_eq_error_of_generation {s : Store} {ref : CellRef}
    (h : ref.generation ≠ s.generation) : s.cell ref = .error (.staleCell ref.index) := by
  simp [cell, h]

/-! ## Slots -/

/-- Add an empty slot for a captured argument. -/
def newSlot (name : TextRef) (tokens : ListRef) : StoreM SlotRef := do
  checkIndex (← get).slots.size
  modifyGet fun s =>
    (⟨s.slots.size, s.generation⟩, { s with slots := s.slots.push { name, tokens } })

/-- The slot of a handle. -/
def slot (s : Store) (ref : SlotRef) : Except StoreError Slot :=
  if ref.generation = s.generation then
    match s.slots[ref.index]? with
    | some slot => .ok slot
    | none => .error (.staleCell ref.index)
  else .error (.staleCell ref.index)

theorem slot_eq_error_of_generation {s : Store} {ref : SlotRef}
    (h : ref.generation ≠ s.generation) : s.slot ref = .error (.staleCell ref.index) := by
  simp [slot, h]

/-- Put a slot at a position. -/
def setSlot (s : Store) (index : Nat) (slot : Slot) : Store :=
  { s with slots := s.slots.setIfInBounds index slot }

/-- Give an empty slot its value. -/
def fill (ref : SlotRef) (value : Value) : StoreM Unit := fun s =>
  match s.slot ref with
  | .error e => .error e s
  | .ok slot =>
    match slot.value? with
    | some _ => .error (.slotFilled ref.index) s
    | none => .ok () (s.setSlot ref.index { slot with value? := some value })

theorem fill_filled {s : Store} {ref : SlotRef} {slot : Slot} {old : Value}
    (hs : s.slot ref = .ok slot) (hv : slot.value? = some old) (value : Value) :
    fill ref value s = .error (.slotFilled ref.index) s := by
  simp [fill, hs, hv]

/-! ## Resetting -/

/-- Give up all cells and slots, keep the chunks and start a new generation. -/
def reset (s : Store) : Store :=
  { s with
    chunks := s.chunks.map fun _ => #[]
    slots := #[]
    used := 0
    generation := s.generation + 1 }

end Store

end BraceLang
