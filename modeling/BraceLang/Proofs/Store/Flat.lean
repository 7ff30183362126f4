import BraceLang.Proofs.Effects
import BraceLang.Proofs.Store.Lists

/-!
# A store without chunks

The flat store keeps the cells of every generation in one array that only gets longer. It knows the
size of a chunk for one purpose: a chunk that no memory can hold is a reason to refuse a cell. What
it answers is what the store of chunks has to answer.

* `FlatStore`: its state, its readings and its operations.
* `StoreOp`: the operations on a store, with `StoreOp.onStore` and `StoreOp.onFlat`.
* `replay`: the answers to a sequence of operations, of which each one may fail.
* `FlatStore.Accepts`: all lists that the operations are given have been issued before.
-/

namespace BraceLang

/-- A store that keeps the cells of every generation in one array. -/
structure FlatStore where
  chunkSize : Nat
  /-- whether a chunk of so many cells can be had -/
  reserves : Nat → Bool
  maxCells : Option Nat
  /-- the cells of the generations before this one, the latest first -/
  past : List (Array Cell) := []
  cells : Array Cell := #[]
  slots : Array Slot := #[]

/-- Operations on a flat store keep what they wrote when they fail later. -/
abbrev FlatM := EStateM StoreError FlatStore

namespace FlatStore

/-- A flat store without cells. -/
def new (chunkSize : Nat) (maxCells : Option Nat) (reserves : Nat → Bool := fitsBlock) :
    FlatStore :=
  { chunkSize := max chunkSize 1, reserves, maxCells }

/-- The number of resets. -/
def generation (f : FlatStore) : Nat := f.past.length

/-- The largest number of cells that have been in use at one time. -/
def peak (f : FlatStore) : Nat :=
  (f.cells :: f.past).foldr (fun cells most => max cells.size most) 0

/-! ## Reading -/

section Reading

variable (f : FlatStore)

/-- The cell of a handle. -/
def cell (ref : CellRef) : Except StoreError Cell :=
  if ref.generation = f.generation then
    match f.cells[ref.index]? with
    | some cell => .ok cell
    | none => .error (.staleCell ref.index)
  else .error (.staleCell ref.index)

/-- The slot of a handle. -/
def slot (ref : SlotRef) : Except StoreError Slot :=
  if ref.generation = f.generation then
    match f.slots[ref.index]? with
    | some slot => .ok slot
    | none => .error (.staleCell ref.index)
  else .error (.staleCell ref.index)

/-- The first value and the rest of a list, or nothing if it is empty. -/
def split : ListRef → Except StoreError (Option (Value × ListRef))
  | .empty => .ok none
  | .chain first => (f.cell first).map fun cell => some (cell.value, cell.next)

/-- The first value of a list. -/
def head? (l : ListRef) : Except StoreError (Option Value) := (f.split l).map (·.map Prod.fst)

/-- The list without its first value; the empty list has itself as tail. -/
def tail (l : ListRef) : Except StoreError ListRef :=
  (f.split l).map fun parts => (parts.map Prod.snd).getD .empty

/-- The items of a list that are met within a number of steps. -/
def itemsWithin : Nat → ListRef → List (Except StoreError Value)
  | 0, _ => []
  | steps + 1, l =>
    match f.split l with
    | .ok none => []
    | .ok (some (value, rest)) => .ok value :: itemsWithin steps rest
    | .error e => [.error e]

/-- The values of a list in order, and the failure that ends the list, if there is one. No list
has more values than there are cells. -/
def items (l : ListRef) : List (Except StoreError Value) := f.itemsWithin (f.cells.size + 1) l

/-- All values of a list, or its first failure. -/
def toList (l : ListRef) : Except StoreError (List Value) := (f.items l).mapM id

/-- The number of values of a list, or its first failure. -/
def length (l : ListRef) : Except StoreError Nat := (f.toList l).map List.length

end Reading

/-! ## Operations -/

/-- Write a cell behind the last one. -/
def alloc (value : Value) (next : ListRef) : FlatM CellRef := fun f =>
  match Store.refusal? f.reserves f.maxCells f.chunkSize f.cells.size with
  | some e => .error e f
  | none => .ok ⟨f.cells.size, f.generation⟩ { f with cells := f.cells.push ⟨value, next⟩ }

/-- Put a value in front of a list. -/
def push (l : ListRef) (value : Value) : FlatM ListRef := ListRef.chain <$> alloc value l

/-- Store a list of values. The last value is written first. -/
def ofList (values : List Value) : FlatM ListRef :=
  values.foldrM (fun value l => push l value) .empty

/-- Put an item in front of a list, unless it is a failure. -/
def pushItem (onto : ListRef) : Except StoreError Value → FlatM ListRef
  | .ok value => push onto value
  | .error e => throw e

/-- A new list with the values of a list in reverse order. -/
def reverse (l : ListRef) : FlatM ListRef := fun f => (f.items l).foldlM pushItem .empty f

/-- Add an empty slot for a captured argument. -/
def newSlot (name : TextRef) (tokens : ListRef) : FlatM SlotRef := fun f =>
  match Store.indexFault? f.slots.size with
  | some e => .error e f
  | none => .ok ⟨f.slots.size, f.generation⟩ { f with slots := f.slots.push { name, tokens } }

/-- Give an empty slot its value. -/
def fill (ref : SlotRef) (value : Value) : FlatM Unit := fun f =>
  match f.slot ref with
  | .error e => .error e f
  | .ok slot =>
    match slot.value? with
    | some _ => .error (.slotFilled ref.index) f
    | none =>
      .ok () { f with slots := f.slots.setIfInBounds ref.index { slot with value? := some value } }

/-- Start the array of a new generation. -/
def reset (f : FlatStore) : FlatStore :=
  { f with past := f.cells :: f.past, cells := #[], slots := #[] }

end FlatStore

/-! ## Sequences of operations -/

/-- An operation on a store. -/
inductive StoreOp where
  | alloc (value : Value) (next : ListRef)
  | push (l : ListRef) (value : Value)
  | ofList (values : List Value)
  | reverse (l : ListRef)
  | newSlot (name : TextRef) (tokens : ListRef)
  | fill (ref : SlotRef) (value : Value)
  | reset

/-- What an operation gives when it succeeds. -/
inductive Handle where
  | cell (ref : CellRef)
  | list (l : ListRef)
  | slot (ref : SlotRef)
  | nothing
deriving DecidableEq

namespace StoreOp

/-- An operation on the store of chunks. -/
def onStore : StoreOp → StoreM Handle
  | alloc value next => Handle.cell <$> Store.alloc value next
  | push l value => Handle.list <$> Store.push l value
  | ofList values => Handle.list <$> Store.ofList values
  | reverse l => Handle.list <$> Store.reverse l
  | newSlot name tokens => Handle.slot <$> Store.newSlot name tokens
  | fill ref value => (fun _ => Handle.nothing) <$> Store.fill ref value
  | reset => modifyGet fun s => (.nothing, s.reset)

/-- An operation on the flat store. -/
def onFlat : StoreOp → FlatM Handle
  | alloc value next => Handle.cell <$> FlatStore.alloc value next
  | push l value => Handle.list <$> FlatStore.push l value
  | ofList values => Handle.list <$> FlatStore.ofList values
  | reverse l => Handle.list <$> FlatStore.reverse l
  | newSlot name tokens => Handle.slot <$> FlatStore.newSlot name tokens
  | fill ref value => (fun _ => Handle.nothing) <$> FlatStore.fill ref value
  | reset => modifyGet fun f => (.nothing, f.reset)

end StoreOp

section Replay

variable {ε σ α ι : Type}

/-- The answer of an operation. -/
def answerOf : EStateM.Result ε σ α → Except ε α
  | .ok a _ => .ok a
  | .error e _ => .error e

/-- The answers to some operations, one after the other, and the state behind them. An operation
that fails does not stop the others. -/
def replay (perform : ι → EStateM ε σ α) : List ι → σ → List (Except ε α) × σ
  | [], s => ([], s)
  | op :: ops, s =>
    let result := perform op s
    let (answers, last) := replay perform ops (stateOf result)
    (answerOf result :: answers, last)

theorem replay_concat (perform : ι → EStateM ε σ α) (ops : List ι) (op : ι) (s : σ) :
    (replay perform (ops ++ [op]) s).2 = stateOf (perform op (replay perform ops s).2) := by
  induction ops generalizing s with
  | nil => rfl
  | cons first ops ih => exact ih (stateOf (perform first s))

end Replay

/-- The list is empty, or it starts in an earlier generation or at one of the first cells of this
one. -/
def ListRef.Below (generation n : Nat) : ListRef → Prop
  | .empty => True
  | .chain first => first.generation < generation ∨ first.generation = generation ∧ first.index < n

namespace FlatStore

/-- The list is empty or starts at a cell that the store has given out. -/
def Issued (f : FlatStore) (l : ListRef) : Prop := l.Below f.generation f.cells.size

/-- The lists that an operation is given have been issued. -/
def Takes (f : FlatStore) : StoreOp → Prop
  | .alloc _ next => f.Issued next
  | .push l _ => f.Issued l
  | .reverse l => f.Issued l
  | .newSlot _ tokens => f.Issued tokens
  | .ofList _ | .fill _ _ | .reset => True

/-- The lists that the operations are given have been issued by the store before. -/
def Accepts (f : FlatStore) : List StoreOp → Prop
  | [] => True
  | op :: ops => f.Takes op ∧ (stateOf (op.onFlat f)).Accepts ops

theorem accepts_concat {f : FlatStore} {ops : List StoreOp} {op : StoreOp} :
    f.Accepts (ops ++ [op]) ↔ f.Accepts ops ∧ (replay StoreOp.onFlat ops f).2.Takes op := by
  induction ops generalizing f with
  | nil => exact and_comm
  | cons first ops ih => exact (and_congr_right fun _ => ih).trans and_assoc.symm

end FlatStore

end BraceLang
