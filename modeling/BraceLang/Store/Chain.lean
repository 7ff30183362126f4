import BraceLang.Store.Basic

/-!
# Lists in the store

A list is read from its first cell along the links. `Store.items` is the view of a list that
the rest of the library uses: its values in order, and the failure that cut the reading
short, if there was one. All other readings are functions of this view, and lists are made
by pushing values in front.

A list of one store whose cells all stem from it ends after at most as many cells as are in
use. A handle of another store can close a chain to a ring; a bound on the number of steps,
`Store.maxSteps`, lets a reading go round such a ring as often as there are cells.

* `Store.items_empty`: the empty list has no items.
* `Store.toList_eq_ok`: a list is readable when all its items are.
-/

namespace BraceLang

namespace Store

/-! ## Reading -/

/-- The first value and the rest of a list, or nothing if it is empty. -/
def split (s : Store) : ListRef → Except StoreError (Option (Value × ListRef))
  | .empty => .ok none
  | .chain first => (s.cell first).map fun cell => some (cell.value, cell.next)

/-- The first value of a list. -/
def head? (s : Store) (l : ListRef) : Except StoreError (Option Value) :=
  (s.split l).map (·.map Prod.fst)

/-- The list without its first value; the empty list has itself as tail. -/
def tail (s : Store) (l : ListRef) : Except StoreError ListRef :=
  (s.split l).map fun parts => (parts.map Prod.snd).getD .empty

/-- A bound on the steps of a reading, enough to go round a ring of cells once for every
cell in use. -/
def maxSteps (s : Store) : Nat := (s.used + 1) * (s.used + 2)

/-- The items of a list that are met within a number of steps. -/
def itemsWithin (s : Store) : Nat → ListRef → List (Except StoreError Value)
  | 0, _ => []
  | steps + 1, l =>
    match s.split l with
    | .ok none => []
    | .ok (some (value, rest)) => .ok value :: itemsWithin s steps rest
    | .error e => [.error e]

/-- The values of a list in order. A cell that cannot be read ends the list with its
failure. -/
def items (s : Store) (l : ListRef) : List (Except StoreError Value) :=
  s.itemsWithin s.maxSteps l

@[simp] theorem items_empty (s : Store) : s.items .empty = [] := by
  unfold items
  cases s.maxSteps <;> simp [itemsWithin, split]

/-- All values of a list, or its first failure. -/
def toList (s : Store) (l : ListRef) : Except StoreError (List Value) :=
  (s.items l).mapM id

/-- The number of values of a list, or its first failure. -/
def length (s : Store) (l : ListRef) : Except StoreError Nat :=
  (s.toList l).map List.length

@[simp] theorem toList_empty (s : Store) : s.toList .empty = .ok [] := by
  simp [toList, pure, Except.pure]

theorem mapM_id_eq_ok {items : List (Except StoreError Value)} {values : List Value} :
    items.mapM id = .ok values ↔ items = values.map .ok := by
  induction items generalizing values with
  | nil => cases values <;> simp [pure, Except.pure]
  | cons item items ih =>
    cases item with
    | error e => cases values <;> simp [bind, Except.bind]
    | ok value =>
      cases h : items.mapM id with
      | error e =>
        cases values with
        | nil => simp [h, bind, Except.bind]
        | cons head rest =>
          have : items ≠ rest.map .ok := fun heq => by rw [ih.mpr heq] at h; cases h
          simp [h, bind, Except.bind, this]
      | ok found =>
        have hfound := ih.mp h
        cases values with
        | nil => simp [h, bind, Except.bind, pure, Except.pure]
        | cons head rest =>
          subst hfound
          have hinj : Function.Injective (Except.ok : Value → Except StoreError Value) :=
            fun _ _ h => Except.ok.inj h
          simp [h, bind, Except.bind, pure, Except.pure,
            List.map_inj_right fun _ _ => hinj.eq_iff.mp]

theorem toList_eq_ok {s : Store} {l : ListRef} {values : List Value} :
    s.toList l = .ok values ↔ s.items l = values.map .ok :=
  mapM_id_eq_ok

/-! ## Making -/

/-- Put a value in front of a list. -/
def push (l : ListRef) (value : Value) : StoreM ListRef :=
  ListRef.chain <$> alloc value l

/-- Store a list of values. The last value is written first. -/
def ofList (values : List Value) : StoreM ListRef :=
  values.foldrM (fun value l => push l value) .empty

/-- Push the values of a list, one after the other, in front of another one. -/
def reverseOnto : Nat → ListRef → ListRef → StoreM ListRef
  | 0, onto, _ => pure onto
  | steps + 1, onto, l => do
    match ← read (·.split l) with
    | none => pure onto
    | some (value, rest) => reverseOnto steps (← push onto value) rest

/-- A new list with the values of a list in reverse order. -/
def reverse (l : ListRef) : StoreM ListRef := do
  let s ← get
  reverseOnto (s.maxSteps + s.maxCells.getD 0) .empty l

end Store

end BraceLang
