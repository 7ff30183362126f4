/-!
# Failures of the stores

The cell store and the text table refuse an operation for one of five causes: two say that
no cell could be had, the other three that a handle was misused.

* `StoreError.message`: the wording of each cause.
-/

namespace BraceLang

/-- Why a store refuses an operation. -/
inductive StoreError where
  /-- as many cells are in use as are allowed -/
  | exhausted (limit : Nat)
  /-- a chunk of that many cells is more than memory can hold -/
  | outOfMemory (cells : Nat)
  /-- no such cell or slot since the last reset -/
  | staleCell (index : Nat)
  /-- a slot takes one value only -/
  | slotFilled (index : Nat)
  /-- the text was interned before its table was cleared -/
  | staleText (generation : Nat)
deriving DecidableEq, Repr

namespace StoreError

/-- Whether the cause is a lack of cells. -/
def isExhaustion : StoreError → Bool
  | exhausted _ | outOfMemory _ => true
  | _ => false

def message : StoreError → String
  | exhausted limit => s!"list store exhausted: limit of {limit} cells reached"
  | outOfMemory cells => s!"could not allocate a chunk of {cells} list cells"
  | staleCell index => s!"list cell {index} belongs to an arena generation that was reset"
  | slotFilled index => s!"deferred slot {index} was already filled"
  | staleText generation =>
    s!"interned text belongs to table generation {generation}, which was cleared"

end StoreError

end BraceLang
