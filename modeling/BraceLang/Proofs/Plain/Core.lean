import BraceLang.Evaluation.Scan
import BraceLang.Proofs.Plain.Datum

/-!
# Evaluation steps without a memory

What is left of a memory in an evaluation on data is the number of cells in use, which decides when
a cell is refused, and the content of the slots, of which there are as many as there are indices.
The depth is not part of the state: an action is run at a depth.

An action that reads something else, such as the tokens of a term, has that as a state of its own,
which is lost when it fails.

* `CoreM.charge`: take a number of cells, one after the other.
* `CoreM.nested`: run an action one level deeper.
-/

namespace BraceLang

/-- What bounds an evaluation, and the number of terms that are under evaluation around it. -/
structure Limits where
  maxDepth : Nat
  depth : Nat
  /-- why a cell is refused when that many are in use -/
  refusal : Nat → Option StoreError

/-- The limits one level deeper. -/
def Limits.deeper (limits : Limits) : Limits := { limits with depth := limits.depth + 1 }

/-- The cells in use and the slots. -/
structure Core (β : Type) where
  used : Nat := 0
  slots : Slots β := #[]

/-- Evaluation steps on data. -/
abbrev CoreM (β : Type) := ReaderT Limits (EStateM Fault (Core β))

/-- Evaluation steps that read something. -/
abbrev ReadM (σ β : Type) := StateT σ (CoreM β)

namespace CoreM

variable {α β : Type}

/-- Fail for the form of the program. -/
def fail (fault : FormFault) : CoreM β α := throw fault.toFault

/-- Take a cell. -/
def alloc : CoreM β Unit := fun limits core =>
  match limits.refusal core.used with
  | some e => .error ⟨.allocationFailure e, rfl⟩ core
  | none => .ok () { core with used := core.used + 1 }

/-- Take a number of cells. -/
def charge : Nat → CoreM β Unit
  | 0 => pure ()
  | n + 1 => do
    alloc
    charge n

/-- Add a slot for a deferred argument. -/
def newSlot : CoreM β Nat := fun _ core =>
  match Store.indexFault? core.slots.size with
  | some e => .error ⟨.allocationFailure e, rfl⟩ core
  | none => .ok core.slots.size { core with slots := core.slots.push none }

theorem newSlot_eq_ok_iff {limits : Limits} {core core' : Core β} {index : Nat} :
    newSlot limits core = .ok index core' ↔
      Store.indexFault? core.slots.size = none ∧ core.slots.size = index ∧
        { core with slots := core.slots.push none } = core' := by
  unfold newSlot
  cases Store.indexFault? core.slots.size <;> simp

/-- Give a slot its value. -/
def fill (index : Nat) (value : Datum β) : CoreM β Unit :=
  modify fun core => { core with slots := core.slots.setIfInBounds index (some value) }

/-- Run an action one level deeper, unless the greatest depth is reached. -/
def nested (action : CoreM β α) : CoreM β α := fun limits =>
  if limits.maxDepth ≤ limits.depth then throw ⟨.tooDeep limits.maxDepth, rfl⟩
  else action limits.deeper

/-- Fail because no level of depth is left. -/
def tooDeep : CoreM β α := do throw ⟨.tooDeep (← read).maxDepth, rfl⟩

/-- The number of levels that are left. -/
def levelsLeft : CoreM β Nat := do pure ((← read).maxDepth - (← read).depth)

/-- Fail for an operand of the wrong kind. -/
def mismatch (op : Keyword) (expected : Expectation) (found : String) : CoreM β α :=
  throw ⟨.typeMismatch op expected found, rfl⟩

/-- The value of a name. A deferred parameter has the value of its argument, once that has been
evaluated. -/
def lookupName (name : List Char) (scope : Scope β) : CoreM β (Datum β) := do
  match scope.lookup name with
  | none => throw ⟨.undefinedVariable (String.ofList name), rfl⟩
  | some (.value datum) => pure datum
  | some (.slot index) =>
    match (← get).slots.value? index with
    | some datum => pure datum
    | none => throw ⟨.unresolvedDeferred (String.ofList name), rfl⟩

/-- A parenthesis has to follow the last argument, and a comma any other one. -/
def checkSeparator (last : Bool) : Separator → CoreM β Unit
  | .close => if last then pure () else fail .tooFewArguments
  | .comma => if last then fail .tooManyArguments else pure ()

end CoreM

/-- An action that reads nothing. -/
def CoreM.lift {σ α β : Type} (action : CoreM β α) : ReadM σ β α := fun s => do
  pure (← action, s)

namespace ReadM

variable {σ α β : Type}

/-- Run an action one level deeper, unless the greatest depth is reached. -/
def nested (action : ReadM σ β α) : ReadM σ β α := fun s => CoreM.nested (action s)

end ReadM

end BraceLang
