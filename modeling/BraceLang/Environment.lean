import BraceLang.Store.Chain

/-!
# Environments

An environment is a list of frames, the newest first, and a frame is a flat list of names
and values in turn. Extending an environment puts a frame in front of it, so that the older
frames are shared. The first binding of a name counts, in the newest frame that has one.

* `Environment.lookup`: entries of the chain of frames that are no lists are passed over, and
  so is a name at the end of a frame without a value.
-/

namespace BraceLang

/-- A list of frames. -/
structure Environment where
  frames : ListRef := .empty
deriving DecidableEq, Repr

namespace Environment

/-- Put a frame with some bindings in front of an environment. -/
def extend (env : Environment) (bindings : List (TextRef × Value)) : StoreM Environment := do
  let frame ← Store.ofList (bindings.flatMap fun (name, value) => [.atom name, value])
  let frames ← Store.push env.frames (.list frame)
  pure ⟨frames⟩

/-- The value bound to a name in the entries of a frame, up to the first entry that cannot be
read. -/
def lookupEntries (name : TextRef) :
    List (Except StoreError Value) → Except StoreError (Option Value)
  | [] => .ok none
  | .error e :: _ => .error e
  | [.ok _] => .ok none
  | .ok _ :: .error e :: _ => .error e
  | .ok key :: .ok value :: rest =>
    if key.same (.atom name) then .ok (some value) else lookupEntries name rest

/-- The value bound to a name in the first frame that binds it. -/
def lookupFrames (s : Store) (name : TextRef) :
    List (Except StoreError Value) → Except StoreError Value
  | [] => .ok .absent
  | .error e :: _ => .error e
  | .ok (.list frame) :: rest => do
    match ← lookupEntries name (s.items frame) with
    | some value => pure value
    | none => lookupFrames s name rest
  | .ok _ :: rest => lookupFrames s name rest

/-- The value bound to a name; an unbound name has the value `absent`. -/
def lookup (env : Environment) (s : Store) (name : TextRef) : Except StoreError Value :=
  lookupFrames s name (s.items env.frames)

end Environment

end BraceLang
