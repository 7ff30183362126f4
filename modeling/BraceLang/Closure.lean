import BraceLang.Error
import BraceLang.Store.Chain

/-!
# Closures

A closure is a list of three lists: the formal parameters, the tokens of the body and the
environment in which it was written. Formal parameters alternate between a binding mode and
a name. Closures can only be made from such lists by evaluation, but any list may be offered
as one, so taking a closure apart checks its form.

* `Closure.formalsOf_entries`: formal parameters that were written as entries are read back.
-/

namespace BraceLang

/-- A formal parameter. -/
structure Formal where
  mode : BindingMode
  name : TextRef
deriving DecidableEq, Repr

/-- The three lists of a closure. -/
structure Closure where
  formals : ListRef
  body : ListRef
  env : ListRef
deriving DecidableEq, Repr

namespace Closure

/-- Store the list of the three lists. -/
def build (c : Closure) : StoreM Value :=
  Value.closure <$> Store.ofList [.list c.formals, .list c.body, .list c.env]

/-- Read the three lists of a closure. -/
def ofList (s : Store) (parts : ListRef) : Except EvalError Closure := do
  match ← (s.toList parts).mapError EvalError.ofStore with
  | [.list formals, .list body, .list env] => pure ⟨formals, body, env⟩
  | _ => throw (.badSyntax .malformedClosure)

/-- Read pairs of a mode and a name. -/
def formalsOf : List Value → Except EvalError (List Formal)
  | [] => pure []
  | .mode mode :: .atom name :: rest => (⟨mode, name⟩ :: ·) <$> formalsOf rest
  | _ => throw (.badSyntax .malformedFormals)

/-- The formal parameters of a closure in their order. -/
def formalList (s : Store) (c : Closure) : Except EvalError (List Formal) := do
  formalsOf (← (s.toList c.formals).mapError EvalError.ofStore)

/-- The entries that stand for a formal parameter. -/
def entriesOf (f : Formal) : List Value := [.mode f.mode, .atom f.name]

theorem formalsOf_entries (formals : List Formal) :
    formalsOf (formals.flatMap entriesOf) = .ok formals := by
  induction formals with
  | nil => rfl
  | cons f formals ih =>
    simp [entriesOf, formalsOf] at ih ⊢
    simp [ih, Functor.map, Except.map]

end Closure

end BraceLang
