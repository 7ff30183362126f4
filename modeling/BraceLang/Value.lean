import BraceLang.Keyword
import BraceLang.Text.Table

/-!
# Values

One type holds the tokens of a program, the results of evaluation and the entries of
environments, because programs, captured arguments and environments are all kept as lists
in the same store. A value is small: lists, texts and deferred bindings are references.

* `Value.same`: the equality that programs can observe, which is not reflexive on numbers.
-/

namespace BraceLang

/-- A reference to a cell of one generation of a store. -/
structure CellRef where
  index : Nat
  generation : Nat
deriving DecidableEq, Repr

/-- A list is empty or starts at a cell. -/
inductive ListRef where
  | empty
  | chain (first : CellRef)
deriving DecidableEq, Repr

namespace ListRef

def isEmpty : ListRef → Bool
  | empty => true
  | chain _ => false

@[simp] theorem isEmpty_iff (l : ListRef) : l.isEmpty = true ↔ l = .empty := by
  cases l <;> simp [isEmpty]

end ListRef

/-- A reference to a slot of one generation of a store. -/
structure SlotRef where
  index : Nat
  generation : Nat
deriving DecidableEq, Repr

/-- How a parameter takes its argument. -/
inductive BindingMode where
  /-- the argument is evaluated in the caller's environment, before the call -/
  | eager
  /-- the argument is evaluated in the new environment, when all parameters are bound -/
  | deferred
deriving DecidableEq, Repr

inductive Value where
  /-- what an unbound name looks up to -/
  | absent
  | number (n : Float)
  | string (text : TextRef)
  | atom (name : TextRef)
  | keyword (k : Keyword)
  | list (items : ListRef)
  /-- a list of three lists: formal parameters, body and defining environment -/
  | closure (parts : ListRef)
  | delimiter (c : Char)
  | mode (m : BindingMode)
  /-- the binding of a deferred parameter -/
  | deferred (slot : SlotRef)

namespace Value

/-- The word for the kind of a value in messages. -/
def typeName : Value → String
  | absent => "none"
  | number _ => "number"
  | string _ => "string"
  | atom _ => "atom"
  | keyword _ => "keyword"
  | list _ => "list"
  | closure _ => "closure"
  | delimiter _ => "delimiter"
  | mode _ => "binding mode"
  | deferred _ => "deferred binding"

def isDelimiter (c : Char) : Value → Bool
  | delimiter d => d == c
  | _ => false

def number? : Value → Option Float
  | number n => some n
  | _ => none

def list? : Value → Option ListRef
  | list items => some items
  | _ => none

/-- Truth is the number one, falsehood the number zero. -/
def truth (flag : Bool) : Float := if flag then 1 else 0

def ofBool (flag : Bool) : Value := number (truth flag)

/-- Numbers are compared as numbers, so that a number which is not a number differs from
itself; all else is compared by kind and reference. -/
def same : Value → Value → Bool
  | absent, absent => true
  | number a, number b => a == b
  | string a, string b => a == b
  | atom a, atom b => a == b
  | keyword a, keyword b => a == b
  | list a, list b => a == b
  | closure a, closure b => a == b
  | delimiter a, delimiter b => a == b
  | mode a, mode b => a == b
  | deferred a, deferred b => a == b
  | _, _ => false

end Value

end BraceLang
