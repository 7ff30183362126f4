/-!
# Keywords

A keyword names a built-in operation. It is not a value that programs can pass around: it
stands in front of its operands and takes as many terms as its arity says.

* `Keyword.ofName?_name`: a keyword is found under its name.
-/

namespace BraceLang

/-- The built-in operations. -/
inductive Keyword where
  | add | sub | mul | div | pow
  | lt | le | gt | ge | eq | ne
  | max | min
  | cond
  | nil | push | tos | bos | isNil
deriving DecidableEq, Repr

namespace Keyword

/-- All keywords in their listing order. -/
def all : List Keyword :=
  [add, sub, mul, div, pow, lt, le, gt, ge, eq, ne, max, min, cond, nil, push, tos, bos, isNil]

/-- The word that stands for the keyword in program text. -/
def name : Keyword → String
  | add => "ADD"
  | sub => "SUB"
  | mul => "MUL"
  | div => "DIV"
  | pow => "POW"
  | lt => "LT"
  | le => "LE"
  | gt => "GT"
  | ge => "GE"
  | eq => "EQ"
  | ne => "NE"
  | max => "MAX"
  | min => "MIN"
  | cond => "COND"
  | nil => "NIL"
  | push => "PUSH"
  | tos => "TOS"
  | bos => "BOS"
  | isNil => "ISNIL"

/-- How many terms the keyword takes as operands. -/
def arity : Keyword → Nat
  | nil => 0
  | tos | bos | isNil => 1
  | cond => 3
  | _ => 2

/-- The position of the keyword in `all`. -/
def index (k : Keyword) : Nat := all.idxOf k

/-- The keyword of that exact name, capitals included. -/
def ofName? (word : String) : Option Keyword := all.find? (·.name == word)

theorem mem_all (k : Keyword) : k ∈ all := by cases k <;> decide

theorem ofName?_name (k : Keyword) : ofName? k.name = some k := by
  cases k <;> decide

end Keyword

end BraceLang
