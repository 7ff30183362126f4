import BraceLang.Keyword
import BraceLang.Store.Error

/-!
# Evaluation errors

Every failure aborts the whole evaluation. An error is a cause; its wording is given by one
function for each type.

* `EvalError.ofStore`: a lack of cells is an allocation failure, any other failure of a
  store is an invalid handle.
* `EvalError.isFatal_ofStore`: exactly a lack of cells is fatal.
-/

namespace BraceLang

/-- What is wrong with the form of a program. -/
inductive SyntaxFault where
  /-- a term was expected at the end of the text -/
  | endOfText
  /-- a token that no term starts with -/
  | notExpected (token : String)
  /-- a formal parameter that is not an atom -/
  | formalExpected
  /-- a closure without its closing brace -/
  | unclosedClosure
  /-- a closing delimiter is missing -/
  | closerExpected (closer : Char)
  /-- another closing delimiter than the one that is due -/
  | closerMismatch (closer found : Char)
  /-- an argument is followed neither by a comma nor by the end of the call -/
  | separatorExpected
  | tooFewArguments
  | tooManyArguments
  /-- a deferred argument without tokens -/
  | missingArgument
  /-- the text ends within a deferred argument -/
  | endInArgument
  /-- a deferred argument closes what it did not open -/
  | unbalanced (closer : Char)
  /-- a deferred argument goes on behind its term -/
  | trailingArgument (name : String)
  /-- the body of a function goes on behind its term -/
  | trailingBody
  /-- the text goes on behind its term -/
  | trailingText (rest : String)
  /-- a closure is not made of three lists -/
  | malformedClosure
  /-- formal parameters are not pairs of a mode and a name -/
  | malformedFormals
  /-- a frame of an environment is not a list -/
  | malformedFrame
  /-- a value that has itself among its parts has no text -/
  | endlessValue

namespace SyntaxFault

def message : SyntaxFault → String
  | endOfText => "unexpected end of text"
  | notExpected token => s!"'{token}' not expected"
  | formalExpected => "atom expected as closure formal parameter"
  | unclosedClosure => "'\x7b' without matching '\x7d'"
  | closerExpected closer => s!"'{closer}' expected"
  | closerMismatch closer found => s!"'{closer}' expected, found '{found}'"
  | separatorExpected => "')' or ',' expected after actual parameter"
  | tooFewArguments => "too few actual parameters"
  | tooManyArguments => "too many actual parameters"
  | missingArgument => "missing actual parameter"
  | endInArgument => "unexpected end of text in actual parameter"
  | unbalanced closer => s!"unbalanced '{closer}'"
  | trailingArgument name => s!"unexpected text in actual parameter for '{name}'"
  | trailingBody => "unexpected text in function body"
  | trailingText rest => s!"unexpected text after expression: {rest}"
  | malformedClosure => "malformed closure"
  | malformedFormals => "malformed closure formals"
  | malformedFrame => "malformed environment frame"
  | endlessValue => "value contains itself"

end SyntaxFault

/-- What a keyword asks of its operands. -/
inductive Expectation where
  | number
  | list
  | nonEmptyList
  /-- operands of a kind that can be compared -/
  | comparable
  /-- two operands of one kind -/
  | sameType

/-- The wording of an expectation. -/
def Expectation.message : Expectation → String
  | number => "number"
  | list => "list"
  | nonEmptyList => "non-empty list"
  | comparable => "numbers, strings or atoms"
  | sameType => "operands of the same type"

/-- Why an evaluation fails. -/
inductive EvalError where
  | badSyntax (fault : SyntaxFault)
  | undefinedVariable (name : String)
  | typeMismatch (op : Keyword) (expected : Expectation) (found : String)
  | notAFunction (found : String)
  /-- a string whose opening quote is the character at that offset is not closed -/
  | unterminatedString (offset : Nat)
  | tooDeep (limit : Nat)
  /-- a deferred parameter was read before its argument had been evaluated -/
  | unresolvedDeferred (name : String)
  | allocationFailure (cause : StoreError)
  | invalidHandle (cause : StoreError)

namespace EvalError

def message : EvalError → String
  | badSyntax fault => s!"syntax error: {fault.message}"
  | undefinedVariable name => s!"undefined variable `{name}`"
  | typeMismatch op expected found => s!"{op.name}: expected {expected.message}, got {found}"
  | notAFunction found => s!"not a function: {found}"
  | unterminatedString offset => s!"unterminated string starting at offset {offset}"
  | tooDeep limit => s!"evaluation too nested: max {limit} allowed"
  | unresolvedDeferred name => s!"deferred parameter `{name}` used before its value was computed"
  | allocationFailure cause => s!"allocation failure: {cause.message}"
  | invalidHandle cause => s!"invalid handle: {cause.message}"

/-- A fatal error ends a session; all others are reported and the session goes on. -/
def isFatal : EvalError → Bool
  | allocationFailure _ => true
  | _ => false

/-- A failure of a store, seen by an evaluation. -/
def ofStore (e : StoreError) : EvalError :=
  if e.isExhaustion then allocationFailure e else invalidHandle e

theorem isFatal_ofStore (e : StoreError) : (ofStore e).isFatal = e.isExhaustion := by
  cases e <;> rfl

end EvalError

end BraceLang
