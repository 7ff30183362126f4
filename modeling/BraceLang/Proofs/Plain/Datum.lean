import BraceLang.Error
import BraceLang.Rendering
import BraceLang.Token.Lexeme

/-!
# Values without a memory

A `Datum` is what a value of an evaluation stands for, with its lists, texts, formal parameters,
bodies and environments written out. Deferred bindings are the exception: as a binding can refer to
the closure that holds it, they stay references to slots, and the content of the slots is kept
apart.

The bodies of closures are of any type: token lists for evaluation as the program does it, syntax
trees for a semantics on trees.

* `Datum.brief`, `Datum.full`: the text of a datum.
* `Fault`: the failures that a program can bring about. The others say that the memory is not in
  order.
-/

namespace BraceLang

/-! ## Failures -/

/-- Whether the fault is not in the program but in the lists that represent its values. -/
def SyntaxFault.isInternal : SyntaxFault → Bool
  | malformedClosure | malformedFormals | malformedFrame | endlessValue => true
  | _ => false

/-- Whether the failure says that the memory is not in order. -/
def EvalError.isInternal : EvalError → Bool
  | badSyntax fault => fault.isInternal
  | invalidHandle _ => true
  | _ => false

/-- What can be wrong with the form of a program. -/
abbrev FormFault := { fault : SyntaxFault // fault.isInternal = false }

/-- The failures that a program can bring about. -/
abbrev Fault := { e : EvalError // e.isInternal = false }

namespace FormFault

/-- A fault of the form. -/
def toFault (fault : FormFault) : Fault := ⟨.badSyntax fault.val, fault.property⟩

/-- The program ends where a term has to follow. -/
def endOfText : FormFault := ⟨.endOfText, rfl⟩

/-- A call has fewer arguments than parameters. -/
def tooFewArguments : FormFault := ⟨.tooFewArguments, rfl⟩

/-- A call has more arguments than parameters. -/
def tooManyArguments : FormFault := ⟨.tooManyArguments, rfl⟩

/-- A deferred argument has no tokens. -/
def missingArgument : FormFault := ⟨.missingArgument, rfl⟩

/-- A token stands where a term has to begin. -/
def notExpected (text : String) : FormFault := ⟨.notExpected text, rfl⟩

/-- A closing delimiter has to follow. -/
def closerExpected (delimiter : Char) : FormFault := ⟨.closerExpected delimiter, rfl⟩

end FormFault

/-- A value that is called is not a function. -/
def Fault.notAFunction (text : String) : Fault := ⟨.notAFunction text, rfl⟩

/-! ## Values -/

/-- A part of a program. -/
abbrev Tokens := List Lexeme

/-- A formal parameter with the text of its name. -/
structure Param where
  mode : BindingMode
  name : List Char
deriving DecidableEq, Repr

mutual

/-- What a value stands for. -/
inductive Datum (β : Type) where
  | number (n : Float)
  | string (text : List Char)
  | list (items : List (Datum β))
  | closure (params : List Param) (body : β) (scope : List (List (List Char × Bound β)))

/-- What a name is bound to: a value, or the value of a deferred argument when there is one. -/
inductive Bound (β : Type) where
  | value (datum : Datum β)
  | slot (index : Nat)

end

/-- The bindings of a call. -/
abbrev Frame (β : Type) := List (List Char × Bound β)

/-- Frames, the newest first. -/
abbrev Scope (β : Type) := List (Frame β)

/-- The values of deferred arguments, as far as they have one. -/
abbrev Slots (β : Type) := Array (Option (Datum β))

/-- The first binding of a name in the newest frame that has one. -/
def Scope.lookup {β : Type} (scope : Scope β) (name : List Char) : Option (Bound β) :=
  scope.findSome? (·.lookup name)

/-- The value in a slot. -/
def Slots.value? {β : Type} (slots : Slots β) (index : Nat) : Option (Datum β) :=
  slots[index]?.join

namespace Datum

variable {β : Type}

def typeName : Datum β → String
  | number _ => "number"
  | string _ => "string"
  | list _ => "list"
  | closure _ _ _ => "closure"

/-- One for what is true and zero for what is false. -/
def ofBool (flag : Bool) : Datum β := number (if flag then 1 else 0)

def number? : Datum β → Option Float
  | number n => some n
  | _ => none

def list? : Datum β → Option (List (Datum β))
  | list items => some items
  | _ => none

end Datum

/-! ## Texts -/

namespace Lexeme

def isDelimiter (c : Char) : Lexeme → Bool
  | delimiter d => d == c
  | _ => false

def text : Lexeme → List Char
  | delimiter c => [c]
  | string contents => Memory.quoted contents
  | number value => (displayNumber value).toList
  | keyword k => k.name.toList
  | atom name => name

/-- No space stands behind an opening delimiter. -/
def opens (token : Lexeme) : Bool :=
  token.isDelimiter '(' || token.isDelimiter '{' || token.isDelimiter '!'

/-- No space stands in front of a closing delimiter. -/
def closes (token : Lexeme) : Bool :=
  token.isDelimiter ')' || token.isDelimiter '}' || token.isDelimiter ',' || token.isDelimiter ':'

/-- Tokens with the spacing of program text. The flag says that no space may come first. -/
def spaced : Bool → Tokens → List Char
  | _, [] => []
  | glued, token :: rest =>
    (if glued || closes token then token.text else ' ' :: token.text) ++ spaced (opens token) rest

end Lexeme

def Param.text (p : Param) : List Char := if p.mode = .deferred then '!' :: p.name else p.name

/-- A closure with what follows on its environment. -/
def closureText (params : List Param) (body : Tokens) (scope : List Char) : List Char :=
  '{' :: [' '].intercalate (params.map Param.text) ++ ':' ::
    (if body.isEmpty then [] else ' ' :: Lexeme.spaced true body) ++ '}' :: scope

namespace Datum

mutual

/-- The text of a datum, with a mark for the environments in it. -/
def brief : Datum Tokens → List Char
  | number n => (displayNumber n).toList
  | string text => Memory.quoted text
  | list items => Memory.bracketed (Memory.commas (briefs items))
  | closure params body scope =>
    closureText params body (if scope.isEmpty then [] else " where ...".toList)

def briefs : List (Datum Tokens) → List (List Char)
  | [] => []
  | item :: items => item.brief :: briefs items

end

theorem briefs_eq_map (items : List (Datum Tokens)) : briefs items = items.map brief := by
  induction items with
  | nil => rfl
  | cons item items ih => simp [briefs, ih]

end Datum

section Full

variable (slots : Slots Tokens)

def Bound.text : Bound Tokens → List Char
  | value datum => datum.brief
  | slot index =>
    match slots.value? index with
    | some datum => datum.brief
    | none => "<pending>".toList

def Frame.text (frame : Frame Tokens) : List Char :=
  Memory.bracketed (Memory.commas (frame.map fun (name, bound) => name ++ '=' :: bound.text slots))

def Scope.text (scope : Scope Tokens) : List Char :=
  " where ".toList ++ Memory.bracketed (Memory.commas (scope.map (Frame.text slots)))

namespace Datum

mutual

/-- The text of a datum, with the environments of closures that are not inside other ones. -/
def full : Datum Tokens → List Char
  | number n => (displayNumber n).toList
  | string text => Memory.quoted text
  | list items => Memory.bracketed (Memory.commas (fulls items))
  | closure params body scope =>
    closureText params body (if scope.isEmpty then [] else Scope.text slots scope)

def fulls : List (Datum Tokens) → List (List Char)
  | [] => []
  | item :: items => item.full :: fulls items

end

theorem fulls_eq_map (items : List (Datum Tokens)) :
    fulls slots items = items.map (full slots) := by
  induction items with
  | nil => rfl
  | cons item items ih => simp [fulls, ih]

end Datum

end Full

end BraceLang
