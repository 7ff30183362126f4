import BraceLang.Memory
import BraceLang.Token.Lexeme

/-!
# Token streams

Scanning turns a text into a list of tokens in the store. Strings and atoms are interned on
the way. As a list grows at its front, the tokens come out last first; reversing the stream
puts them into the order of the text.

A lexer reads one token at a time. After the last token, and after a string that is not
closed, it reports the end of the text as often as it is asked.

* `Lexer.next`: the next token.
* `scan`: all tokens of a text. What was read before a failure stays in memory.
-/

namespace BraceLang

/-- The token of a lexeme. -/
def Lexeme.toValue : Lexeme → MemoryM Value
  | .delimiter c => pure (.delimiter c)
  | .string contents => Value.string <$> Memory.intern (String.ofList contents)
  | .number value => pure (.number value)
  | .keyword k => pure (.keyword k)
  | .atom name => Value.atom <$> Memory.intern (String.ofList name)

/-! ## One token at a time -/

/-- A position in a text. -/
structure Lexer where
  /-- the number of characters of the whole text -/
  length : Nat
  /-- the characters that have not been read -/
  rest : List Char

namespace Lexer

/-- The start of a text. -/
def ofString (text : String) : Lexer := ⟨text.toList.length, text.toList⟩

/-- The position, counted in characters, at which a part begins that reaches to the end. -/
def offsetOf (lexer : Lexer) (part : List Char) : Nat := lexer.length - part.length

/-- Read the next token, which is nothing at the end of the text. -/
def next (lexer : Lexer) (lx : Lexicon) : Except EvalError (Option Lexeme) × Lexer :=
  match lx.read lexer.rest with
  | .finished => (.ok none, { lexer with rest := [] })
  | .unterminated quote =>
    (.error (.unterminatedString (lexer.offsetOf quote)), { lexer with rest := [] })
  | .lexeme token rest => (.ok (some token), { lexer with rest })

end Lexer

/-! ## Whole texts -/

/-- The tokens of a text, last first. -/
structure TokenStream where
  reversed : ListRef := .empty
  length : Nat := 0
deriving DecidableEq, Repr

namespace TokenStream

def isEmpty (stream : TokenStream) : Bool := stream.length == 0

/-- Add the token of a lexeme. -/
def add (stream : TokenStream) (token : Lexeme) : MemoryM TokenStream := do
  let value ← token.toValue
  let reversed ← Memory.ofStoreM (Store.push stream.reversed value)
  pure ⟨reversed, stream.length + 1⟩

/-- The tokens in the order of the text. -/
def forward (stream : TokenStream) : StoreM ListRef := Store.reverse stream.reversed

end TokenStream

/-- Store the tokens of a text. -/
def scan (lx : Lexicon) (text : String) : MemoryM TokenStream := do
  let lexer := Lexer.ofString text
  let (tokens, quote?) := lx.lex lexer.rest
  let stream ← tokens.foldlM TokenStream.add {}
  match quote? with
  | none => pure stream
  | some quote => throw (.unterminatedString (lexer.offsetOf quote))

end BraceLang
