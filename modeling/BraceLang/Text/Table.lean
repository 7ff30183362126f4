import BraceLang.Store.Error
import BraceLang.Text.Symbols

/-!
# The text table

Strings and names of a program are kept once, in a table, and handled by reference. Two
references from one generation of the table are equal exactly when their texts are, so
comparing references compares texts. Clearing the table starts a new generation: references
of an older one are refused, also where their number is in use again.

The symbols of a generation are given out by a table of symbols, which is an array unless
another one is named.

* `TextTable.resolve_intern`: a text that was just interned is read back.
-/

namespace BraceLang

/-- A reference to a text of one generation of a table. -/
structure TextRef where
  symbol : Nat
  generation : Nat
deriving DecidableEq, Repr

/-- The texts interned since the table was last cleared. -/
structure TextTable (σ : Type := Array String) [SymbolTable σ] where
  entries : σ := SymbolTable.empty
  generation : Nat := 0

namespace TextTable

section Operations

variable {σ : Type} [SymbolTable σ] (t : TextTable σ)

/-- The number of texts in the table. -/
def size : Nat := SymbolTable.size t.entries

def isEmpty : Bool := t.size == 0

/-- The reference of a text that is in the table. -/
def find? (text : String) : Option TextRef :=
  (SymbolTable.get? t.entries text).map fun symbol => ⟨symbol, t.generation⟩

/-- The reference of a text, which is added to the table if it is new. -/
def intern (text : String) : TextRef × TextTable σ :=
  let (symbol, entries) := SymbolTable.getOrIntern t.entries text
  (⟨symbol, t.generation⟩, { t with entries })

/-- The text of a reference, which must be of the table's generation. -/
def resolve (ref : TextRef) : Except StoreError String :=
  if ref.generation = t.generation then
    match SymbolTable.resolve? t.entries ref.symbol with
    | some text => .ok text
    | none => .error (.staleText ref.generation)
  else .error (.staleText ref.generation)

/-- Forget all texts and start a new generation. -/
def clear : TextTable σ := ⟨SymbolTable.empty, t.generation + 1⟩

end Operations

/-! ## What the facts about symbols say of references -/

section Lawful

variable {σ : Type} [SymbolTable σ] [LawfulSymbolTable σ] {t : TextTable σ} {text : String}
  {ref : TextRef}

theorem intern_of_find? (h : t.find? text = some ref) : (t.intern text).1 = ref := by
  obtain ⟨symbol, hsymbol, rfl⟩ := Option.map_eq_some_iff.mp h
  simp only [intern, LawfulSymbolTable.getOrIntern_of_get? hsymbol]

theorem find?_intern (t : TextTable σ) (text other : String) :
    (t.intern text).2.find? other =
      if other = text then some (t.intern text).1 else t.find? other := by
  simp only [find?, intern, LawfulSymbolTable.get?_getOrIntern]
  split <;> rfl

theorem resolve_of_find? (h : t.find? text = some ref) : t.resolve ref = .ok text := by
  obtain ⟨symbol, hsymbol, rfl⟩ := Option.map_eq_some_iff.mp h
  simp only [resolve, if_true, LawfulSymbolTable.resolve?_of_get? hsymbol]

theorem resolve_intern (t : TextTable σ) (text : String) :
    (t.intern text).2.resolve (t.intern text).1 = .ok text :=
  resolve_of_find? (by rw [find?_intern, if_pos rfl])

end Lawful

end TextTable

end BraceLang
