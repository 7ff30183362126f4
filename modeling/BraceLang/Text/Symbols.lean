/-!
# Tables of symbols

A text table leaves its texts to a table that gives each of them a number, its symbol. The text
table uses five functions of it and relies on five facts: what is new gets a symbol that is found
from then on, the other texts keep theirs, and a symbol that is found leads back to its text. Which
numbers are given is not among these facts.

* `SymbolTable`: the functions.
* `LawfulSymbolTable`: the facts.
* An array of texts is a table that numbers them in the order of their arrival.
-/

namespace BraceLang

/-- A table that keeps texts under symbols. -/
class SymbolTable (σ : Type) where
  /-- a table without texts -/
  empty : σ
  /-- the symbol of a text that is in the table -/
  get? : σ → String → Option Nat
  /-- the symbol of a text, which is added to the table if it is new -/
  getOrIntern : σ → String → Nat × σ
  /-- the text of a symbol -/
  resolve? : σ → Nat → Option String
  /-- the number of texts -/
  size : σ → Nat

open SymbolTable in
/-- In a table, symbols belong to the texts that were added to it. -/
class LawfulSymbolTable (σ : Type) [SymbolTable σ] : Prop where
  get?_empty (text : String) : get? (empty : σ) text = none
  getOrIntern_of_get? {table : σ} {text : String} {symbol : Nat} :
    get? table text = some symbol → (getOrIntern table text).1 = symbol
  get?_getOrIntern (table : σ) (text other : String) :
    get? (getOrIntern table text).2 other =
      if other = text then some (getOrIntern table text).1 else get? table other
  resolve?_of_get? {table : σ} {text : String} {symbol : Nat} :
    get? table text = some symbol → resolve? table symbol = some text
  size_empty : size (empty : σ) = 0
  size_getOrIntern (table : σ) (text : String) :
    size (getOrIntern table text).2 =
      if (get? table text).isSome then size table else size table + 1

/-! ## Texts in an array -/

instance : SymbolTable (Array String) where
  empty := #[]
  get? texts text := texts.findIdx? (· == text)
  getOrIntern texts text :=
    match texts.findIdx? (· == text) with
    | some symbol => (symbol, texts)
    | none => (texts.size, texts.push text)
  resolve? texts symbol := texts[symbol]?
  size := Array.size

instance : LawfulSymbolTable (Array String) where
  get?_empty _ := by simp [SymbolTable.get?, SymbolTable.empty]
  getOrIntern_of_get? h := by
    simp only [SymbolTable.get?] at h
    simp only [SymbolTable.getOrIntern, h]
  get?_getOrIntern texts text other := by
    simp only [SymbolTable.get?, SymbolTable.getOrIntern]
    cases h : texts.findIdx? (· == text) with
    | some symbol =>
      by_cases hother : other = text
      · simp only [hother, h, if_true]
      · simp only [hother, if_false]
    | none =>
      rw [Array.findIdx?_push]
      by_cases hother : other = text
      · simp [hother, h]
      · simp [hother, Ne.symm hother]
  resolve?_of_get? {texts text symbol} h := by
    obtain ⟨hlt, htext, -⟩ := Array.findIdx?_eq_some_iff_getElem.mp h
    simpa [SymbolTable.resolve?, Array.getElem?_eq_getElem hlt] using htext
  size_empty := rfl
  size_getOrIntern texts text := by
    simp only [SymbolTable.get?, SymbolTable.getOrIntern, SymbolTable.size]
    cases texts.findIdx? (· == text) <;> simp

end BraceLang
