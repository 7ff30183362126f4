import Mathlib.Data.List.Basic
import BraceLang.Text.Table

/-!
# Texts and their references

The texts of a table stand in an array. If none of them stands there twice, a text has one reference
and a reference one text. Interning keeps it so, and keeps every reference good for the text that it
had.

* `TextTable.Names`: the reference of a text.
* `TextTable.Names.eq_iff`: references are compared as their texts are.
* `TextTable.Distinct.intern`, `TextTable.Names.intern`: what interning keeps.
-/

namespace BraceLang.TextTable

/-- The reference is that of the text. -/
def Names (t : TextTable) (ref : TextRef) (text : List Char) : Prop :=
  t.resolve ref = .ok (String.ofList text)

/-- No text stands in the table twice. -/
def Distinct (t : TextTable) : Prop :=
  ∀ (i j : Nat) (text : String), t.entries[i]? = some text → t.entries[j]? = some text → i = j

theorem resolve_eq_ok_iff {t : TextTable} {ref : TextRef} {text : String} :
    t.resolve ref = .ok text ↔
      ref.generation = t.generation ∧ t.entries[ref.symbol]? = some text := by
  simp only [resolve, SymbolTable.resolve?]
  by_cases hgeneration : ref.generation = t.generation
  · cases hget : t.entries[ref.symbol]? <;> simp [hgeneration]
  · simp [hgeneration]

namespace Names

variable {t : TextTable} {ref ref' : TextRef} {text text' : List Char}

theorem text_eq (h : t.Names ref text) (h' : t.Names ref text') : text = text' := by
  unfold Names at h h'
  rw [h, Except.ok.injEq, String.ofList_inj] at h'
  exact h'

theorem ref_eq (ht : t.Distinct) (h : t.Names ref text) (h' : t.Names ref' text) : ref = ref' := by
  obtain ⟨hgeneration, hget⟩ := resolve_eq_ok_iff.mp h
  obtain ⟨hgeneration', hget'⟩ := resolve_eq_ok_iff.mp h'
  have hsymbol := ht _ _ _ hget hget'
  cases ref
  cases ref'
  simp_all

/-- References are equal exactly when their texts are. -/
theorem eq_iff (ht : t.Distinct) (h : t.Names ref text) (h' : t.Names ref' text') :
    ref = ref' ↔ text = text' := by
  constructor
  · rintro rfl
    exact h.text_eq h'
  · rintro rfl
    exact h.ref_eq ht h'

theorem beq_eq (ht : t.Distinct) (h : t.Names ref text) (h' : t.Names ref' text') :
    (ref == ref') = (text == text') := by
  rw [Bool.eq_iff_iff, beq_iff_eq, beq_iff_eq]
  exact h.eq_iff ht h'

end Names

/-! ## Interning -/

/-- A text is found, or it is not in the table and put behind the others. -/
theorem intern_cases (t : TextTable) (text : String) :
    (∃ ref, t.intern text = (ref, t) ∧ t.resolve ref = .ok text) ∨
    ((∀ i : Nat, t.entries[i]? ≠ some text) ∧
      t.intern text =
        (⟨t.entries.size, t.generation⟩, { t with entries := t.entries.push text })) := by
  simp only [intern, SymbolTable.getOrIntern]
  cases hfind : t.entries.findIdx? (· == text) with
  | some symbol =>
    refine Or.inl ⟨⟨symbol, t.generation⟩, rfl, resolve_of_find? ?_⟩
    simp only [find?, SymbolTable.get?, hfind, Option.map_some]
  | none =>
    refine Or.inr ⟨fun i hi => ?_, rfl⟩
    have hnew := Array.findIdx?_eq_none_iff.mp hfind text (Array.mem_of_getElem? hi)
    simp at hnew

theorem Distinct.intern {t : TextTable} (ht : t.Distinct) (text : String) :
    (t.intern text).2.Distinct := by
  rcases t.intern_cases text with ⟨ref, hintern, -⟩ | ⟨hnew, hintern⟩
  · rwa [hintern]
  · rw [hintern]
    intro i j other hi hj
    simp only [Array.getElem?_push] at hi hj
    split at hi
    · cases hi
      split at hj
      · omega
      · exact absurd hj (hnew j)
    · split at hj
      · cases hj
        exact absurd hi (hnew i)
      · exact ht i j other hi hj

theorem Distinct.empty (generation : Nat) : Distinct ⟨#[], generation⟩ := by
  intro i j text hi
  simp at hi

theorem Distinct.clear (t : TextTable) : t.clear.Distinct := .empty _

theorem Names.intern {t : TextTable} {ref : TextRef} {text : List Char} (h : t.Names ref text)
    (other : String) : (t.intern other).2.Names ref text := by
  rcases t.intern_cases other with ⟨found, hintern, -⟩ | ⟨-, hintern⟩
  · rwa [hintern]
  · obtain ⟨hgeneration, hget⟩ := resolve_eq_ok_iff.mp h
    have hlt := (Array.getElem?_eq_some_iff.mp hget).1
    rw [hintern]
    refine resolve_eq_ok_iff.mpr ⟨hgeneration, ?_⟩
    rw [Array.getElem?_push, if_neg (Nat.ne_of_lt hlt), hget]

theorem generation_intern (t : TextTable) (text : String) :
    (t.intern text).2.generation = t.generation := by
  rcases t.intern_cases text with ⟨found, hintern, -⟩ | ⟨-, hintern⟩ <;> rw [hintern]

theorem names_intern (t : TextTable) (text : List Char) :
    (t.intern (String.ofList text)).2.Names (t.intern (String.ofList text)).1 text :=
  resolve_intern t (String.ofList text)

end BraceLang.TextTable
