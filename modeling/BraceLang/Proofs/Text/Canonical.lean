import Mathlib.Data.Finset.Card
import BraceLang.Text.Table

/-!
# References over the life of a table

A table gives out references when a text is interned and when it is found. The references of one
generation are compared as their texts are, those of different generations are never the same, and
a table follows those of its own generation only. So the references of a whole life of a table can
be told apart, although their numbers are used again in each generation. All this holds over every
table of symbols of which the facts of `LawfulSymbolTable` hold, whatever symbols it gives.

What a table holds is described by the operations alone: the texts interned behind the last time
that it was cleared.

* `TextTable.Issued`: a reference that was given out for a text.
* `TextTable.find?_after`: what is found is what has been interned since, under its reference.
* `TextTable.Issued.eq_iff`: references of a whole life are compared.
* `TextTable.references_canonical`: the references and the texts of a table.
-/

namespace BraceLang

/-- An operation on a text table. -/
inductive TextOp where
  | intern (text : String)
  | find (text : String)
  | resolve (ref : TextRef)
  | clear
deriving DecidableEq

/-- The text that an operation interns. -/
def TextOp.interned? : TextOp → Option String
  | .intern text => some text
  | _ => none

/-- The texts interned since the last time that a table was cleared, the last one first. -/
def liveTexts (ops : List TextOp) : List String :=
  (ops.reverse.takeWhile (· ≠ .clear)).filterMap TextOp.interned?

/-- How often a table was cleared. -/
def clears (ops : List TextOp) : Nat := ops.count .clear

namespace TextTable

section Operations

variable (σ : Type) [SymbolTable σ]

/-- The table behind an operation. To look something up leaves it as it is. -/
def afterOp {σ : Type} [SymbolTable σ] (t : TextTable σ) : TextOp → TextTable σ
  | .intern text => (t.intern text).2
  | .find _ | .resolve _ => t
  | .clear => t.clear

/-- A table behind some operations. -/
def after (ops : List TextOp) : TextTable σ := ops.foldl afterOp {}

/-- The text and the reference for it that an operation gives out. -/
def given? {σ : Type} [SymbolTable σ] (t : TextTable σ) : TextOp → Option (String × TextRef)
  | .intern text => some (text, (t.intern text).1)
  | .find text => (t.find? text).map (text, ·)
  | .resolve _ | .clear => none

/-- One of the operations gave out the reference for the text, when the table had been cleared so
many times. -/
def Issued (ops : List TextOp) (epoch : Nat) (text : String) (ref : TextRef) : Prop :=
  ∃ before op, before ++ [op] <+: ops ∧ epoch = clears before ∧
    (after σ before).given? op = some (text, ref)

end Operations

/-! ## One operation -/

theorem clears_concat (ops : List TextOp) (op : TextOp) :
    clears (ops ++ [op]) = clears ops + if op = .clear then 1 else 0 := by
  rw [clears, List.count_append, List.count_singleton]
  simp [clears]

theorem liveTexts_concat (ops : List TextOp) (op : TextOp) :
    liveTexts (ops ++ [op]) =
      if op = .clear then [] else op.interned?.toList ++ liveTexts ops := by
  unfold liveTexts
  rw [List.reverse_append, List.reverse_singleton, List.singleton_append, List.takeWhile_cons]
  by_cases hclear : op = .clear
  · simp [hclear]
  · simp only [hclear, ne_eq, not_false_eq_true, decide_true, if_true, if_false]
    cases hinterned : op.interned? <;> simp [hinterned]

variable {σ : Type} [SymbolTable σ]

theorem after_concat (ops : List TextOp) (op : TextOp) :
    after σ (ops ++ [op]) = (after σ ops).afterOp op := by
  simp [after]

theorem generation_afterOp (t : TextTable σ) (op : TextOp) :
    (t.afterOp op).generation = t.generation + if op = .clear then 1 else 0 := by
  cases op <;> rfl

theorem generation_after (ops : List TextOp) : (after σ ops).generation = clears ops := by
  induction ops using List.reverseRecOn with
  | nil => rfl
  | append_singleton ops op ih =>
    rw [after_concat, generation_afterOp, clears_concat, ih]

theorem generation_of_find? {t : TextTable σ} {text : String} {ref : TextRef}
    (h : t.find? text = some ref) : ref.generation = t.generation := by
  obtain ⟨symbol, -, rfl⟩ := Option.map_eq_some_iff.mp h
  rfl

variable [LawfulSymbolTable σ]

theorem find?_clear (t : TextTable σ) (text : String) : t.clear.find? text = none := by
  simp only [find?, clear, LawfulSymbolTable.get?_empty, Option.map_none]

theorem size_intern (t : TextTable σ) (text : String) :
    (t.intern text).2.size = if (t.find? text).isSome then t.size else t.size + 1 := by
  simp only [size, intern, find?, Option.isSome_map, LawfulSymbolTable.size_getOrIntern]

/-- What is not cleared away is found under the same reference. -/
theorem find?_afterOp {t : TextTable σ} {op : TextOp} {text : String} {ref : TextRef}
    (hop : op ≠ .clear) (h : t.find? text = some ref) :
    (t.afterOp op).find? text = some ref := by
  cases op with
  | intern other =>
    simp only [afterOp, find?_intern]
    split
    · rename_i heq
      rw [intern_of_find? (heq ▸ h)]
    · exact h
  | find other => exact h
  | resolve other => exact h
  | clear => exact absurd rfl hop

theorem find?_of_given? {t : TextTable σ} {op : TextOp} {text : String} {ref : TextRef}
    (h : t.given? op = some (text, ref)) :
    op ≠ .clear ∧ (t.afterOp op).find? text = some ref := by
  cases op with
  | intern other =>
    cases h
    exact ⟨nofun, by rw [afterOp, find?_intern, if_pos rfl]⟩
  | find other =>
    obtain ⟨found, hfind, hpair⟩ := Option.map_eq_some_iff.mp h
    cases hpair
    exact ⟨nofun, hfind⟩
  | resolve other => cases h
  | clear => cases h

/-! ## Many operations -/

theorem isSome_find?_after (ops : List TextOp) (text : String) :
    ((after σ ops).find? text).isSome = decide (text ∈ liveTexts ops) := by
  induction ops using List.reverseRecOn with
  | nil => simp [after, find?, LawfulSymbolTable.get?_empty, liveTexts]
  | append_singleton ops op ih =>
    rw [after_concat, liveTexts_concat]
    cases op with
    | intern other =>
      simp only [afterOp, find?_intern]
      by_cases heq : text = other <;> simp [heq, ih, TextOp.interned?]
    | find other => simpa [afterOp, TextOp.interned?] using ih
    | resolve ref => simpa [afterOp, TextOp.interned?] using ih
    | clear => simp [afterOp, find?_clear]

/-- Exactly the texts that were interned since the table was last cleared are found, under the
references that interning them again gives. -/
theorem find?_after (ops : List TextOp) (text : String) :
    (after σ ops).find? text =
      if text ∈ liveTexts ops then some ((after σ ops).intern text).1 else none := by
  have hlive := isSome_find?_after (σ := σ) ops text
  cases hfind : (after σ ops).find? text with
  | some ref =>
    rw [hfind] at hlive
    rw [if_pos (of_decide_eq_true hlive.symm), intern_of_find? hfind]
  | none =>
    rw [hfind] at hlive
    rw [if_neg (of_decide_eq_false hlive.symm)]

theorem size_after (ops : List TextOp) : (after σ ops).size = (liveTexts ops).toFinset.card := by
  induction ops using List.reverseRecOn with
  | nil => exact LawfulSymbolTable.size_empty
  | append_singleton ops op ih =>
    rw [after_concat, liveTexts_concat]
    cases op with
    | intern text =>
      simp only [afterOp, size_intern, isSome_find?_after, ih]
      simp [TextOp.interned?, Finset.card_insert_eq_ite]
    | find text => simpa [afterOp, TextOp.interned?] using ih
    | resolve ref => simpa [afterOp, TextOp.interned?] using ih
    | clear => exact LawfulSymbolTable.size_empty

/-! ## References -/

namespace Issued

variable {ops ops' : List TextOp} {epoch epoch' : Nat} {text text' : String} {ref ref' : TextRef}

omit [LawfulSymbolTable σ] in
theorem mono (h : Issued σ ops epoch text ref) (hops : ops <+: ops') :
    Issued σ ops' epoch text ref := by
  obtain ⟨before, op, hfront, hrest⟩ := h
  exact ⟨before, op, hfront.trans hops, hrest⟩

/-- The reference has the generation in which it was given out, and while that lasts its text is
found under it. -/
theorem generation_and_find? (h : Issued σ ops epoch text ref) :
    ref.generation = epoch ∧ (epoch = clears ops → (after σ ops).find? text = some ref) := by
  obtain ⟨before, op, ⟨rest, rfl⟩, rfl, hgiven⟩ := h
  obtain ⟨hop, hfind⟩ := find?_of_given? hgiven
  rw [← after_concat] at hfind
  have hclears : clears (before ++ [op]) = clears before := by
    rw [clears_concat, if_neg hop, Nat.add_zero]
  refine ⟨?_, fun hlast => ?_⟩
  · rw [generation_of_find? hfind, generation_after, hclears]
  · induction rest using List.reverseRecOn with
    | nil => rwa [List.append_nil]
    | append_singleton rest last ih =>
      rw [← List.append_assoc] at hlast ⊢
      rw [clears_concat] at hlast
      have hmore : clears before ≤ clears (before ++ [op] ++ rest) :=
        List.Sublist.count_le _ (by simp)
      have hlast' : last ≠ .clear := by
        intro hclear
        rw [if_pos hclear] at hlast
        omega
      rw [if_neg hlast', Nat.add_zero] at hlast
      rw [after_concat]
      exact find?_afterOp hlast' (ih hlast)

theorem resolve_eq (h : Issued σ ops epoch text ref) :
    (after σ ops).resolve ref =
      if epoch = clears ops then .ok text else .error (.staleText ref.generation) := by
  obtain ⟨hgeneration, hfind⟩ := h.generation_and_find?
  by_cases hepoch : epoch = clears ops
  · rw [if_pos hepoch]
    exact resolve_of_find? (hfind hepoch)
  · have hother : ref.generation ≠ (after σ ops).generation := by
      rwa [hgeneration, generation_after]
    rw [if_neg hepoch, resolve, if_neg hother]

/-- Of two references, both have been given out when the second one is. -/
theorem common (h : Issued σ ops epoch text ref) (h' : Issued σ ops epoch text' ref') :
    ∃ ops', Issued σ ops' epoch text ref ∧ Issued σ ops' epoch text' ref' ∧
      epoch = clears ops' := by
  have hends : ∀ {text ref before op}, epoch = clears before →
      (after σ before).given? op = some (text, ref) → epoch = clears (before ++ [op]) := by
    intro text ref before op hepoch hgiven
    rw [clears_concat, if_neg (find?_of_given? hgiven).1]
    exact hepoch
  obtain ⟨before, op, hfront, hepoch, hgiven⟩ := h
  obtain ⟨before', op', hfront', hepoch', hgiven'⟩ := h'
  have hfirst : Issued σ (before ++ [op]) epoch text ref :=
    ⟨before, op, List.prefix_refl _, hepoch, hgiven⟩
  have hsecond : Issued σ (before' ++ [op']) epoch text' ref' :=
    ⟨before', op', List.prefix_refl _, hepoch', hgiven'⟩
  rcases Nat.le_total (before ++ [op]).length (before' ++ [op']).length with hle | hle
  · have hinside := List.prefix_of_prefix_length_le hfront hfront' hle
    exact ⟨_, hfirst.mono hinside, hsecond, hends hepoch' hgiven'⟩
  · have hinside := List.prefix_of_prefix_length_le hfront' hfront hle
    exact ⟨_, hfirst, hsecond.mono hinside, hends hepoch hgiven⟩

/-- References are equal exactly when they were given out for equal texts, and the table was not
cleared in between. -/
theorem eq_iff (h : Issued σ ops epoch text ref) (h' : Issued σ ops epoch' text' ref') :
    ref = ref' ↔ text = text' ∧ epoch = epoch' := by
  by_cases hepoch : epoch = epoch'
  · subst hepoch
    obtain ⟨ops', hfirst, hsecond, hlast⟩ := h.common h'
    have hfind := hfirst.generation_and_find?.2 hlast
    have hfind' := hsecond.generation_and_find?.2 hlast
    constructor
    · rintro rfl
      have hresolve := resolve_of_find? hfind
      rw [resolve_of_find? hfind'] at hresolve
      exact ⟨(Except.ok.inj hresolve).symm, rfl⟩
    · rintro ⟨rfl, -⟩
      exact Option.some.inj (hfind.symm.trans hfind')
  · have hne : ref ≠ ref' := by
      rintro rfl
      exact hepoch (h.generation_and_find?.1.symm.trans h'.generation_and_find?.1)
    simp [hepoch, hne]

end Issued

/-- Over the whole life of a table, references are equal exactly when they were given out for equal
texts in one generation. A reference is good for its text as long as its generation lasts, and
refused with that generation from then on. Exactly what was interned in the last generation is
found, under the reference that interning gives, and counts in the size, once for each text. -/
theorem references_canonical (σ : Type) [SymbolTable σ] [LawfulSymbolTable σ] (ops : List TextOp) :
    (∀ epoch text ref, Issued σ ops epoch text ref →
      ref.generation = epoch ∧
      (after σ ops).resolve ref =
        (if epoch = clears ops then .ok text else .error (.staleText ref.generation)) ∧
      ∀ epoch' text' ref', Issued σ ops epoch' text' ref' →
        (ref = ref' ↔ text = text' ∧ epoch = epoch')) ∧
    (∀ text, after σ (ops ++ [.find text]) = after σ ops ∧
      (after σ ops).find? text =
        if text ∈ liveTexts ops then some ((after σ ops).intern text).1 else none) ∧
    (after σ ops).size = (liveTexts ops).toFinset.card := by
  refine ⟨fun epoch text ref h => ?_, fun text => ?_, size_after ops⟩
  · exact ⟨h.generation_and_find?.1, h.resolve_eq, fun _ _ _ h' => h.eq_iff h'⟩
  · exact ⟨after_concat ops _, find?_after ops text⟩

/-- A text is cleared away, and another one is interned and found again, over an array. -/
theorem references_canonical_reused :
    let ops : List TextOp := [.intern "x", .clear, .intern "y", .find "y"]
    let first := ((after (Array String) []).intern "x").1
    let second := ((after (Array String) [.intern "x", .clear]).intern "y").1
    first.symbol = second.symbol ∧ first ≠ second ∧
      (after (Array String) ops).resolve first = .error (.staleText 0) ∧
      (after (Array String) ops).resolve second = .ok "y" ∧
      (after (Array String) ops).size = 1 := by
  intro ops first second
  obtain ⟨hrefs, -, hsize⟩ := references_canonical (Array String) ops
  have hfirst : Issued (Array String) ops 0 "x" first := ⟨[], .intern "x", ⟨_, rfl⟩, rfl, rfl⟩
  have hsecond : Issued (Array String) ops 1 "y" second :=
    ⟨[.intern "x", .clear], .intern "y", ⟨[.find "y"], rfl⟩, by decide, rfl⟩
  obtain ⟨-, hstale, hsame⟩ := hrefs 0 "x" first hfirst
  obtain ⟨-, hgood, -⟩ := hrefs 1 "y" second hsecond
  refine ⟨by decide +kernel, fun heq => ?_, hstale, hgood, hsize⟩
  exact absurd ((hsame 1 "y" second hsecond).mp heq).2 (by decide)

end TextTable

end BraceLang
