import BraceLang.Proofs.Denotation.Rendering
import BraceLang.Proofs.Plain.Unambiguous

/-!
# How deep data are nested

A value stands for at most one datum that has no closures in it, and it is nested no deeper than
there are cells in its memory: of lists that are nested in each other, each one that is not empty
starts at another cell, as two lists that start at the same cell stand for the same datum. So data
can be written in any memory that is in order, whatever else is in it.

* `Memory.DenotesWithin.data_unique`: the datum of a value.
* `Memory.DenotesWithin.denotes_data`: no more levels are needed than the memory has.
* `Memory.render_data`: the text of data.
-/

namespace BraceLang.Memory

section Lists

variable {α β : Type} {R R' : α → β → Prop} {xs : List α} {ys ys' : List β}

theorem forall₂_and_mem (h : List.Forall₂ R xs ys) :
    List.Forall₂ (fun x y => y ∈ ys ∧ R x y) xs ys :=
  ((List.forall₂_and_left ys xs).mpr ⟨fun _ hy => hy, h.flip⟩).flip

theorem eq_of_forall₂ (h : List.Forall₂ R xs ys) (h' : List.Forall₂ R' xs ys')
    (heq : ∀ y ∈ ys, ∀ x y', R x y → R' x y' → y = y') : ys = ys' := by
  induction h generalizing ys' with
  | nil =>
    cases h'
    rfl
  | @cons x y xs ys hxy _ ih =>
    cases h' with
    | cons hxy' h' =>
      rw [heq y List.mem_cons_self x _ hxy hxy',
        ih h' fun y hy => heq y (List.mem_cons_of_mem _ hy)]

end Lists

variable {m : Memory} {strings : List Char → Prop} {depth depth' n : Nat} {v : Value}
  {d d' : Datum Tokens}

theorem DenotesWithin.exists_succ (h : m.DenotesWithin depth v d) :
    ∃ k, depth = k + 1 ∧ m.DenotesWith (m.DenotesWithin k) v d := by
  cases depth with
  | zero => exact h.elim
  | succ k => exact ⟨k, rfl, h⟩

theorem DenotesWithin.weaken (h : m.DenotesWithin depth v d) (hle : depth ≤ depth') :
    m.DenotesWithin depth' v d := h.mono (.refl m) hle

/-! ## One datum for a value -/

theorem DenotesWithin.data_unique (h : m.DenotesWithin depth v d) (hd : d.IsData strings)
    (h' : m.DenotesWithin depth' v d') : d = d' := by
  induction hd generalizing depth depth' v d' with
  | number =>
    obtain ⟨k, rfl, h⟩ := h.exists_succ
    obtain ⟨k', rfl, h'⟩ := h'.exists_succ
    cases h
    cases h'
    rfl
  | string =>
    obtain ⟨k, rfl, h⟩ := h.exists_succ
    obtain ⟨k', rfl, h'⟩ := h'.exists_succ
    cases h with
    | string hname =>
      cases h' with
      | string hname' => rw [hname.text_eq hname']
  | list _ ih =>
    obtain ⟨k, rfl, h⟩ := h.exists_succ
    obtain ⟨k', rfl, h'⟩ := h'.exists_succ
    cases h with
    | list hchain hitems =>
      cases h' with
      | list hchain' hitems' =>
        obtain rfl := hchain.unique hchain'
        rw [eq_of_forall₂ hitems hitems' fun item hmem _ _ => ih item hmem]

/-! ## Levels -/

/-- The list that starts at a cell stands for a datum that has exactly a number of levels. -/
def StartsAt (m : Memory) (strings : List Char → Prop) (levels : Nat) (first : CellRef) : Prop :=
  ∃ d : Datum Tokens, d.IsData strings ∧ m.DenotesWithin (levels + 1) (.list (.chain first)) d ∧
    ¬ m.DenotesWithin levels (.list (.chain first)) d

/-- A datum with some levels has parts with all numbers of levels below. -/
theorem DenotesWithin.exists_startsAt (hd : d.IsData strings) (h : m.DenotesWithin (n + 1) v d)
    (hnot : ¬ m.DenotesWithin n v d) {levels : Nat} (hpos : 0 < levels) (hle : levels ≤ n) :
    ∃ first, m.StartsAt strings levels first := by
  induction n generalizing v d with
  | zero => omega
  | succ n ih =>
    obtain ⟨values, items, l, rfl, rfl, hchain, hitems, hparts⟩ : ∃ values items l, v = .list l ∧
        d = .list items ∧ m.store.Chain l values ∧
        List.Forall₂ (m.DenotesWithin (n + 1)) values items ∧
        ∀ item ∈ items, item.IsData strings := by
      cases hd with
      | number =>
        cases h
        exact absurd DenotesWith.number hnot
      | string =>
        cases h with
        | string hname => exact absurd (DenotesWith.string hname) hnot
      | list hparts =>
        cases h with
        | list hchain hitems => exact ⟨_, _, _, rfl, rfl, hchain, hitems, hparts⟩
    -- one of the items has as many levels as all that are below the list
    obtain ⟨v, d, hmem, hvd, hdeep⟩ : ∃ v d, d ∈ items ∧ m.DenotesWithin (n + 1) v d ∧
        ¬ m.DenotesWithin n v d := by
      by_contra hnone
      push Not at hnone
      have hflat : List.Forall₂ (m.DenotesWithin n) values items :=
        (forall₂_and_mem hitems).imp fun v d h => hnone v d h.1 h.2
      exact hnot (.list hchain hflat)
    by_cases hall : levels = n + 1
    · subst hall
      cases hchain with
      | nil =>
        cases hitems
        cases hmem
      | @cons first value rest values hcell hrest =>
        exact ⟨first, _, .list hparts, h, hnot⟩
    · exact ih (hparts d hmem) hvd hdeep (by omega)

theorem StartsAt.index_lt (hs : m.store.Layout) {levels : Nat} {first : CellRef}
    (h : m.StartsAt strings levels first) :
    first.generation = m.store.generation ∧ first.index < m.store.used := by
  obtain ⟨d, -, hwithin, -⟩ := h
  cases hwithin with
  | list hchain _ =>
    cases hchain with
    | cons hcell _ => exact ⟨Store.generation_of_cell hcell, hs.index_lt hcell⟩

theorem StartsAt.levels_unique {levels levels' : Nat} {first : CellRef}
    (h : m.StartsAt strings levels first) (h' : m.StartsAt strings levels' first) :
    levels = levels' := by
  obtain ⟨d, hd, hwithin, hnot⟩ := h
  obtain ⟨d', -, hwithin', hnot'⟩ := h'
  obtain rfl := hwithin.data_unique hd hwithin'
  rcases Nat.lt_trichotomy levels levels' with hlt | heq | hgt
  · exact absurd (hwithin.weaken hlt) hnot'
  · exact heq
  · exact absurd (hwithin'.weaken hgt) hnot

/-- There are no more levels than cells, as each one but the last has a cell of its own. -/
theorem levels_le_used (hs : m.store.Layout) (hd : d.IsData strings)
    (h : m.DenotesWithin (n + 1) v d) (hnot : ¬ m.DenotesWithin n v d) : n ≤ m.store.used := by
  have hstarts : ∀ i : Fin n, ∃ first, m.StartsAt strings (i + 1) first := fun i =>
    h.exists_startsAt hd hnot (Nat.succ_pos i) i.isLt
  choose first hfirst using hstarts
  have hinjective : Function.Injective fun i =>
      (⟨(first i).index, ((hfirst i).index_lt hs).2⟩ : Fin m.store.used) := by
    intro i j hij
    have hindex : (first i).index = (first j).index := by simpa using hij
    have hsame : first i = first j := by
      have hi := ((hfirst i).index_lt hs).1
      have hj := ((hfirst j).index_lt hs).1
      cases hci : first i
      cases hcj : first j
      simp_all
    have hlevels := (hfirst i).levels_unique (hsame ▸ hfirst j)
    exact Fin.ext (Nat.succ.inj hlevels)
  simpa using Fintype.card_le_of_injective _ hinjective

theorem DenotesWithin.denotes_data (h : m.DenotesWithin depth v d) (hs : m.store.Layout)
    (hd : d.IsData strings) : m.Denotes v d := by
  induction depth with
  | zero => exact h.elim
  | succ depth ih =>
    by_cases hless : m.DenotesWithin depth v d
    · exact ih hless
    · exact h.weaken (Nat.succ_le_succ (levels_le_used hs hd h hless))

/-! ## The text of data -/

theorem valueWithin_data (hs : m.store.Layout) (hd : d.IsData strings)
    (h : m.DenotesWithin depth v d) {fuel : Nat} (hfuel : depth < fuel) (detail : Detail) :
    m.valueWithin fuel detail v = .ok d.brief := by
  induction hd generalizing depth v fuel with
  | number =>
    obtain ⟨k, rfl, h⟩ := h.exists_succ
    obtain ⟨fuel, rfl⟩ := Nat.exists_eq_add_of_lt hfuel
    cases h
    rw [Datum.brief]
    rfl
  | string =>
    obtain ⟨k, rfl, h⟩ := h.exists_succ
    obtain ⟨fuel, rfl⟩ := Nat.exists_eq_add_of_lt hfuel
    cases h with
    | string hname =>
      simp [valueWithin, valueWith, textOf_eq hname, Datum.brief, Functor.map, Except.map]
  | @list items _ ih =>
    obtain ⟨k, rfl, h⟩ := h.exists_succ
    obtain ⟨fuel, rfl⟩ : ∃ n, fuel = n + 1 := ⟨fuel - 1, by omega⟩
    cases h with
    | list hchain hitems =>
      have hwritten := mapM_eq_ok_of_forall₂ (forall₂_and_mem hitems)
        fun v d h => ih d h.1 h.2 (Nat.lt_of_succ_lt_succ hfuel)
      simp only [valueWithin, valueWith, eachItem_eq hs hchain, hwritten, Datum.brief,
        Datum.briefs_eq_map]
      rfl

/-- Data are written whatever else is in the memory. -/
theorem render_data (hs : m.store.Layout) (hd : d.IsData strings) (h : m.Denotes v d) :
    m.render v = .ok (String.ofList d.brief) := by
  have hfuel : m.store.used + 1 < m.maxNesting := by
    unfold maxNesting
    omega
  unfold render
  rw [valueWithin_data hs hd h hfuel]
  rfl

end BraceLang.Memory
