import BraceLang.Proofs.Store.Sequences

/-!
# Handles of earlier generations

A store gives out handles of its generation only, and the generation never goes back. So no handle
that was given out before a reset is good for anything behind it, whatever has been done since, and
whether or not its place is in use again.

* `Handle.UpTo`: handles that stem from a generation or an earlier one.
* `Handle.RefusedBy`: handles that a store cannot be made to follow.
* `Store.refused_after_reset`: what was given out before a reset is refused behind it.
-/

namespace BraceLang

/-- The handle stems from the generation or an earlier one. The empty list stems from none. -/
def Handle.UpTo (generation : Nat) : Handle → Prop
  | .cell ref => ref.generation ≤ generation
  | .list .empty => True
  | .list (.chain first) => first.generation ≤ generation
  | .slot ref => ref.generation ≤ generation
  | .nothing => True

theorem Handle.UpTo.mono {generation generation' : Nat} {handle : Handle}
    (h : handle.UpTo generation) (hle : generation ≤ generation') : handle.UpTo generation' := by
  cases handle with
  | cell ref => exact Nat.le_trans h hle
  | list l =>
    cases l with
    | empty => exact trivial
    | chain first => exact Nat.le_trans h hle
  | slot ref => exact Nat.le_trans h hle
  | nothing => exact trivial

/-- No reading follows the handle, and no slot is filled through it. -/
def Handle.RefusedBy (s : Store) : Handle → Prop
  | .cell ref => s.cell ref = .error (.staleCell ref.index)
  | .list .empty => True
  | .list (.chain first) =>
    s.split (.chain first) = .error (.staleCell first.index) ∧
      s.head? (.chain first) = .error (.staleCell first.index) ∧
      s.tail (.chain first) = .error (.staleCell first.index) ∧
      s.items (.chain first) = [.error (.staleCell first.index)] ∧
      s.toList (.chain first) = .error (.staleCell first.index) ∧
      s.length (.chain first) = .error (.staleCell first.index)
  | .slot ref => s.slot ref = .error (.staleCell ref.index) ∧
      ∀ value, Store.fill ref value s = .error (.staleCell ref.index) s
  | .nothing => True

namespace Store

variable {s s' : Store}

/-! ## What is refused -/

theorem items_of_stale {first : CellRef} (h : first.generation ≠ s.generation) :
    s.items (.chain first) = [.error (.staleCell first.index)] := by
  have hsplit : s.split (.chain first) = .error (.staleCell first.index) := by
    simp [split, cell_eq_error_of_generation h, Except.map]
  have hmost := s.used_lt_maxSteps
  obtain ⟨steps, hsteps⟩ : ∃ k, s.maxSteps = k + 1 := ⟨s.maxSteps - 1, by omega⟩
  unfold items
  rw [hsteps]
  simp only [itemsWithin, hsplit]

theorem toList_of_stale {first : CellRef} (h : first.generation ≠ s.generation) :
    s.toList (.chain first) = .error (.staleCell first.index) := by
  unfold toList
  rw [items_of_stale h]
  rfl

theorem refusedBy_of_upTo {handle : Handle} {generation : Nat} (h : handle.UpTo generation)
    (hlater : generation < s.generation) : handle.RefusedBy s := by
  cases handle with
  | cell ref =>
    have hne : ref.generation ≠ s.generation := Nat.ne_of_lt (Nat.lt_of_le_of_lt h hlater)
    exact cell_eq_error_of_generation hne
  | list l =>
    cases l with
    | empty => exact trivial
    | chain first =>
      have hne : first.generation ≠ s.generation := Nat.ne_of_lt (Nat.lt_of_le_of_lt h hlater)
      have hsplit : s.split (.chain first) = .error (.staleCell first.index) := by
        simp [split, cell_eq_error_of_generation hne, Except.map]
      refine ⟨hsplit, ?_, ?_, items_of_stale hne, toList_of_stale hne, ?_⟩
      · simp [head?, hsplit, Except.map]
      · simp [tail, hsplit, Except.map]
      · simp [length, toList_of_stale hne, Except.map]
  | slot ref =>
    have hne : ref.generation ≠ s.generation := Nat.ne_of_lt (Nat.lt_of_le_of_lt h hlater)
    have hslot := slot_eq_error_of_generation hne
    exact ⟨hslot, fun value => by simp only [fill, hslot]⟩
  | nothing => exact trivial

/-! ## What is given out -/

/-- Lists that the action gives stem from the generation of the store behind it. -/
def GivesRecent (action : StoreM ListRef) : Prop :=
  ∀ s l s', action s = .ok l s' → s'.Recent l

theorem Recent.of_grows {l : ListRef} (h : s.Recent l) (hgrows : s.Grows s') : s'.Recent l := by
  cases l with
  | empty => exact trivial
  | chain first => exact h.trans (extends_of_grows hgrows).generation.symm

theorem alloc_generation {value : Value} {next : ListRef} {ref : CellRef}
    (h : alloc value next s = .ok ref s') : ref.generation = s'.generation := by
  rw [alloc_apply] at h
  split at h
  · cases h
  · split at h
    · cases h
    · cases h
      rfl

theorem givesRecent_push (l : ListRef) (value : Value) : GivesRecent (push l value) := by
  intro s l' s' h
  rw [push, ← bind_pure_comp] at h
  obtain ⟨ref, t, halloc, hend⟩ := bind_eq_ok_iff.mp h
  cases hend
  exact alloc_generation halloc

theorem givesRecent_ofList (values : List Value) : GivesRecent (ofList values) := by
  intro s l s' h
  cases values with
  | nil =>
    cases h
    exact trivial
  | cons value values =>
    rw [ofList_cons] at h
    obtain ⟨rest, t, -, hpush⟩ := bind_eq_ok_iff.mp h
    exact givesRecent_push rest value t l s' hpush

theorem recent_of_reverseOnto {steps : Nat} {onto l l' : ListRef} (honto : s.Recent onto)
    (h : reverseOnto steps onto l s = .ok l' s') : s'.Recent l' := by
  induction steps generalizing s onto l with
  | zero =>
    cases h
    exact honto
  | succ steps ih =>
    obtain ⟨parts, t, hread, hrest⟩ := bind_eq_ok_iff.mp h
    have hgrows := (keeps_read _).of_ok hread
    cases parts with
    | none =>
      cases hrest
      exact honto.of_grows hgrows
    | some parts =>
      obtain ⟨onto', t', hpush, hloop⟩ := bind_eq_ok_iff.mp hrest
      exact ih (givesRecent_push _ _ _ _ _ hpush) hloop

theorem givesRecent_reverse (l : ListRef) : GivesRecent (reverse l) := by
  intro s l' s' h
  unfold reverse at h
  rw [bind_of_ok (rfl : (get : StoreM Store) s = .ok s s)] at h
  have hempty : s.Recent .empty := trivial
  exact recent_of_reverseOnto hempty h

theorem upTo_of_givesRecent {action : StoreM ListRef} (hrecent : GivesRecent action)
    {handle : Handle} (h : (Handle.list <$> action) s = .ok handle s') :
    handle.UpTo s'.generation := by
  rw [← bind_pure_comp] at h
  obtain ⟨l, t, hrun, hend⟩ := bind_eq_ok_iff.mp h
  cases hend
  have hl := hrecent _ _ _ hrun
  cases l with
  | empty => exact trivial
  | chain first => exact Nat.le_of_eq hl

/-- Handles that are given out stem from the generation of the store, which may be new. -/
theorem upTo_of_onStore {op : StoreOp} {handle : Handle} (h : op.onStore s = .ok handle s') :
    handle.UpTo s'.generation := by
  cases op with
  | alloc value next =>
    change (Handle.cell <$> alloc value next) s = .ok handle s' at h
    rw [← bind_pure_comp] at h
    obtain ⟨ref, t, halloc, hend⟩ := bind_eq_ok_iff.mp h
    cases hend
    exact Nat.le_of_eq (alloc_generation halloc)
  | push l value => exact upTo_of_givesRecent (givesRecent_push l value) h
  | ofList values => exact upTo_of_givesRecent (givesRecent_ofList values) h
  | reverse l => exact upTo_of_givesRecent (givesRecent_reverse l) h
  | newSlot name tokens =>
    change (Handle.slot <$> newSlot name tokens) s = .ok handle s' at h
    rw [← bind_pure_comp] at h
    obtain ⟨ref, t, hnew, hend⟩ := bind_eq_ok_iff.mp h
    cases hend
    obtain ⟨-, rfl, rfl⟩ := newSlot_eq_ok_iff.mp hnew
    exact Nat.le_refl _
  | fill ref value =>
    change ((fun _ => Handle.nothing) <$> fill ref value) s = .ok handle s' at h
    rw [← bind_pure_comp] at h
    obtain ⟨u, t, -, hend⟩ := bind_eq_ok_iff.mp h
    cases hend
    exact trivial
  | reset =>
    cases h
    exact trivial

/-! ## Generations only go up -/

/-- Every operation but a reset makes the store grow. -/
theorem grows_onStore {op : StoreOp} (h : op ≠ .reset) (s : Store) :
    s.Grows (stateOf (op.onStore s)) := by
  cases op with
  | alloc value next => exact (keeps_alloc value next).map s
  | push l value => exact (keeps_push l value).map s
  | ofList values => exact (keeps_ofList values).map s
  | reverse l => exact (keeps_reverse l).map s
  | newSlot name tokens => exact (keeps_newSlot name tokens).map s
  | fill ref value => exact (keeps_fill ref value).map s
  | reset => exact absurd rfl h

theorem grows_or_reset (op : StoreOp) (s : Store) :
    s.Grows (stateOf (op.onStore s)) ∨ stateOf (op.onStore s) = s.reset := by
  by_cases h : op = .reset
  · subst h
    exact Or.inr rfl
  · exact Or.inl (grows_onStore h s)

theorem generation_le_onStore (op : StoreOp) (s : Store) :
    s.generation ≤ (stateOf (op.onStore s)).generation := by
  rcases grows_or_reset op s with hgrows | hreset
  · exact Nat.le_of_eq (extends_of_grows hgrows).generation.symm
  · rw [hreset]
    exact Nat.le_succ _

theorem generation_le_replay (ops : List StoreOp) (s : Store) :
    s.generation ≤ (replay StoreOp.onStore ops s).2.generation := by
  induction ops generalizing s with
  | nil => exact Nat.le_refl _
  | cons op ops ih => exact Nat.le_trans (generation_le_onStore op s) (ih _)

theorem upTo_of_replay {ops : List StoreOp} {handle : Handle}
    (h : .ok handle ∈ (replay StoreOp.onStore ops s).1) :
    handle.UpTo (replay StoreOp.onStore ops s).2.generation := by
  induction ops generalizing s with
  | nil => cases h
  | cons op ops ih =>
    rcases List.mem_cons.mp h with hfirst | hrest
    · cases hrun : op.onStore s with
      | error e s' =>
        rw [hrun] at hfirst
        cases hfirst
      | ok found s' =>
        rw [hrun] at hfirst
        cases hfirst
        have hlater := generation_le_replay ops (stateOf (op.onStore s))
        rw [hrun] at hlater
        show handle.UpTo (replay StoreOp.onStore ops (stateOf (op.onStore s))).2.generation
        rw [hrun]
        exact (upTo_of_onStore hrun).mono hlater
    · exact ih hrest

/-- What was given out before a reset is refused behind it, whatever is done then. -/
theorem refused_after_reset (earlier later : List StoreOp) (s : Store) :
    let before := replay StoreOp.onStore earlier s
    let behind := (replay StoreOp.onStore (.reset :: later) before.2).2
    (∀ handle, .ok handle ∈ before.1 → handle.UpTo before.2.generation) ∧
      ∀ handle : Handle, handle.UpTo before.2.generation → handle.RefusedBy behind := by
  intro before behind
  refine ⟨fun handle hmem => upTo_of_replay hmem, fun handle hupTo => ?_⟩
  have hlater : before.2.generation < behind.generation :=
    generation_le_replay later before.2.reset
  exact refusedBy_of_upTo hupTo hlater

end Store

end BraceLang
