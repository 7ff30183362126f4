import Mathlib.Order.Defs.Unbundled

/-!
# Effects of state-passing programs

The programs of this library change a state and can fail, and a failure keeps what was
changed before. This module has the rules by which properties of such a program are put
together from properties of its steps.

* `Keeps`: whatever the outcome, the state behind a program is related to the one before it.
* `bind_eq_ok_iff`: a sequence succeeds when its parts do.
-/

namespace BraceLang

variable {ρ ε σ α β : Type}

/-- The state behind a program. -/
def stateOf : EStateM.Result ε σ α → σ
  | .ok _ s => s
  | .error _ s => s

/-- Whether a program has succeeded. -/
def succeeded : EStateM.Result ε σ α → Bool
  | .ok _ _ => true
  | .error _ _ => false

theorem exists_of_succeeded {r : EStateM.Result ε σ α} (h : succeeded r = true) :
    ∃ a s, r = .ok a s := by
  cases r with
  | ok a s => exact ⟨a, s, rfl⟩
  | error e s => cases h

/-- The result of a program that has succeeded. -/
def resultOf? : EStateM.Result ε σ α → Option α
  | .ok a _ => some a
  | .error _ _ => none

theorem eq_ok_of_resultOf? {r : EStateM.Result ε σ α} {a : α} (h : resultOf? r = some a) :
    r = .ok a (stateOf r) := by
  cases r with
  | ok b s =>
    cases h
    rfl
  | error e s => cases h

theorem stateOf_map (f : α → β) (x : EStateM ε σ α) (s : σ) :
    stateOf ((f <$> x) s) = stateOf (x s) := by
  cases h : x s <;> simp [Functor.map, EStateM.map, h, stateOf]

/-! ## Sequences -/

theorem bind_of_ok {x : EStateM ε σ α} {f : α → EStateM ε σ β} {s s' : σ} {a : α}
    (h : x s = .ok a s') : (x >>= f) s = f a s' := by
  simp only [bind, EStateM.bind, h]

theorem bind_of_error {x : EStateM ε σ α} {f : α → EStateM ε σ β} {s s' : σ} {e : ε}
    (h : x s = .error e s') : (x >>= f) s = .error e s' := by
  simp only [bind, EStateM.bind, h]

theorem bind_eq_ok_iff {x : EStateM ε σ α} {f : α → EStateM ε σ β} {s s' : σ} {b : β} :
    (x >>= f) s = .ok b s' ↔ ∃ a t, x s = .ok a t ∧ f a t = .ok b s' := by
  cases h : x s with
  | ok a t =>
    rw [bind_of_ok h]
    constructor
    · intro hf
      exact ⟨a, t, rfl, hf⟩
    · rintro ⟨a', t', ht, hf⟩
      cases ht
      exact hf
  | error e t =>
    rw [bind_of_error h]
    simp

theorem reader_bind_of_ok {x : ReaderT ρ (EStateM ε σ) α} {f : α → ReaderT ρ (EStateM ε σ) β}
    {c : ρ} {s s' : σ} {a : α} (h : x c s = .ok a s') : (x >>= f) c s = f a c s' :=
  bind_of_ok h

theorem reader_bind_of_error {x : ReaderT ρ (EStateM ε σ) α}
    {f : α → ReaderT ρ (EStateM ε σ) β} {c : ρ} {s s' : σ} {e : ε} (h : x c s = .error e s') :
    (x >>= f) c s = .error e s' :=
  bind_of_error h

theorem reader_bind_eq_ok_iff {x : ReaderT ρ (EStateM ε σ) α}
    {f : α → ReaderT ρ (EStateM ε σ) β} {c : ρ} {s s' : σ} {b : β} :
    (x >>= f) c s = .ok b s' ↔ ∃ a t, x c s = .ok a t ∧ f a c t = .ok b s' :=
  bind_eq_ok_iff

/-! ## Relations between the states before and behind a program -/

/-- Whatever the outcome, the state behind the program is related to the one before it. -/
def Keeps (R : σ → σ → Prop) (m : EStateM ε σ α) : Prop := ∀ s, R s (stateOf (m s))

namespace Keeps

variable {R : σ → σ → Prop} {m : EStateM ε σ α}

theorem of_ok (h : Keeps R m) {s s' : σ} {a : α} (hm : m s = .ok a s') : R s s' := by
  have := h s
  rwa [hm] at this

theorem of_error (h : Keeps R m) {s s' : σ} {e : ε} (hm : m s = .error e s') : R s s' := by
  have := h s
  rwa [hm] at this

theorem pure [Std.Refl R] (a : α) : Keeps R (Pure.pure a : EStateM ε σ α) :=
  fun s => Std.Refl.refl s

theorem throw [Std.Refl R] (e : ε) : Keeps R (MonadExcept.throw e : EStateM ε σ α) :=
  fun s => Std.Refl.refl s

theorem bind [IsTrans σ R] {f : α → EStateM ε σ β} (hm : Keeps R m)
    (hf : ∀ a, Keeps R (f a)) : Keeps R (m >>= f) := by
  intro s
  cases h : m s with
  | ok a t =>
    rw [bind_of_ok h]
    exact IsTrans.trans _ _ _ (hm.of_ok h) (hf a t)
  | error e t =>
    rw [bind_of_error h]
    exact hm.of_error h

theorem map [IsTrans σ R] [Std.Refl R] {f : α → β} (hm : Keeps R m) : Keeps R (f <$> m) := by
  intro s
  have := hm s
  cases h : m s with
  | ok a t => simpa [Functor.map, EStateM.map, h, stateOf] using this
  | error e t => simpa [Functor.map, EStateM.map, h, stateOf] using this

end Keeps

end BraceLang
