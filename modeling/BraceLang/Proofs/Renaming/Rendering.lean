import BraceLang.Proofs.Renaming.Memory
import BraceLang.Proofs.Store.Readings

/-!
# Writing what has been renamed

A renamed value is written whenever the value is, and otherwise the writing fails for the same
reason. The texts differ in the names.

* `EndsAlike`: two computations that succeed with related results or fail in the same way.
* `Renaming.endsAlike_render`: writing a value and the renamed one.
-/

namespace BraceLang

/-! ## Computations that end alike -/

/-- Whether the fault quotes a part of the program. -/
def SyntaxFault.quotes : SyntaxFault → Bool
  | notExpected _ | trailingArgument _ | trailingText _ => true
  | _ => false

/-- Whether the failure quotes a part of the program, such as a name. -/
def EvalError.quotes : EvalError → Bool
  | badSyntax fault => fault.quotes
  | undefinedVariable _ | unresolvedDeferred _ | notAFunction _ => true
  | _ => false

theorem EvalError.quotes_ofStore (e : StoreError) : (ofStore e).quotes = false := by
  cases e <;> rfl

/-- The computations succeed with related results, or they fail in the same way, which quotes no
part of the program. -/
inductive EndsAlike {α β : Type} (R : α → β → Prop) :
    Except EvalError α → Except EvalError β → Prop
  | ok {a : α} {b : β} : R a b → EndsAlike R (.ok a) (.ok b)
  | error {e : EvalError} : e.quotes = false → EndsAlike R (.error e) (.error e)

/-- The results are whatever they are. -/
def Whatever {α β : Type} (_ : α) (_ : β) : Prop := True

namespace EndsAlike

variable {α β γ δ : Type} {R : α → β → Prop} {Q : γ → δ → Prop} {r : Except EvalError α}
  {r' : Except EvalError β}

theorem pure {a : α} {b : β} (h : R a b) : EndsAlike R (Pure.pure a) (Pure.pure b) := .ok h

theorem bind {k : α → Except EvalError γ} {k' : β → Except EvalError δ} (h : EndsAlike R r r')
    (hk : ∀ a b, R a b → EndsAlike Q (k a) (k' b)) : EndsAlike Q (r >>= k) (r' >>= k') := by
  cases h with
  | ok h => exact hk _ _ h
  | error h => exact .error h

theorem map {k : α → γ} {k' : β → δ} (h : EndsAlike R r r') (hk : ∀ a b, R a b → Q (k a) (k' b)) :
    EndsAlike Q (k <$> r) (k' <$> r') := by
  cases h with
  | ok h => exact .ok (hk _ _ h)
  | error h => exact .error h

theorem mapM {f : α → Except EvalError γ} {g : β → Except EvalError δ} {image : α → β}
    (h : ∀ a, EndsAlike Q (f a) (g (image a))) (items : List α) :
    EndsAlike (List.Forall₂ Q) (items.mapM f) ((items.map image).mapM g) := by
  induction items with
  | nil => exact .ok .nil
  | cons item items ih =>
    rw [List.map_cons, List.mapM_cons, List.mapM_cons]
    exact (h item).bind fun a b hab => ih.bind fun as bs hall => .pure (.cons hab hall)

theorem of_map (h : FailsWith (fun e => e.quotes = false) r) (f : α → β) :
    EndsAlike (fun a b => b = f a) r (r.map f) := by
  cases hr : r with
  | ok a => exact .ok rfl
  | error e => exact .error (h e hr)

theorem of_eq (h : FailsWith (fun e => e.quotes = false) r) : EndsAlike (fun a b => b = a) r r := by
  cases hr : r with
  | ok a => exact .ok rfl
  | error e => exact .error (h e hr)

/-- What is read from two stores. -/
theorem ofStore (x : Except StoreError α) (f : α → β) :
    EndsAlike (fun a b => b = f a) (x.mapError .ofStore) ((x.map f).mapError .ofStore) := by
  cases x with
  | ok a => exact .ok rfl
  | error e => exact .error (EvalError.quotes_ofStore e)

end EndsAlike

namespace Renaming

variable {rename : String → String} {texts texts' : TextTable} (ρ : Renaming rename texts texts')
  (s : Store)

/-! ## Closures -/

theorem endsAlike_closureOfList (parts : ListRef) :
    EndsAlike (fun c c' => c' = c) (Closure.ofList s parts)
      (Closure.ofList (ρ.store s) parts) := by
  rw [closureOfList_store]
  refine .of_eq (FailsWith.bind ?_ fun values => ?_)
  · exact FailsWith.mapError (P := fun _ => True) (fun _ _ => trivial)
      fun e _ => EvalError.quotes_ofStore e
  · split
    · exact .pure _
    · exact .throw rfl

theorem failsWith_formalsOf (entries : List Value) :
    FailsWith (fun e => e.quotes = false) (Closure.formalsOf entries) := by
  fun_induction Closure.formalsOf entries with
  | case1 => exact .pure _
  | case2 mode name rest ih => exact ih.map
  | case3 => exact .throw rfl

theorem endsAlike_formalList (c : Closure) :
    EndsAlike (fun formals formals' => formals' = formals.map ρ.formal) (c.formalList s)
      (c.formalList (ρ.store s)) := by
  unfold Closure.formalList
  rw [toList_store]
  refine (EndsAlike.ofStore (s.toList c.formals) (List.map ρ.value)).bind ?_
  rintro entries _ rfl
  rw [formalsOf_values]
  exact .of_map (failsWith_formalsOf entries) _

/-! ## Texts -/

section Texts

variable {part part' : Detail → Value → Except EvalError (List Char)}
  (hpart : ∀ detail v, EndsAlike Whatever (part detail v) (part' detail (ρ.value v)))

theorem endsAlike_textOf {ref ref' : TextRef} {f : String → String}
    (h : texts'.resolve ref' = (texts.resolve ref).map f) :
    EndsAlike Whatever (Memory.textOf ⟨s, texts⟩ ref) (Memory.textOf ⟨ρ.store s, texts'⟩ ref') := by
  simp only [Memory.textOf, h]
  cases texts.resolve ref with
  | ok text => exact .ok trivial
  | error e => exact .error (EvalError.quotes_ofStore e)

theorem endsAlike_formal (f : Formal) :
    EndsAlike Whatever (Memory.formal ⟨s, texts⟩ f)
      (Memory.formal ⟨ρ.store s, texts'⟩ (ρ.formal f)) :=
  (ρ.endsAlike_textOf s (ρ.resolve_atom f.name)).bind fun _ _ _ => .pure trivial

theorem endsAlike_eachItem {α β : Type} {R : α → β → Prop} {write : Value → Except EvalError α}
    {write' : Value → Except EvalError β} (hw : ∀ v, EndsAlike R (write v) (write' (ρ.value v)))
    (l : ListRef) :
    EndsAlike (List.Forall₂ R) (Memory.eachItem ⟨s, texts⟩ write l)
      (Memory.eachItem ⟨ρ.store s, texts'⟩ write' l) := by
  simp only [Memory.eachItem, items_store]
  refine EndsAlike.mapM (fun item => ?_) _
  refine (EndsAlike.ofStore item ρ.value).bind ?_
  rintro v _ rfl
  exact hw v

include hpart

theorem endsAlike_tokensWith (tokens : ListRef) :
    EndsAlike Whatever (Memory.tokensWith part ⟨s, texts⟩ tokens)
      (Memory.tokensWith part' ⟨ρ.store s, texts'⟩ tokens) := by
  refine (ρ.endsAlike_eachItem s (R := Whatever) (fun v => ?_) tokens).map fun _ _ _ => trivial
  exact (hpart .brief v).map fun _ _ _ => trivial

theorem endsAlike_bindingsWith (entries : List Value) :
    EndsAlike Whatever (Memory.bindingsWith part entries)
      (Memory.bindingsWith part' (entries.map ρ.value)) := by
  fun_induction Memory.bindingsWith part entries with
  | case1 => exact .pure trivial
  | case2 => exact .pure trivial
  | case3 name value rest ih =>
    refine (hpart .brief name).bind fun _ _ _ => ?_
    refine (hpart .brief value).bind fun _ _ _ => ?_
    exact ih.bind fun _ _ _ => .pure trivial

theorem endsAlike_frameWith (frame : Value) :
    EndsAlike Whatever (Memory.frameWith part ⟨s, texts⟩ frame)
      (Memory.frameWith part' ⟨ρ.store s, texts'⟩ (ρ.value frame)) := by
  cases frame with
  | list entries =>
    simp only [value, Memory.frameWith, toList_store]
    refine (EndsAlike.ofStore (s.toList entries) (List.map ρ.value)).bind ?_
    rintro values _ rfl
    exact (ρ.endsAlike_bindingsWith hpart values).bind fun _ _ _ => .pure trivial
  | _ => exact .error rfl

theorem endsAlike_environmentWith (detail : Detail) (env : ListRef) :
    EndsAlike Whatever (Memory.environmentWith part ⟨s, texts⟩ detail env)
      (Memory.environmentWith part' ⟨ρ.store s, texts'⟩ detail env) := by
  unfold Memory.environmentWith
  split
  · exact .pure trivial
  · cases detail with
    | brief => exact .pure trivial
    | full =>
      exact (ρ.endsAlike_eachItem s (ρ.endsAlike_frameWith s hpart) env).bind
        fun _ _ _ => .pure trivial

theorem endsAlike_closureWith (detail : Detail) (parts : ListRef) :
    EndsAlike Whatever (Memory.closureWith part ⟨s, texts⟩ detail parts)
      (Memory.closureWith part' ⟨ρ.store s, texts'⟩ detail parts) := by
  refine (ρ.endsAlike_closureOfList s parts).bind ?_
  rintro _ c rfl
  refine (ρ.endsAlike_formalList s c).bind ?_
  rintro formals _ rfl
  refine (EndsAlike.mapM (ρ.endsAlike_formal s) formals).bind fun _ _ _ => ?_
  refine (ρ.endsAlike_tokensWith s hpart c.body).bind fun _ _ _ => ?_
  exact (ρ.endsAlike_environmentWith s hpart detail c.env).bind fun _ _ _ => .pure trivial

theorem endsAlike_valueWith (detail : Detail) (v : Value) :
    EndsAlike Whatever (Memory.valueWith part ⟨s, texts⟩ detail v)
      (Memory.valueWith part' ⟨ρ.store s, texts'⟩ detail (ρ.value v)) := by
  cases v with
  | string text =>
    have hsame : texts'.resolve (ρ.string text) = (texts.resolve text).map id := by
      rw [ρ.resolve_string]
      cases texts.resolve text <;> rfl
    exact (ρ.endsAlike_textOf s hsame).map fun _ _ _ => trivial
  | atom name => exact ρ.endsAlike_textOf s (ρ.resolve_atom name)
  | mode mode => cases mode <;> exact .ok trivial
  | list items =>
    exact (ρ.endsAlike_eachItem s (hpart detail) items).map fun _ _ _ => trivial
  | closure parts => exact ρ.endsAlike_closureWith s hpart detail parts
  | deferred ref =>
    simp only [value, Memory.valueWith, slot_store]
    refine (EndsAlike.ofStore (s.slot ref) ρ.slot).bind ?_
    rintro found _ rfl
    cases hvalue : found.value? with
    | some v =>
      simp only [slot, hvalue, Option.map_some]
      exact hpart detail v
    | none =>
      simp only [slot, hvalue, Option.map_none]
      exact .pure trivial
  | _ => exact .ok trivial

omit hpart in
theorem endsAlike_valueWithin (depth : Nat) (detail : Detail) (v : Value) :
    EndsAlike Whatever (Memory.valueWithin ⟨s, texts⟩ depth detail v)
      (Memory.valueWithin ⟨ρ.store s, texts'⟩ depth detail (ρ.value v)) := by
  induction depth generalizing detail v with
  | zero => exact .error rfl
  | succ depth ih => exact ρ.endsAlike_valueWith s ih detail v

end Texts

/-- The renamed value is written whenever the value is, or both fail in the same way. -/
theorem endsAlike_render (v : Value) :
    EndsAlike Whatever (Memory.render ⟨s, texts⟩ v)
      (Memory.render ⟨ρ.store s, texts'⟩ (ρ.value v)) := by
  have hnesting : Memory.maxNesting ⟨ρ.store s, texts'⟩ = Memory.maxNesting ⟨s, texts⟩ := by
    simp only [Memory.maxNesting, store, Array.size_map]
  unfold Memory.render
  rw [hnesting]
  exact (ρ.endsAlike_valueWithin s _ .full v).map fun _ _ _ => trivial

end Renaming

end BraceLang
