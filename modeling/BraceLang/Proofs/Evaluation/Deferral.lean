import BraceLang.Proofs.Evaluation.Compositional

/-!
# The slots of a call

A call opens a slot for every deferred argument while it binds its parameters, and fills these
slots one after the other before it evaluates its body. So a call leaves the slots of others alone
and, when it succeeds, none of its own without a value.

* `EvalM.opens_bindActuals`: the slots that binding the parameters leaves without a value.
* `EvalM.spares_settleAll`: settling the arguments fills just these.
* `EvalM.tidy_call`, `EvalM.tidy_evaluateWithin`: calls, and with them all terms, are tidy.
-/

namespace BraceLang

/-- The slot of a captured argument. -/
def Actual.slot? : Actual → Option SlotRef
  | .evaluated _ => none
  | .captured ref => some ref

/-- The slots of the captured arguments of a call, in their order. -/
def deferredSlots (actuals : List (TextRef × Actual)) : List SlotRef :=
  actuals.filterMap (·.2.slot?)

theorem deferredSlots_cons (name : TextRef) (actual : Actual)
    (actuals : List (TextRef × Actual)) :
    deferredSlots ((name, actual) :: actuals) =
      actual.slot?.toList ++ deferredSlots actuals := by
  unfold deferredSlots
  rw [List.filterMap_cons]
  cases actual <;> rfl

theorem deferredSlots_append (actuals actuals' : List (TextRef × Actual)) :
    deferredSlots (actuals ++ actuals') = deferredSlots actuals ++ deferredSlots actuals' :=
  List.filterMap_append

theorem mem_deferredSlots {actuals : List (TextRef × Actual)} {ref : SlotRef} :
    ref ∈ deferredSlots actuals ↔ ∃ name, (name, .captured ref) ∈ actuals := by
  unfold deferredSlots
  rw [List.mem_filterMap]
  constructor
  · rintro ⟨⟨name, actual⟩, hmem, hslot⟩
    cases actual with
    | evaluated value => cases hslot
    | captured ref' =>
      cases hslot
      exact ⟨name, hmem⟩
  · rintro ⟨name, hmem⟩
    exact ⟨_, hmem, rfl⟩

namespace EvalM

/-! ## Opening slots -/

/-- The slots that a program adds have their values when it succeeds, except for those of its
result. -/
def Opens {α : Type} (slots : α → List SlotRef) (m : EvalM α) : Prop :=
  ∀ context st, Spares st.store.slots.size st.store
    (fun a s => s.Awaits st.store.slots.size (slots a)) (m context st)

variable {eval : Environment → EvalM Value}

theorem opens_newSlot (name : TextRef) (tokens : ListRef) :
    Opens (fun ref => [ref]) (ofStoreM (Store.newSlot name tokens)) := by
  intro context st
  cases hrun : Store.newSlot name tokens st.store with
  | ok ref s =>
    have hgrows := (Store.keeps_newSlot name tokens).of_ok hrun
    obtain ⟨-, rfl, rfl⟩ := Store.newSlot_eq_ok_iff.mp hrun
    simp only [ofStoreM, hrun]
    refine .ok ⟨hgrows, rfl, ?_, fun i hi => ?_⟩ (.newSlot st.store name tokens)
    · simp
    · simp [Array.getElem?_push, Nat.ne_of_lt hi]
  | error e s =>
    obtain ⟨rfl, rfl, -⟩ := Store.eq_of_newSlot_error hrun
    simp only [ofStoreM, hrun]
    exact .error (.refl (Nat.le_refl _)) rfl

theorem opens_bindActual (he : ∀ env, Tidy (eval env)) (env : Environment) (formal : Formal) :
    Opens (fun bound => bound.1.slot?.toList) (bindActual eval env formal) := by
  intro context st
  obtain ⟨mode, name⟩ := formal
  cases mode with
  | eager =>
    refine (he env context st).bind fun value st₁ hgrows₁ ha₁ => ?_
    have hseparator := basic_separator.tidy.spares context hgrows₁.size_le ha₁
    refine hseparator.bind fun _ st₂ hgrows₂ ha₂ => ?_
    exact .ok (.refl hgrows₂.size_le) ha₂
  | deferred =>
    refine (basic_captureArgument.tidy context st).bind fun captured st₁ hgrows₁ ha₁ => ?_
    have hopens := opens_newSlot name captured.1 context st₁
    have hslot : Spares st.store.slots.size st₁.store
        (fun ref s => s.Awaits st.store.slots.size [ref])
        (ofStoreM (Store.newSlot name captured.1) context st₁) :=
      hopens.weaken hgrows₁.size_le fun ref s hgrows hnew =>
        ha₁.append hgrows₁.size_le hgrows hnew
    exact hslot.bind fun slot st₂ hgrows₂ ha₂ => .ok (.refl hgrows₂.size_le) ha₂

/-- The parameters that are bound to slots are those whose slots have no value. -/
theorem opens_bindActuals (he : ∀ env, Tidy (eval env)) (env : Environment)
    (formals : List Formal) : Opens deferredSlots (bindActuals eval env formals) := by
  induction formals with
  | nil => exact fun _ _ => .ok (.refl (Nat.le_refl _)) (.of_size_le (Nat.le_refl _))
  | cons formal formals ih =>
    intro context st
    refine (opens_bindActual he env formal context st).bind fun bound st₁ hgrows₁ ha₁ => ?_
    obtain ⟨actual, separator⟩ := bound
    refine ((basic_checkSeparator _ _).tidy.spares context hgrows₁.size_le ha₁).bind
      fun _ st₂ hgrows₂ ha₂ => ?_
    have hrest : Spares st.store.slots.size st₂.store (fun actuals s =>
        s.Awaits st.store.slots.size (actual.slot?.toList ++ deferredSlots actuals))
        (bindActuals eval env formals context st₂) :=
      (ih context st₂).weaken hgrows₂.size_le fun actuals s hgrows hnew =>
        ha₂.append hgrows₂.size_le hgrows hnew
    refine hrest.bind fun actuals st₃ hgrows₃ ha₃ => ?_
    refine .ok (.refl hgrows₃.size_le) ?_
    rw [deferredSlots_cons]
    exact ha₃

/-! ## Filling them -/

variable (context : EvalContext) {st : EvalState} {n : Nat}

/-- An argument that is settled has its value; the others still wait for theirs. -/
theorem spares_settle (he : ∀ env, Tidy (eval env)) (inner : Environment) (actual : Actual)
    {rest : List SlotRef} (hn : n ≤ st.store.slots.size)
    (ha : st.store.Awaits n (actual.slot?.toList ++ rest)) :
    Spares n st.store (fun _ s => s.Awaits n rest) (settle eval inner actual context st) := by
  cases actual with
  | evaluated value => exact .ok (.refl hn) ha
  | captured ref =>
    have hask : Tidy (ask (·.slot ref)) := (basic_ask fun s => s.failsWith_slot ref).tidy
    refine (hask.spares context hn ha).bind fun slot st₁ hgrows₁ ha₁ => ?_
    have hrun := (tidy_onTokens slot.tokens (he inner)).spares context hgrows₁.size_le ha₁
    refine hrun.bind fun result st₂ hgrows₂ ha₂ => ?_
    obtain ⟨value, left⟩ := result
    dsimp only
    split
    · obtain ⟨slot', -, hfill, hgrows₃, ha₃⟩ := ha₂.fill hgrows₂.size_le value
      simp only [ofStoreM, hfill]
      exact .ok hgrows₃ ha₃
    · refine ((basic_resolve slot.name).tidy.spares context hgrows₂.size_le ha₂).bind
        fun text st₃ hgrows₃ ha₃ => ?_
      exact .error (.refl hgrows₃.size_le) rfl

/-- Arguments that are settled have their values; the others still wait for theirs. -/
theorem spares_settleAll (he : ∀ env, Tidy (eval env)) (inner : Environment)
    (actuals : List (TextRef × Actual)) {rest : List SlotRef} (hn : n ≤ st.store.slots.size)
    (ha : st.store.Awaits n (deferredSlots actuals ++ rest)) :
    Spares n st.store (fun _ s => s.Awaits n rest)
      ((actuals.forM fun (_, actual) => settle eval inner actual) context st) := by
  induction actuals generalizing st with
  | nil => exact .ok (.refl hn) ha
  | cons entry actuals ih =>
    obtain ⟨name, actual⟩ := entry
    rw [deferredSlots_cons, List.append_assoc] at ha
    show Spares n st.store _ ((settle eval inner actual >>= fun _ =>
      actuals.forM fun (_, actual) => settle eval inner actual) context st)
    exact (spares_settle context he inner actual hn ha).bind fun _ st₁ hgrows₁ ha₁ =>
      ih hgrows₁.size_le ha₁

theorem tidy_runBody (he : ∀ env, Tidy (eval env)) (env : Environment) (body : ListRef) :
    Tidy (runBody eval env body) := by
  refine (tidy_onTokens body (he env)).bind fun result => ?_
  dsimp only
  split
  · exact Tidy.pure _
  · exact (basic_fail _).tidy

/-- All slots of a call are opened before the first is filled, and all are filled before the body
is evaluated. -/
theorem tidy_call (he : ∀ env, Tidy (eval env)) (env : Environment) (callee : Closure) :
    Tidy (call eval env callee) := by
  have hformals : Tidy (askMemory (callee.formalList ·.store)) :=
    (basic_askMemory fun m => callee.failsWith_formalList m.store).tidy
  refine hformals.bind fun formals => ?_
  dsimp only
  split
  · exact (basic_expect _).tidy.bind fun _ => tidy_runBody he _ _
  · intro context st
    refine (opens_bindActuals he env formals context st).bind fun actuals st₁ hgrows₁ ha₁ => ?_
    have hextend := tidy_ofStoreM (Environment.leavesSlots_extend ⟨callee.env⟩
      (actuals.map fun (name, actual) => (name, actual.toValue)))
    refine (hextend.spares context hgrows₁.size_le ha₁).bind fun inner st₂ hgrows₂ ha₂ => ?_
    rw [← List.append_nil (deferredSlots actuals)] at ha₂
    have hsettle := spares_settleAll context he inner actuals hgrows₂.size_le ha₂
    refine hsettle.bind fun _ st₃ hgrows₃ ha₃ => ?_
    exact (tidy_runBody he inner callee.body).spares context hgrows₃.size_le ha₃

/-! ## Terms -/

theorem compositional_tidy : Compositional fun m _ => Tidy m where
  basic := fun h => h.tidy
  bind := Tidy.bind
  call := tidy_call
  nested := tidy_nested
  tooDeep := tidy_tooDeep

theorem tidy_evaluateWithin (levels : Nat) (env : Environment) :
    Tidy (evaluateWithin levels env) := compositional_tidy.evaluateWithin levels env

end EvalM

/-- Evaluating a term is tidy. -/
theorem tidy_evaluate (env : Environment) : EvalM.Tidy (evaluate env) :=
  EvalM.compositional_tidy.evaluate env

end BraceLang
