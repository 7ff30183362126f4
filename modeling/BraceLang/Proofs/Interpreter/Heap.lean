import BraceLang.Proofs.Denotation.Calls
import BraceLang.Proofs.Denotation.Interpreter
import BraceLang.Proofs.Evaluation.Extent
import BraceLang.Proofs.Evaluation.Interrupts
import BraceLang.Proofs.Store.Environments

/-!
# What an evaluation leaves of the heap

An evaluation, whether it succeeds or not, leaves every cell and every slot that was there as it
was. The slots of its own calls take their values one after the other. While a deferred argument is
evaluated, the arguments in front of it have their values and can be read, and it can itself be
read as little as those behind it.

* `Memory.KeptIn`, `Interpreter.LeavesHeap`: what an evaluation leaves.
* `EvalM.Midway`: what can be read of the arguments of a call while one of them is evaluated.
* `Interpreter.evaluate_leavesHeap`: both hold of every evaluation.
-/

namespace BraceLang

/-- Whatever is in the first memory is in the second one as it was. -/
structure Memory.KeptIn (m m' : Memory) : Prop where
  texts : m'.texts = m.texts
  generation : m'.store.generation = m.store.generation
  cell : ∀ ref c, m.store.cell ref = .ok c → m'.store.cell ref = .ok c
  size_le : m.store.slots.size ≤ m'.store.slots.size
  slot : ∀ i, i < m.store.slots.size → m'.store.slots[i]? = m.store.slots[i]?

/-- Evaluation steps leave the memory of an interpreter as it was. They do not fill a slot twice,
and fill all that they have added when they succeed. -/
structure Interpreter.LeavesHeap {α : Type} (i : Interpreter) (outcome : Outcome α) : Prop where
  kept : i.memory.KeptIn outcome.interpreter.memory
  refills : ∀ index, outcome.result ≠ .error (.invalidHandle (.slotFilled index))
  fills : ∀ a, outcome.result = .ok a → ∀ index slot, i.memory.store.slots.size ≤ index →
    outcome.interpreter.memory.store.slots[index]? = some slot → slot.value?.isSome = true

theorem Interpreter.leavesHeap_perform {α : Type} {action : EvalM α} (h : action.Tidy)
    (i : Interpreter) (tokens : ListRef) : i.LeavesHeap (i.perform tokens action) := by
  obtain ⟨config, ⟨store, texts⟩, depth⟩ := i
  have hspares := h ⟨texts, config.maxDepth⟩ ⟨store, tokens, depth⟩
  have hkept : ∀ {s : Store}, store.GrowsAbove store.slots.size s →
      Memory.KeptIn ⟨store, texts⟩ ⟨s, texts⟩ := fun hgrows =>
    ⟨rfl, hgrows.generation, fun _ _ => (Store.extends_of_grows hgrows.grows).cell,
      hgrows.size_le, hgrows.slots⟩
  simp only [perform]
  generalize action ⟨texts, config.maxDepth⟩ ⟨store, tokens, depth⟩ = result at hspares
  cases hspares with
  | @ok a st hgrows hawaits =>
    obtain ⟨store', rest, depth'⟩ := st
    refine ⟨hkept hgrows, by simp, fun _ _ index slot hindex hslot => ?_⟩
    have hread : store'.slot ⟨index, store'.generation⟩ = .ok slot :=
      Store.slot_eq_ok_iff.mpr ⟨rfl, hslot⟩
    exact hawaits.isSome_of_nil hindex hread
  | @error e st hgrows he =>
    obtain ⟨store', rest, depth'⟩ := st
    refine ⟨hkept hgrows, ?_, by simp⟩
    rintro index heq
    cases heq
    cases he

/-! ## The frame of a call -/

/-- What an environment is extended by is found in it, also when the store has grown. -/
theorem Environment.lookup_of_extend {env inner : Environment}
    {bindings : List (TextRef × Value)} {s s' s'' : Store} (hs : s.Layout)
    (hextend : env.extend bindings s = .ok inner s') (hgrows : s'.Grows s'') {name : TextRef}
    {value : Value} (h : bindings.lookup name = some value) :
    inner.lookup s'' name = .ok value := by
  rw [extend_eq_bind] at hextend
  obtain ⟨frame, t, hframe, hextend⟩ := bind_eq_ok_iff.mp hextend
  obtain ⟨frames, t', hframes, hextend⟩ := bind_eq_ok_iff.mp hextend
  cases hextend
  have ht : t.Layout := Store.layout_of_ofList hs hframe
  have hchain := Store.chain_of_ofList hs hframe
  rw [Store.push_eq ht] at hframes
  split at hframes
  · cases hframes
  · rename_i hrefusal
    cases hframes
    have hwritten := ht.written ⟨.list frame, env.frames⟩ (Store.reserves_of_refusal? hrefusal)
    have hlayout := hwritten.of_grows hgrows
    have hext := Store.extends_of_grows hgrows
    have hcell := hext.cell (ht.cell_written_nextRef ⟨.list frame, env.frames⟩)
    have hentries := (hchain.mono (Store.extends_written t _)).mono hext
    have hsteps : s''.maxSteps = (s''.maxSteps - 1) + 1 := by
      have hpos : 0 < s''.maxSteps := Nat.mul_pos (Nat.succ_pos _) (Nat.succ_pos _)
      omega
    have hsplit : s''.split (.chain t.nextRef) = .ok (some (.list frame, env.frames)) :=
      Store.split_of_cell hcell
    unfold Environment.lookup Store.items
    rw [hsteps]
    simp only [Store.itemsWithin, hsplit, lookupFrames, hentries.items_eq hlayout,
      lookupEntries_eq, h]
    rfl

namespace EvalM

/-! ## Reading the arguments of a call -/

/-- Whoever reads the slot gets this value. -/
def ReadsAs (context : EvalContext) (st : EvalState) (ref : SlotRef) (value : Value) : Prop :=
  ∀ name env, Environment.lookup env st.store name = .ok (.deferred ref) →
    lookupName name env context st = .ok value st

/-- Whoever reads the slot fails, because the argument has not been evaluated. -/
def ReadsUnresolved (context : EvalContext) (st : EvalState) (ref : SlotRef) : Prop :=
  ∀ name env text, Environment.lookup env st.store name = .ok (.deferred ref) →
    context.texts.resolve name = .ok text →
    lookupName name env context st = .error (.unresolvedDeferred text) st

section Calls

variable (eval : Environment → EvalM Value) (context : EvalContext)

/-- The arguments are those of a call, which has bound them and made the environment for its
body. -/
def Binds (env defining : Environment) (formals : List Formal) (st : EvalState)
    (actuals : List (TextRef × Actual)) (inner : Environment) (bound : EvalState) : Prop :=
  ∃ st', bindActuals eval env formals context st = .ok actuals st' ∧
    ofStoreM (defining.extend (bindingsOf actuals)) context st' = .ok inner bound

/-- Settling the arguments one after the other leads from one state to the other. -/
def Settles (inner : Environment) (actuals : List (TextRef × Actual)) (st st' : EvalState) : Prop :=
  (actuals.forM fun (_, actual) => settle eval inner actual) context st = .ok () st'

/-- The captured argument behind some others has this value. -/
def ArgumentIs (inner : Environment) (bound : EvalState) (earlier : List (TextRef × Actual))
    (ref : SlotRef) (value : Value) : Prop :=
  ∃ st slot left st', Settles eval context inner earlier bound st ∧ st.store.slot ref = .ok slot ∧
    onTokens slot.tokens (eval inner) context st = .ok (value, left) st'

/-- Some of the arguments of a call have been settled and the others are waiting. -/
structure Midway (inner : Environment) (bound : EvalState)
    (settled waiting : List (TextRef × Actual)) (st : EvalState) : Prop where
  values : ∀ earlier name ref later, settled = earlier ++ (name, .captured ref) :: later →
    ∃ slot value, ArgumentIs eval context inner bound earlier ref value ∧
      st.store.slot ref = .ok slot ∧ slot.value? = some value ∧ ReadsAs context st ref value
  pending : ∀ ref ∈ deferredSlots waiting, ∃ slot, st.store.slot ref = .ok slot ∧
    slot.value? = none ∧ ReadsUnresolved context st ref
  visible : ∀ name ref, (settled ++ waiting).lookup name = some (.captured ref) →
    inner.lookup st.store name = .ok (.deferred ref)

end Calls

variable {eval : Environment → EvalM Value} {context : EvalContext} {st st' bound : EvalState}
  {inner : Environment} {ref : SlotRef}

theorem readsAs_of_slot {slot : Slot} {value : Value} (hslot : st.store.slot ref = .ok slot)
    (hvalue : slot.value? = some value) : ReadsAs context st ref value := by
  intro name env hlookup
  unfold lookupName
  rw [reader_bind_of_ok (ask_of_ok context hlookup)]
  dsimp only
  rw [reader_bind_of_ok (ask_of_ok context hslot), hvalue]
  rfl

theorem resolve_of_ok {name : TextRef} {text : String}
    (h : context.texts.resolve name = .ok text) : resolve name context st = .ok text st := by
  unfold resolve askMemory
  rw [reader_bind_of_ok (rfl : (get : EvalM EvalState) context st = .ok st st),
    reader_bind_of_ok (rfl : (read : EvalM EvalContext) context st = .ok context st)]
  simp only [h]
  rfl

theorem readsUnresolved_of_slot {slot : Slot} (hslot : st.store.slot ref = .ok slot)
    (hvalue : slot.value? = none) : ReadsUnresolved context st ref := by
  intro name env text hlookup hname
  unfold lookupName
  rw [reader_bind_of_ok (ask_of_ok context hlookup)]
  dsimp only
  rw [reader_bind_of_ok (ask_of_ok context hslot), hvalue]
  dsimp only
  rw [reader_bind_of_ok (resolve_of_ok hname)]
  rfl

theorem Settles.append {front back : List (TextRef × Actual)}
    (h : Settles eval context inner (front ++ back) st st') :
    ∃ mid, Settles eval context inner front st mid ∧ Settles eval context inner back mid st' := by
  induction front generalizing st with
  | nil => exact ⟨st, rfl, h⟩
  | cons entry front ih =>
    obtain ⟨name, actual⟩ := entry
    obtain ⟨u, st₁, hfirst, hrest⟩ := reader_bind_eq_ok_iff.mp h
    obtain ⟨mid, hfront, hback⟩ := ih hrest
    exact ⟨mid, reader_bind_eq_ok_iff.mpr ⟨u, st₁, hfirst, hfront⟩, hback⟩

/-- An argument that has been settled was evaluated, and its slot has the value. -/
theorem exists_of_settle {u : Unit}
    (h : settle eval inner (.captured ref) context st = .ok u st') :
    ∃ slot value left st₁, st.store.slot ref = .ok slot ∧
      onTokens slot.tokens (eval inner) context st = .ok (value, left) st₁ ∧
      ∃ slot', st'.store.slot ref = .ok slot' ∧ slot'.value? = some value := by
  obtain ⟨slot, t, hask, htake⟩ := reader_bind_eq_ok_iff.mp h
  obtain ⟨⟨value, left⟩, st₁, heval, hend⟩ := reader_bind_eq_ok_iff.mp htake
  have hread := (ofStoreM_eq_ok_iff.mp hask).1
  cases hslot : st.store.slot ref with
  | error e =>
    simp only [Store.read, hslot] at hread
    cases hread
  | ok found =>
    rw [ask_of_ok context hslot] at hask
    cases hask
    dsimp only at hend
    split at hend
    · have hfilled := Store.slot_of_fill (ofStoreM_eq_ok_iff.mp hend).1
      exact ⟨slot, value, left, st₁, rfl, heval, hfilled⟩
    · obtain ⟨text, t, -, hfail⟩ := reader_bind_eq_ok_iff.mp hend
      cases hfail

/-- The slots of the arguments in front of one that is to be evaluated have their values. -/
theorem exists_of_settles (hg : ∀ env, Grows (eval env)) {earlier later : List (TextRef × Actual)}
    {name : TextRef}
    (h : Settles eval context inner (earlier ++ (name, .captured ref) :: later) bound st) :
    ∃ slot value, ArgumentIs eval context inner bound earlier ref value ∧
      st.store.slot ref = .ok slot ∧ slot.value? = some value := by
  obtain ⟨st₁, hearlier, h⟩ := h.append
  obtain ⟨u, st₂, hsettle, hlater⟩ := reader_bind_eq_ok_iff.mp h
  obtain ⟨slot, value, left, st₃, hslot, heval, slot', hslot', hvalue⟩ := exists_of_settle hsettle
  have hgrows := ((grows_settleAll hg inner later context).of_ok hlater).1
  obtain ⟨hgeneration, hget⟩ := Store.slot_eq_ok_iff.mp hslot'
  have hext := Store.extends_of_grows hgrows
  obtain ⟨found, hfound, -, -, hkept⟩ := hext.slot hget
  refine ⟨found, value, ⟨st₁, slot, left, st₃, hearlier, hslot, heval⟩, ?_, hkept value hvalue⟩
  exact Store.slot_eq_ok_iff.mpr ⟨hgeneration.trans hext.generation.symm, hfound⟩

theorem lookup_bindingsOf {actuals : List (TextRef × Actual)} {name : TextRef} {actual : Actual}
    (h : actuals.lookup name = some actual) :
    (bindingsOf actuals).lookup name = some actual.toValue := by
  induction actuals with
  | nil => cases h
  | cons entry actuals ih =>
    obtain ⟨key, first⟩ := entry
    have hcons : bindingsOf ((key, first) :: actuals) =
        (key, first.toValue) :: bindingsOf actuals := rfl
    rw [hcons, List.lookup_cons]
    rw [List.lookup_cons] at h
    cases heq : name == key with
    | true =>
      rw [heq] at h
      cases h
      rfl
    | false =>
      rw [heq] at h
      exact ih h

/-- All that an evaluation meets while it evaluates a deferred argument is midway. -/
theorem midway_of_growsAbove (he : ∀ env, Tidy (eval env)) (hg : ∀ env, Grows (eval env))
    {env defining : Environment} {formals : List Formal} {start : EvalState}
    {settled waiting : List (TextRef × Actual)} (hs : start.store.Layout)
    (hbinds : Binds eval context env defining formals start (settled ++ waiting) inner bound)
    (hsettles : Settles eval context inner settled bound st) {met : EvalState}
    (hmet : st.store.GrowsAbove st.store.slots.size met.store) :
    Midway eval context inner bound settled waiting met := by
  obtain ⟨st₁, hbind, hextend⟩ := hbinds
  have hopens := opens_bindActuals he env formals context start
  rw [hbind] at hopens
  obtain ⟨hgrows₁, ha₁⟩ := hopens.of_ok
  have hspares := (tidy_ofStoreM (Environment.leavesSlots_extend defining
    (bindingsOf (settled ++ waiting)))).spares context hgrows₁.size_le ha₁
  rw [hextend] at hspares
  obtain ⟨hgrows₂, ha₂⟩ := hspares.of_ok
  rw [deferredSlots_append] at ha₂
  have hsettled := spares_settleAll context he inner settled hgrows₂.size_le ha₂
  unfold Settles at hsettles
  rw [hsettles] at hsettled
  obtain ⟨hgrows₃, ha₃⟩ := hsettled.of_ok
  refine ⟨?_, ?_, ?_⟩
  · rintro earlier name ref later rfl
    obtain ⟨slot, value, hargument, hslot, hvalue⟩ := exists_of_settles hg hsettles
    have hkept := hmet.slot_eq hslot (Store.index_lt_of_slot hslot)
    exact ⟨slot, value, hargument, hkept, hvalue, readsAs_of_slot hkept hvalue⟩
  · intro ref href
    obtain ⟨slot, hslot, hempty⟩ := ha₃.pending ref href
    have hkept := hmet.slot_eq hslot (Store.index_lt_of_slot hslot)
    exact ⟨slot, hkept, hempty, readsUnresolved_of_slot hkept hempty⟩
  · intro name ref hlookup
    have hlayout : st₁.store.Layout := hs.of_grows hgrows₁.grows
    have hextended := (ofStoreM_eq_ok_iff.mp hextend).1
    have hgrows : bound.store.Grows met.store := IsTrans.trans _ _ _ hgrows₃.grows hmet.grows
    exact Environment.lookup_of_extend hlayout hextended hgrows (lookup_bindingsOf hlookup)

end EvalM

namespace Interpreter

open EvalM

/-- An evaluation, whatever its outcome, leaves the heap that was there. When a call settles one of
its deferred arguments, the evaluation of the argument meets only states in which the arguments in
front of it can be read and it and those behind it cannot: an interrupt that says nothing about
such states does not change the evaluation. -/
theorem evaluate_leavesHeap :
    (∀ (i : Interpreter) (tokens : ListRef) (env : Environment),
      i.LeavesHeap (i.perform tokens (evaluate env))) ∧
    ∀ (levels : Nat) (context : EvalContext) (env defining inner : Environment)
      (formals : List Formal) (settled later : List (TextRef × Actual)) (name : TextRef)
      (ref : SlotRef) (start bound st : EvalState), start.store.Layout →
      Binds (evaluateWithin levels) context env defining formals start
        (settled ++ (name, .captured ref) :: later) inner bound →
      Settles (evaluateWithin levels) context inner settled bound st →
      ∃ slot, st.store.slot ref = .ok slot ∧ ∀ interrupt : Interrupt,
        (∀ met, Midway (evaluateWithin levels) context inner bound settled
          ((name, .captured ref) :: later) met → interrupt met = none) →
        onTokens slot.tokens (evaluateUnder interrupt levels inner) context st =
          onTokens slot.tokens (evaluateWithin levels inner) context st := by
  refine ⟨fun i tokens env => leavesHeap_perform (tidy_evaluate env) i tokens, ?_⟩
  intro levels context env defining inner formals settled later name ref start bound st
    hs hbinds hsettles
  let Met : Store → Prop := fun s => st.store.GrowsAbove st.store.slots.size s
  have hmidway : ∀ met : EvalState, Met met.store →
      Midway (evaluateWithin levels) context inner bound settled
        ((name, .captured ref) :: later) met := fun met hmet =>
    midway_of_growsAbove (tidy_evaluateWithin levels) (grows_evaluateWithin levels) hs hbinds
      hsettles hmet
  have hstart : Met st.store := .refl (Nat.le_refl _)
  have hmem : ref ∈ deferredSlots ((name, .captured ref) :: later) :=
    mem_deferredSlots.mpr ⟨name, List.mem_cons_self⟩
  obtain ⟨slot, hslot, -⟩ := (hmidway st hstart).pending ref hmem
  refine ⟨slot, hslot, fun interrupt hsilent => ?_⟩
  have hlasting : Lasting Met := fun s s' hmet hgrows => hmet.trans (hgrows.mono hmet.size_le)
  have hraises : ∀ met e st', Met met.store → interrupt met = some (e, st') → False := by
    intro met e st' hmet hspeaks
    rw [hsilent met (hmidway met hmet)] at hspeaks
    cases hspeaks
  have hfollows := (follows_evaluateWithin hlasting hraises levels inner).onTokens slot.tokens
  rcases hfollows.breaks context st hstart with hsame | ⟨e, st', -, hraised⟩
  · exact hsame
  · exact hraised.elim

/-- The slots of the arguments that steps give. -/
def slotsGiven {σ : Type} : EStateM.Result EvalError σ (List (TextRef × Actual)) →
    List (TextRef × Option SlotRef)
  | .ok actuals _ => actuals.map fun entry => (entry.1, entry.2.slot?)
  | .error _ _ => []

/-- The second argument of a call with two deferred ones, which is the first parameter. -/
theorem evaluate_leavesHeap_second_argument :
    let context : EvalContext := ⟨{ entries := #["x", "y", "a"] }, 8⟩
    let formals : List Formal := [⟨.deferred, ⟨0, 0⟩⟩, ⟨.deferred, ⟨1, 0⟩⟩]
    let tokens : List Value :=
      [.string ⟨2, 0⟩, .delimiter ',', .atom ⟨0, 0⟩, .delimiter ')']
    let start : EvalState := ⟨stateOf (Store.ofList tokens (Store.new 8 none)), .chain ⟨3, 0⟩, 1⟩
    let settled : List (TextRef × Actual) := [(⟨0, 0⟩, .captured ⟨0, 0⟩)]
    let waiting : List (TextRef × Actual) := [(⟨1, 0⟩, .captured ⟨1, 0⟩)]
    ∃ inner bound st slot, Binds (evaluateWithin 7) context {} {} formals start
        (settled ++ waiting) inner bound ∧
      Settles (evaluateWithin 7) context inner settled bound st ∧
      st.store.slot ⟨1, 0⟩ = .ok slot ∧ ∀ interrupt : Interrupt,
        (∀ met, Midway (evaluateWithin 7) context inner bound settled waiting met →
          interrupt met = none) →
        onTokens slot.tokens (evaluateUnder interrupt 7 inner) context st =
          onTokens slot.tokens (evaluateWithin 7 inner) context st := by
  intro context formals tokens start settled waiting
  let steps : EvalM (List (TextRef × Actual)) := do
    let actuals ← bindActuals (evaluateWithin 7) {} formals
    let inner ← ofStoreM (({} : Environment).extend (bindingsOf actuals))
    (actuals.take 1).forM fun (_, actual) => settle (evaluateWithin 7) inner actual
    pure actuals
  have hgiven : slotsGiven (steps context start) =
      [(⟨0, 0⟩, some ⟨0, 0⟩), (⟨1, 0⟩, some ⟨1, 0⟩)] := by decide +kernel
  have hs : start.store.Layout :=
    (Store.layout_new 8 none fitsBlock).of_grows (Store.keeps_ofList tokens (Store.new 8 none))
  cases hsteps : steps context start with
  | error e st =>
    rw [hsteps] at hgiven
    cases hgiven
  | ok actuals st =>
    rw [hsteps] at hgiven
    obtain ⟨actuals', st₁, hbind, hrest⟩ := reader_bind_eq_ok_iff.mp hsteps
    obtain ⟨inner, bound, hextend, hrest⟩ := reader_bind_eq_ok_iff.mp hrest
    obtain ⟨_, st', hsettles, hend⟩ := reader_bind_eq_ok_iff.mp hrest
    cases hend
    have hactuals : actuals = settled ++ waiting := by
      rcases actuals with _ | ⟨⟨x, first⟩, _ | ⟨⟨y, second⟩, _ | ⟨third, more⟩⟩⟩
      · simp [slotsGiven] at hgiven
      · simp [slotsGiven] at hgiven
      · cases first <;> cases second <;> simp_all [slotsGiven, Actual.slot?, settled, waiting]
      · simp [slotsGiven] at hgiven
    subst hactuals
    have hbinds : Binds (evaluateWithin 7) context {} {} formals start (settled ++ waiting) inner
      bound := ⟨st₁, hbind, hextend⟩
    obtain ⟨slot, hslot, hsame⟩ := evaluate_leavesHeap.2 7 context {} {} inner formals settled []
      ⟨1, 0⟩ ⟨1, 0⟩ start bound st hs hbinds hsettles
    exact ⟨inner, bound, st, slot, hbinds, hsettles, hslot, hsame⟩

end Interpreter

end BraceLang
