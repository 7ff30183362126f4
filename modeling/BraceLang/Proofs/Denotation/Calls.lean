import BraceLang.Proofs.Denotation.Operations
import BraceLang.Proofs.Plain.Slots

/-!
# Simulation of closures and calls

A name is looked up in an environment as in the scope that it stands for, since two references are
equal exactly when their texts are. The slots of captured arguments are empty when the arguments are
evaluated, so that filling them never fails.

* `simulates_lookupName`, `simulates_closure`: names and closures.
* `simulates_bindActuals`, `simulates_extend`, `simulates_settleAll`: the steps of a call.
* `simulates_application`: what stands in parentheses.
-/

namespace BraceLang

open Plain

/-! ## Names -/

namespace Memory

variable {m : Memory} {part : Value → Datum Tokens → Prop} {name : TextRef} {text : List Char}

/-- The entries of a frame have the same binding for a name as the frame that they stand for. -/
theorem lookupEntries_eq (ht : m.texts.Distinct) (hname : m.texts.Names name text)
    {bindings : List (TextRef × Value)} {frame : Frame Tokens}
    (h : List.Forall₂ (m.DenotesBinding part) bindings frame) :
    ∃ v?, Environment.lookupEntries name ((bindings.flatMap bindingEntries).map .ok) = .ok v? ∧
      Option.Rel (m.DenotesBound part) v? (frame.lookup text) := by
  induction h with
  | nil => exact ⟨none, rfl, .none⟩
  | @cons binding entry bindings frame hentry _ ih =>
    obtain ⟨ref, v⟩ := binding
    obtain ⟨key, bound⟩ := entry
    have hsame : (ref == name) = (text == key) := by
      rw [hentry.name.beq_eq ht hname, Bool.beq_comm]
    simp only [List.flatMap_cons, bindingEntries, List.cons_append, List.nil_append, List.map_cons,
      Environment.lookupEntries, Value.same, hsame, List.lookup_cons]
    by_cases hkey : (text == key) = true
    · simp only [hkey, if_true]
      exact ⟨some v, rfl, .some hentry.bound⟩
    · simp only [Bool.not_eq_true] at hkey
      simp only [hkey]
      exact ih

theorem lookupFrames_eq (hs : m.store.Layout) (ht : m.texts.Distinct)
    (hname : m.texts.Names name text) {values : List Value} {scope : Scope Tokens}
    (h : List.Forall₂ (m.DenotesFrame part) values scope) :
    match scope.lookup text with
    | none => Environment.lookupFrames m.store name (values.map .ok) = .ok .absent
    | some bound => ∃ v, Environment.lookupFrames m.store name (values.map .ok) = .ok v ∧
        m.DenotesBound part v bound := by
  induction h with
  | nil => rfl
  | @cons v frame values scope hframe _ ih =>
    cases hframe with
    | list hchain hbindings =>
      obtain ⟨v?, hlookup, hrel⟩ := lookupEntries_eq ht hname hbindings
      simp only [Scope.lookup, List.findSome?_cons, List.map_cons, Environment.lookupFrames,
        hchain.items_eq hs, hlookup, bind, Except.bind]
      generalize frame.lookup text = found at hrel
      cases hrel with
      | some hbound => exact ⟨_, rfl, hbound⟩
      | none => exact ih

theorem lookup_eq (hs : m.store.Layout) (ht : m.texts.Distinct) (hname : m.texts.Names name text)
    {env : Environment} {scope : Scope Tokens} (henv : m.DenotesEnv env scope) :
    match scope.lookup text with
    | none => env.lookup m.store name = .ok .absent
    | some bound => ∃ v, env.lookup m.store name = .ok v ∧ m.DenotesBound m.Denotes v bound := by
  obtain ⟨values, hchain, hframes⟩ := henv
  have h := lookupFrames_eq hs ht hname hframes
  unfold Environment.lookup
  rw [hchain.items_eq hs]
  exact h

end Memory

section Steps

variable {context : EvalContext} {limits : Limits} {st : EvalState} {tokens : Tokens}
  {core : Core Tokens} {env : Environment} {scope : Scope Tokens}

theorem simulates_lookupName (h : Models context limits st tokens core) {name : TextRef}
    {text : List Char} (hname : context.texts.Names name text)
    (henv : (st.memory context).DenotesEnv env scope) :
    Simulates context limits st tokens core (EvalM.lookupName name env)
      (CoreM.lookupName text scope).lift Memory.Denotes := by
  have hlookup := Memory.lookup_eq h.layout h.distinct hname henv
  unfold EvalM.lookupName CoreM.lookupName
  cases hfound : scope.lookup text with
  | none =>
    rw [hfound] at hlookup
    refine Simulates.bind_left (EvalM.ask_of_ok context hlookup) ?_
    refine Simulates.bind_left (resolve_of_names hname) ?_
    exact Agrees.error ⟨.undefinedVariable (String.ofList text), rfl⟩ h.used
  | some bound =>
    rw [hfound] at hlookup
    obtain ⟨v, hv, hbound⟩ := hlookup
    refine Simulates.bind_left (EvalM.ask_of_ok context hv) ?_
    cases hbound with
    | value hdenotes =>
      have hpure : Simulates context limits st tokens core (pure v) (pure _) Memory.Denotes :=
        Simulates.pure h hdenotes
      cases hdenotes.cases <;> exact hpure
    | @slot ref hgeneration hindex =>
      have hslot := Memory.slot_eq hgeneration hindex
      refine Simulates.bind_left (EvalM.ask_of_ok context hslot) ?_
      have hvalue := h.slots.value (Array.getElem?_eq_getElem hindex)
      simp only [CoreM.lift_bind]
      refine Simulates.bind_right (x := core) rfl ?_
      generalize (st.memory context).store.slots[ref.index].value? = value? at hvalue
      generalize core.slots.value? ref.index = datum? at hvalue
      cases hvalue with
      | some hdenotes => exact Agrees.ok h (.refl _) hdenotes
      | none =>
        refine Simulates.bind_left (resolve_of_names hname) ?_
        exact Agrees.error ⟨.unresolvedDeferred (String.ofList text), rfl⟩ h.used

/-! ## Closures -/

theorem length_flatMap_pairs {α β : Type} {f : α → List β} (h : ∀ a, (f a).length = 2)
    (xs : List α) : (xs.flatMap f).length = 2 * xs.length := by
  induction xs with
  | nil => rfl
  | cons x xs ih =>
    rw [List.flatMap_cons, List.length_append, List.length_cons, h, ih]
    omega

theorem length_entries {t : TextTable} {formals : List Formal} {params : List Param}
    (h : List.Forall₂ t.DenotesFormal formals params) :
    (formals.flatMap Closure.entriesOf).length = 2 * params.length := by
  rw [← h.length_eq]
  exact length_flatMap_pairs (fun _ => rfl) formals

theorem simulates_closure (h : Models context limits st tokens core)
    (henv : (st.memory context).DenotesEnv env scope) :
    Simulates context limits st tokens core (EvalM.closure env) (closure scope) Memory.Denotes := by
  refine (simulates_formals h).bind
    fun entries params st₁ tokens₁ core₁ _ hmodels₁ hext₁ hread₁ => ?_
  refine (simulates_body hmodels₁).bind
    fun values body st₂ tokens₂ core₂ _ hmodels₂ hext₂ hread₂ => ?_
  obtain ⟨formals, hentries, hformals⟩ := hread₁
  obtain ⟨found, hvalues, hbody⟩ := hread₂
  simp only [List.nil_append] at hentries hvalues
  subst hentries hvalues
  rw [EvalM.ofStoreM_bind, ← length_entries hformals, ← hbody.length_eq]
  refine (simulates_ofList hmodels₂ _).bind fun f _ st₃ tokens₃ core₃ _ hmodels₃ hext₃ hf => ?_
  rw [EvalM.ofStoreM_bind]
  refine (simulates_ofList hmodels₃ _).bind fun b _ st₄ tokens₄ core₄ _ hmodels₄ hext₄ hb => ?_
  unfold Closure.build
  rw [EvalM.ofStoreM_map, ← bind_pure_comp]
  refine (simulates_ofList hmodels₄ [.list f, .list b, .list env.frames]).bind
    fun parts _ st₅ tokens₅ core₅ _ hmodels₅ hext₅ hparts => ?_
  refine Simulates.pure hmodels₅ ?_
  have hold := ((hext₁.trans hext₂).trans hext₃).trans (hext₄.trans hext₅)
  have hused : (st₄.memory context).store.used + 3 = (st₅.memory context).store.used :=
    hparts.2.symm
  have hle := ((hext₁.trans hext₂).trans (hext₃.trans hext₄)).store.used_le
  exact .closure hparts.1 (hf.1.mono (hext₄.trans hext₅).store) hformals
    ⟨values, hb.1.mono hext₅.store, hbody⟩
    (Memory.DenotesScope.mono henv hold fun _ _ h => Memory.DenotesWithin.mono h hold (by omega))

theorem simulates_captureArgument (h : Models context limits st tokens core) :
    Simulates context limits st tokens core EvalM.captureArgument captureArgument
      (fun m found found' => m.DenotesTokens found.1 found'.1 ∧ found.2 = found'.2) := by
  refine (simulates_argument h).bind fun found found' st₁ tokens₁ core₁ _ hmodels₁ _ hread => ?_
  obtain ⟨values, separator⟩ := found
  obtain ⟨argument, separator'⟩ := found'
  obtain ⟨⟨all, hvalues, hargument⟩, hseparator⟩ := hread
  simp only [List.nil_append] at hvalues hargument hseparator
  subst hvalues
  simp only [← hargument.length_eq]
  refine (simulates_ofList hmodels₁ _).bind fun l _ st₂ tokens₂ core₂ _ hmodels₂ _ hl => ?_
  exact Simulates.pure hmodels₂ ⟨⟨values, hl.1, hargument⟩, hseparator⟩

end Steps

/-! ## Actual parameters -/

namespace Memory

variable (m : Memory)

/-- An actual parameter for a formal one of that name. -/
inductive DenotesActual (name : TextRef) : BraceLang.Actual → Plain.Actual Tokens → Prop
  | evaluated {v : Value} {d : Datum Tokens} : m.Denotes v d →
      DenotesActual name (.evaluated v) (.evaluated d)
  | captured {ref : SlotRef} {index : Nat} {argument : Tokens} :
    m.HoldsArgument ref name index argument →
      DenotesActual name (.captured ref) (.captured index argument)

/-- A name and its actual parameter. -/
structure DenotesEntry (binding : TextRef × BraceLang.Actual)
    (entry : List Char × Plain.Actual Tokens) : Prop where
  name : m.texts.Names binding.1 entry.1
  actual : m.DenotesActual binding.1 binding.2 entry.2

variable {m} {m' : Memory}

theorem DenotesActual.mono {name : TextRef} {a : BraceLang.Actual} {b : Plain.Actual Tokens}
    (h : m.DenotesActual name a b) (hext : m.Extends m') : m'.DenotesActual name a b := by
  cases h with
  | evaluated h => exact .evaluated (h.mono hext)
  | captured h => exact .captured (h.mono hext)

theorem DenotesEntry.mono {binding : TextRef × BraceLang.Actual}
    {entry : List Char × Plain.Actual Tokens} (h : m.DenotesEntry binding entry)
    (hext : m.Extends m') : m'.DenotesEntry binding entry :=
  ⟨hext.texts h.name, h.actual.mono hext⟩

theorem DenotesActual.bound {name : TextRef} {a : BraceLang.Actual} {b : Plain.Actual Tokens}
    (h : m.DenotesActual name a b) : m.DenotesBound m.Denotes a.toValue b.bound := by
  cases h with
  | evaluated h => exact .value h
  | @captured ref index argument h =>
    obtain ⟨rfl, slot, hslot, -, -⟩ := h
    exact .slot rfl (Array.getElem?_eq_some_iff.mp hslot).1

end Memory

section Calls

variable {context : EvalContext} {limits : Limits} {st : EvalState} {tokens : Tokens}
  {core : Core Tokens} {env : Environment} {scope : Scope Tokens}
  {eval : Environment → EvalM Value} {eval' : Scope Tokens → TokenM (Datum Tokens)}

/-- Terms are evaluated on the memory as on data, wherever they stand. -/
def SimulatesTerms (context : EvalContext) (eval : Environment → EvalM Value)
    (eval' : Scope Tokens → TokenM (Datum Tokens)) : Prop :=
  ∀ m env scope, m.DenotesEnv env scope →
    SimulatesFrom context m (eval env) (eval' scope) Memory.Denotes

theorem SimulatesTerms.apply (he : SimulatesTerms context eval eval')
    (h : Models context limits st tokens core) (henv : (st.memory context).DenotesEnv env scope) :
    Simulates context limits st tokens core (eval env) (eval' scope) Memory.Denotes :=
  he _ _ _ henv _ _ _ _ h (.refl _)

theorem simulates_bindActual (he : SimulatesTerms context eval eval')
    (h : Models context limits st tokens core) (henv : (st.memory context).DenotesEnv env scope)
    {formal : Formal} {param : Param} (hformal : context.texts.DenotesFormal formal param) :
    Simulates context limits st tokens core (EvalM.bindActual eval env formal)
      (bindActual eval' scope param)
      (fun m found found' => m.DenotesActual formal.name found.1 found'.1 ∧
        found.2 = found'.2) := by
  unfold EvalM.bindActual bindActual
  rw [hformal.mode]
  cases param.mode with
  | eager =>
    refine (he.apply h henv).bind fun v d st₁ tokens₁ core₁ _ hmodels₁ _ hv => ?_
    refine (simulates_separator hmodels₁).bind
      fun found found' st₂ tokens₂ core₂ _ hmodels₂ hext₂ hfound => ?_
    exact Simulates.pure hmodels₂ ⟨.evaluated (hv.mono hext₂), hfound⟩
  | deferred =>
    refine (simulates_captureArgument h).bind
      fun found found' st₁ tokens₁ core₁ _ hmodels₁ _ hfound => ?_
    obtain ⟨l, separator⟩ := found
    obtain ⟨argument, separator'⟩ := found'
    obtain ⟨hargument, hseparator⟩ := hfound
    refine (simulates_newSlot hmodels₁ formal.name hargument).bind
      fun ref index st₂ tokens₂ core₂ _ hmodels₂ _ hslot => ?_
    exact Simulates.pure hmodels₂ ⟨.captured hslot, hseparator⟩

theorem simulates_bindActuals (he : SimulatesTerms context eval eval')
    (h : Models context limits st tokens core) (henv : (st.memory context).DenotesEnv env scope)
    {formals : List Formal} {params : List Param}
    (hformals : List.Forall₂ context.texts.DenotesFormal formals params) :
    Simulates context limits st tokens core (EvalM.bindActuals eval env formals)
      (bindActuals eval' scope params)
      (fun m actuals actuals' => List.Forall₂ m.DenotesEntry actuals actuals') := by
  induction hformals generalizing st tokens core with
  | nil => exact Simulates.pure h .nil
  | @cons formal param formals params hformal hformals ih =>
    unfold EvalM.bindActuals bindActuals
    refine (simulates_bindActual he h henv hformal).bind
      fun found found' st₁ tokens₁ core₁ _ hmodels₁ hext₁ hfound => ?_
    obtain ⟨actual, separator⟩ := found
    obtain ⟨actual', separator'⟩ := found'
    obtain ⟨hactual, hseparator⟩ := hfound
    simp only at hseparator hactual
    subst hseparator
    have hlast : formals.isEmpty = params.isEmpty := by cases hformals <;> rfl
    simp only [hlast]
    refine (simulates_checkSeparator hmodels₁ _ _).bind
      fun _ _ st₂ tokens₂ core₂ _ hmodels₂ hext₂ _ => ?_
    refine (ih hmodels₂ (henv.mono (hext₁.trans hext₂))).bind
      fun actuals actuals' st₃ tokens₃ core₃ _ hmodels₃ hext₃ hactuals => ?_
    have hentry : (st₁.memory context).DenotesEntry (formal.name, actual) (param.name, actual') :=
      ⟨hformal.name, hactual⟩
    exact Simulates.pure hmodels₃ (.cons (hentry.mono (hext₂.trans hext₃)) hactuals)

/-- The bindings of a call. -/
def bindingsOf (actuals : List (TextRef × BraceLang.Actual)) : List (TextRef × Value) :=
  actuals.map fun (name, actual) => (name, actual.toValue)

theorem denotesBindings {m : Memory} {actuals : List (TextRef × BraceLang.Actual)}
    {actuals' : List (List Char × Plain.Actual Tokens)}
    (h : List.Forall₂ m.DenotesEntry actuals actuals') :
    List.Forall₂ (m.DenotesBinding m.Denotes) (bindingsOf actuals)
      (actuals'.map fun entry => (entry.1, entry.2.bound)) := by
  induction h with
  | nil => exact .nil
  | cons hentry _ ih => exact .cons ⟨hentry.name, hentry.actual.bound⟩ ih

theorem extend_eq_bind (env : Environment) (bindings : List (TextRef × Value)) :
    env.extend bindings = Store.ofList (bindings.flatMap Memory.bindingEntries) >>= fun frame =>
      Store.push env.frames (.list frame) >>= fun frames => pure ⟨frames⟩ :=
  rfl

theorem simulates_extend (h : Models context limits st tokens core)
    (henv : (st.memory context).DenotesEnv env scope)
    {actuals : List (TextRef × BraceLang.Actual)}
    {actuals' : List (List Char × Plain.Actual Tokens)}
    (hactuals : List.Forall₂ (st.memory context).DenotesEntry actuals actuals') :
    Simulates context limits st tokens core (EvalM.ofStoreM (env.extend (bindingsOf actuals)))
      (extend scope actuals').lift Memory.DenotesEnv := by
  have hbindings := denotesBindings hactuals
  have hlength : 2 * actuals'.length =
      ((bindingsOf actuals).flatMap Memory.bindingEntries).length := by
    rw [length_flatMap_pairs fun _ => rfl, bindingsOf, List.length_map, hactuals.length_eq]
  have hcharge : (CoreM.charge 1 : CoreM Tokens Unit) = CoreM.alloc := by simp [CoreM.charge]
  obtain ⟨frames, hchain, hframes⟩ := henv
  rw [extend_eq_bind, extend_eq, EvalM.ofStoreM_bind, CoreM.lift_bind, hlength]
  refine (simulates_ofList h _).bind fun frame _ st₁ tokens₁ core₁ _ hmodels₁ hext₁ hframe => ?_
  rw [EvalM.ofStoreM_bind, CoreM.lift_bind, hcharge]
  refine (simulates_push hmodels₁ (hchain.mono hext₁.store) (.list frame)).bind
    fun l _ st₂ tokens₂ core₂ _ hmodels₂ hext₂ hl => ?_
  have hext := hext₁.trans hext₂
  refine Simulates.pure hmodels₂ ⟨.list frame :: frames, hl.1, .cons ?_ ?_⟩
  · exact .list (hframe.1.mono hext₂.store)
      (hbindings.imp fun _ _ h => h.mono hext fun _ _ h => h.mono hext)
  · exact hframes.imp fun _ _ h => h.mono hext fun _ _ h => h.mono hext

/-! ## Deferred arguments and bodies -/

theorem isEmpty_of_denotesTokens {m : Memory} {l : ListRef} {tokens : Tokens}
    (h : m.DenotesTokens l tokens) : l.isEmpty = tokens.isEmpty := by
  obtain ⟨values, hchain, htokens⟩ := h
  exact Memory.isEmpty_eq hchain htokens

theorem simulates_settle (he : SimulatesTerms context eval eval')
    (h : Models context limits st tokens core) (henv : (st.memory context).DenotesEnv env scope)
    {name : TextRef} {text : List Char} {actual : BraceLang.Actual} {actual' : Plain.Actual Tokens}
    (hentry : (st.memory context).DenotesEntry (name, actual) (text, actual'))
    (hkeeps : ∀ n scope, ReadM.KeepsBelow n (eval' scope)) {start : Nat}
    {rest : List (List Char × Plain.Actual Tokens)}
    (hfresh : Fresh start core ((text, actual') :: rest)) :
    Simulates context limits st tokens core (EvalM.settle eval env actual)
      (settle eval' scope text actual').lift (fun _ _ _ => True) := by
  have hname := hentry.name
  cases hentry.actual with
  | evaluated _ => exact Simulates.pure h trivial
  | @captured ref index argument hholds =>
    obtain ⟨href, slot, hslot, hslotname, hargument⟩ := hholds
    have hget : st.store.slot ref = .ok slot := Store.slot_eq_ok_iff.mpr (by
      rw [href]
      exact ⟨rfl, hslot⟩)
    unfold EvalM.settle settle
    refine Simulates.bind_left (EvalM.ask_of_ok context hget) ?_
    rw [CoreM.lift_bind]
    have hcursor := h.with_cursor hargument
    refine (Simulates.onTokens h (he.apply hcursor henv)).bind
      fun found found' st₁ tokens₁ core₁ hrun hmodels₁ hext₁ hfound => ?_
    obtain ⟨v, left⟩ := found
    obtain ⟨d, left'⟩ := found'
    obtain ⟨hv, hleft⟩ := hfound
    simp only at hv hleft
    simp only [isEmpty_of_denotesTokens hleft]
    cases left' with
    | nil =>
      have hsame := hkeeps core.slots.size scope argument limits core _ _ (Nat.le_refl _)
        (ReadM.lift_eq_ok_iff.mp hrun).1
      have hempty := (hfresh.mono hsame).value?_eq_none
      have hholds : (st.memory context).HoldsArgument ref name index argument :=
        ⟨href, slot, hslot, hslotname, hargument⟩
      exact simulates_fill hmodels₁ (hholds.mono hext₁) hempty hv
    | cons token left' =>
      have hresolve : context.texts.Names slot.name text := by
        rw [hslotname]
        exact hname
      refine Simulates.bind_left (resolve_of_names hresolve) ?_
      exact Simulates.fail hmodels₁ ⟨.trailingArgument (String.ofList text), rfl⟩

theorem simulates_settleAll (he : SimulatesTerms context eval eval')
    (h : Models context limits st tokens core) (henv : (st.memory context).DenotesEnv env scope)
    (hkeeps : ∀ n scope, ReadM.KeepsBelow n (eval' scope)) {start : Nat}
    {actuals : List (TextRef × BraceLang.Actual)}
    {actuals' : List (List Char × Plain.Actual Tokens)}
    (hactuals : List.Forall₂ (st.memory context).DenotesEntry actuals actuals')
    (hfresh : Fresh start core actuals') :
    Simulates context limits st tokens core
      (actuals.forM fun (_, actual) => EvalM.settle eval env actual)
      (settleAll eval' scope actuals').lift (fun _ _ _ => True) := by
  induction actuals generalizing actuals' st tokens core with
  | nil =>
    cases hactuals
    exact Simulates.pure h trivial
  | cons binding actuals ih =>
    obtain ⟨name, actual⟩ := binding
    cases hactuals with
    | @cons _ entry _ actuals' hentry hactuals =>
      obtain ⟨text, actual'⟩ := entry
      unfold settleAll
      simp only [List.forM_eq_forM, List.forM_cons, CoreM.lift_bind]
      refine (simulates_settle he h henv hentry hkeeps hfresh).bind
        fun _ _ st₁ tokens₁ core₁ hrun hmodels₁ hext₁ _ => ?_
      exact ih hmodels₁ (henv.mono hext₁) (hactuals.imp fun _ _ h => h.mono hext₁)
        (hfresh.settle hkeeps (ReadM.lift_eq_ok_iff.mp hrun).1)

theorem simulates_runBody (he : SimulatesTerms context eval eval')
    (h : Models context limits st tokens core) (henv : (st.memory context).DenotesEnv env scope)
    {l : ListRef} {body : Tokens} (hbody : (st.memory context).DenotesTokens l body) :
    Simulates context limits st tokens core (EvalM.runBody eval env l)
      (runBody eval' scope body).lift Memory.Denotes := by
  unfold EvalM.runBody runBody
  rw [CoreM.lift_bind]
  refine (Simulates.onTokens h (he.apply (h.with_cursor hbody) henv)).bind
    fun found found' st₁ tokens₁ core₁ _ hmodels₁ _ hfound => ?_
  obtain ⟨v, left⟩ := found
  obtain ⟨d, left'⟩ := found'
  obtain ⟨hv, hleft⟩ := hfound
  simp only at hv hleft
  simp only [isEmpty_of_denotesTokens hleft]
  cases left' with
  | nil => exact Simulates.pure hmodels₁ hv
  | cons token left' => exact Simulates.fail hmodels₁ ⟨.trailingBody, rfl⟩

/-! ## Calls -/

theorem simulates_call (he : SimulatesTerms context eval eval')
    (hkeeps : ∀ n scope, ReadM.KeepsBelow n (eval' scope))
    (h : Models context limits st tokens core) (henv : (st.memory context).DenotesEnv env scope)
    {f b e : ListRef} {formals : List Formal} {params : List Param} {body : Tokens}
    {defining : Scope Tokens} (hchain : st.store.Chain f (formals.flatMap Closure.entriesOf))
    (hformals : List.Forall₂ context.texts.DenotesFormal formals params)
    (hbody : (st.memory context).DenotesTokens b body)
    (hdefining : (st.memory context).DenotesEnv ⟨e⟩ defining) :
    Simulates context limits st tokens core (EvalM.call eval env ⟨f, b, e⟩)
      (call eval' scope params body defining) Memory.Denotes := by
  have hlist : EvalM.askMemory (fun m => Closure.formalList m.store ⟨f, b, e⟩) context st =
      .ok formals st := askMemory_of_ok (Memory.formalList_eq h.layout hchain)
  unfold EvalM.call
  refine Simulates.bind_left hlist ?_
  cases hformals with
  | nil =>
    refine (simulates_expect h ')').bind fun _ _ st₁ tokens₁ core₁ _ hmodels₁ hext₁ _ => ?_
    exact simulates_runBody he hmodels₁ (hdefining.mono hext₁) (hbody.mono hext₁)
  | cons hformal hformals =>
    refine (simulates_bindActuals he h henv (.cons hformal hformals)).bind
      fun actuals actuals' st₁ tokens₁ core₁ hrun hmodels₁ hext₁ hactuals => ?_
    have hfresh := fresh_bindActuals hkeeps hrun
    refine (simulates_extend hmodels₁ (hdefining.mono hext₁) hactuals).bind
      fun inner inner' st₂ tokens₂ core₂ hrun₂ hmodels₂ hext₂ hinner => ?_
    have hsame := keepsBelow_extend _ _ _ _ _ _ (Nat.le_refl _) (ReadM.lift_eq_ok_iff.mp hrun₂).1
    refine (simulates_settleAll he hmodels₂ hinner hkeeps
      (hactuals.imp fun _ _ h => h.mono hext₂) (hfresh.mono hsame)).bind
      fun _ _ st₃ tokens₃ core₃ _ hmodels₃ hext₃ _ => ?_
    exact simulates_runBody he hmodels₃ (hinner.mono hext₃)
      (hbody.mono ((hext₁.trans hext₂).trans hext₃))

theorem simulates_notAFunction (h : Models context limits st tokens core) {v : Value}
    {d : Datum Tokens} (hv : (st.memory context).Denotes v d)
    {R : Memory → Value → Datum Tokens → Prop} :
    Simulates context limits st tokens core
      (do throw (.notAFunction (← EvalM.askMemory (·.render v))))
      (do throw (.notAFunction (← (render d).lift))) R := by
  have hrender : EvalM.askMemory (·.render v) context st =
      .ok (String.ofList (d.full core.slots)) st :=
    askMemory_of_ok (Memory.render_eq h.layout h.slots hv)
  refine Simulates.bind_left hrender ?_
  refine Simulates.bind_right (x := String.ofList (d.full core.slots)) rfl ?_
  exact Agrees.error (.notAFunction (String.ofList (d.full core.slots))) h.used

theorem simulates_function (he : SimulatesTerms context eval eval')
    (hkeeps : ∀ n scope, ReadM.KeepsBelow n (eval' scope))
    (h : Models context limits st tokens core) (henv : (st.memory context).DenotesEnv env scope) :
    Simulates context limits st tokens core
      (do
        match ← eval env with
        | .closure parts =>
          let callee ← EvalM.askMemory (Closure.ofList ·.store parts)
          EvalM.call eval env callee
        | other => throw (.notAFunction (← EvalM.askMemory (·.render other))))
      (application.function eval' scope) Memory.Denotes := by
  unfold application.function
  refine (he.apply h henv).bind fun v d st₁ tokens₁ core₁ _ hmodels₁ hext₁ hv => ?_
  have hfail := simulates_notAFunction hmodels₁ hv (R := Memory.Denotes)
  cases hv.cases with
  | number => exact hfail
  | string _ => exact hfail
  | list _ _ => exact hfail
  | closure hparts hformals hparams hbody hscope =>
    refine Simulates.bind_left (askMemory_of_ok (Memory.closureOfList_eq hmodels₁.layout hparts)) ?_
    refine simulates_call he hkeeps hmodels₁ (henv.mono hext₁) hformals hparams hbody ?_
    exact hscope.mono (.refl _) fun _ _ h => h.denotes (Nat.le_succ _)

theorem simulates_application (he : SimulatesTerms context eval eval')
    (hkeeps : ∀ n scope, ReadM.KeepsBelow n (eval' scope)) {skip : EvalM Unit} {skip' : TokenM Unit}
    (h : Models context limits st tokens core) (henv : (st.memory context).DenotesEnv env scope)
    (hs : SimulatesFrom context (st.memory context) skip skip' (fun _ _ _ => True)) :
    Simulates context limits st tokens core (EvalM.application eval skip env)
      (application eval' skip' scope) Memory.Denotes := by
  unfold EvalM.application
  cases tokens with
  | nil =>
    refine Simulates.bind_left h.look?_nil ?_
    exact Simulates.fail h .endOfText
  | cons token tokens =>
    obtain ⟨v, rest, hlook, hv, hrest⟩ := h.look?_cons
    refine Simulates.bind_left hlook ?_
    cases hv with
    | @keyword op =>
      have hoperation : Simulates context limits { st with cursor := rest } tokens core
          (do
            let value ← EvalM.nested (EvalM.applyKeyword (eval env) skip op)
            EvalM.expect ')'
            pure value)
          (application.operation eval' skip' scope op) Memory.Denotes := by
        have happly := simulates_applyKeyword hrest.deeper (he _ _ _ henv) hs op
        refine (Simulates.nested hrest happly).bind fun v d st₁ tokens₁ core₁ _ hmodels₁ _ hv => ?_
        refine (simulates_expect hmodels₁ ')').bind
          fun _ _ st₂ tokens₂ core₂ _ hmodels₂ hext₂ _ => ?_
        exact Simulates.pure hmodels₂ (hv.mono hext₂)
      exact Agrees.of_extends hoperation (.refl _)
    | delimiter => exact simulates_function he hkeeps h henv
    | string _ => exact simulates_function he hkeeps h henv
    | number => exact simulates_function he hkeeps h henv
    | atom _ => exact simulates_function he hkeeps h henv

end Calls

end BraceLang
