import Mathlib.Data.Fin.VecNotation
import BraceLang.Proofs.Interpreter.Independence
import BraceLang.Proofs.Plain.Reading
import BraceLang.Proofs.Plain.Safety
import BraceLang.Proofs.Reference.Refinement

/-!
# Scopes of programs without deferred parameters

A term is scoped when every name in it is a formal parameter of a closure around it, or one of some
given names, and no parameter is deferred. A value is scoped when the names that are free in the
bodies of its closures are bound in their environments, to scoped values.

Values stay so however they are passed and stored: a closure is made where the names that are free
in it are bound, and it is called with its environment and one value for each parameter. Hence a
scoped text never asks for a name that has no value.

* `Term.Scoped`, `Datum.Scoped`: terms and values.
* `Reference.evaluates_evaluateWithin`: evaluation keeps values scoped, and no name is unbound.
* `Interpreter.evalText_spares_names`: a scoped text never fails for a name.
-/

namespace BraceLang

mutual

/-- The names in the term are formal parameters around it or among the given ones, and no parameter
is deferred. -/
def Term.Scoped : List (List Char) → Term → Prop
  | names, .operation _ operands => ∀ i, (operands i).Scoped names
  | names, .primary p => p.Scoped names

def Primary.Scoped : List (List Char) → Primary → Prop
  | _, .number _ => True
  | _, .string _ => True
  | names, .atom name => name ∈ names
  | names, .closure params body =>
    (∀ param ∈ params, param.mode = .eager) ∧ body.Scoped (params.map Param.name ++ names)
  | names, .group _ operands => ∀ i, (operands i).Scoped names
  | names, .call callee _ arguments => callee.Scoped names ∧ ∀ i, (arguments i).Scoped names

end

/-- The names that have a binding. -/
def Scope.names {β : Type} (scope : Scope β) : List (List Char) := scope.flatMap (·.map Prod.fst)

mutual

/-- The names that are free in the bodies of closures are bound in their environments, to values
for which the same holds. -/
inductive Datum.Scoped : Datum Term → Prop
  | number {n : Float} : Datum.Scoped (.number n)
  | string {text : List Char} : Datum.Scoped (.string text)
  | list {items : List (Datum Term)} : (∀ item ∈ items, Datum.Scoped item) →
    Datum.Scoped (.list items)
  | closure {params : List Param} {body : Term} {scope : Scope Term} :
    (∀ param ∈ params, param.mode = .eager) →
    body.Scoped (params.map Param.name ++ Scope.names scope) →
    (∀ frame ∈ scope, ∀ entry ∈ frame, Bound.Scoped entry.2) →
    Datum.Scoped (.closure params body scope)

/-- The name is bound to a scoped value, and not to a slot. -/
inductive Bound.Scoped : Bound Term → Prop
  | value {datum : Datum Term} : Datum.Scoped datum → Bound.Scoped (.value datum)

end

/-- The bindings of the scope are scoped. -/
def Scope.Scoped (scope : Scope Term) : Prop := ∀ frame ∈ scope, ∀ entry ∈ frame, entry.2.Scoped

theorem Datum.scoped_list_iff {items : List (Datum Term)} :
    Datum.Scoped (.list items) ↔ ∀ item ∈ items, item.Scoped := by
  constructor
  · intro h
    cases h with
    | list hitems => exact hitems
  · exact .list

/-- A name that has a binding is found, in one of the frames. -/
theorem Scope.exists_lookup {β : Type} {scope : Scope β} {name : List Char}
    (h : name ∈ scope.names) :
    ∃ frame ∈ scope, ∃ bound, (name, bound) ∈ frame ∧ scope.lookup name = some bound := by
  obtain ⟨frame, hframe, hname⟩ := List.mem_flatMap.mp h
  have hfound : (scope.lookup name).isSome := by
    refine List.findSome?_isSome_iff.mpr ⟨frame, hframe, ?_⟩
    obtain ⟨entry, hentry, rfl⟩ := List.mem_map.mp hname
    exact List.lookup_isSome_iff.mpr ⟨entry, hentry, beq_self_eq_true _⟩
  obtain ⟨bound, hbound⟩ := Option.isSome_iff_exists.mp hfound
  obtain ⟨frame', hframe', hlookup⟩ := List.exists_of_findSome?_eq_some hbound
  obtain ⟨front, back, hsplit, -⟩ := List.lookup_eq_some_iff.mp hlookup
  exact ⟨frame', hframe', bound, by simp [hsplit], hbound⟩

/-- The failure says that a name has no binding, or no value yet. -/
def EvalError.isUnbound : EvalError → Bool
  | undefinedVariable _ => true
  | unresolvedDeferred _ => true
  | _ => false

/-- The failure has nothing to do with a name. -/
abbrev Fault.SparesNames (fault : Fault) : Prop := fault.val.isUnbound = false

namespace Reference

open Plain BraceLang.CoreM

/-- Terms are scoped for the names of their scope: they have scoped values or fail, but never for
a name. -/
def Evaluates (eval : Scope Term → Term → TreeM (Datum Term)) : Prop :=
  ∀ ⦃scope e⦄, scope.Scoped → e.Scoped scope.names →
    Safe Fault.SparesNames Datum.Scoped (eval scope e)

variable {eval : Scope Term → Term → TreeM (Datum Term)} {pass : Term → TreeM Unit}
  {scope : Scope Term}

/-! ## Names and closures -/

theorem scoped_lookupName {name : List Char} (hscope : scope.Scoped) (h : name ∈ scope.names) :
    Safe Fault.SparesNames Datum.Scoped (lookupName name scope) := by
  obtain ⟨frame, hframe, bound, hentry, hlookup⟩ := Scope.exists_lookup h
  unfold lookupName
  rw [hlookup]
  cases hscope frame hframe _ hentry with
  | value hdatum => exact .pure hdatum

theorem scoped_charge (cells : Nat) :
    Safe Fault.SparesNames (fun _ => True) (charge cells : TreeM Unit) :=
  .charge (fun _ => rfl) cells

theorem scoped_fail {α : Type} {Q : α → Prop} (fault : FormFault) :
    Safe Fault.SparesNames Q (CoreM.fail fault : TreeM α) :=
  .throw rfl

theorem scoped_closure {params : List Param} {body : Term} (hscope : scope.Scoped)
    (heager : ∀ param ∈ params, param.mode = .eager)
    (hbody : body.Scoped (params.map Param.name ++ scope.names)) :
    Safe Fault.SparesNames Datum.Scoped (closure scope params body) :=
  (scoped_charge _).bind fun _ _ => (scoped_charge _).bind fun _ _ =>
    (scoped_charge _).bind fun _ _ => .pure (.closure heager hbody hscope)

/-! ## Operands of keywords -/

theorem scoped_operand (he : Evaluates eval) (hscope : scope.Scoped) :
    ReadM.Safe (fun operands : List Term => ∀ e ∈ operands, e.Scoped scope.names)
      Fault.SparesNames Datum.Scoped (operand (eval scope)) := by
  intro operands hoperands
  cases operands with
  | nil => exact scoped_fail _
  | cons e operands =>
    obtain ⟨hhead, htail⟩ := List.forall_mem_cons.mp hoperands
    exact (he hscope hhead).bind fun _ hvalue => .pure ⟨hvalue, htail⟩

theorem scoped_passOperand {I : List Term → Prop}
    (hI : ∀ e operands, I (e :: operands) → I operands)
    (hp : ∀ e, Safe Fault.SparesNames (fun _ => True) (pass e)) :
    ReadM.Safe I Fault.SparesNames (fun _ => True) (passOperand pass) := by
  intro operands hoperands
  cases operands with
  | nil => exact scoped_fail _
  | cons e operands => exact (hp e).bind fun _ _ => .pure ⟨trivial, hI e operands hoperands⟩

theorem scoped_operation (he : Evaluates eval)
    (hp : ∀ e, Safe Fault.SparesNames (fun _ => True) (pass e)) (hscope : scope.Scoped)
    (op : Keyword) {operands : Fin op.arity → Term} (h : ∀ i, (operands i).Scoped scope.names) :
    Safe Fault.SparesNames Datum.Scoped (operation (eval scope) pass op operands) := by
  have hoperands : ∀ e ∈ List.ofFn operands, e.Scoped scope.names := by
    intro e hmem
    obtain ⟨i, rfl⟩ := List.mem_ofFn.mp hmem
    exact h i
  have hskip := scoped_passOperand
    (I := fun operands => ∀ e ∈ operands, e.Scoped scope.names)
    (fun _ _ hall => (List.forall_mem_cons.mp hall).2) hp
  have happly := safe_applyKeyword (fun _ _ _ => rfl) (scoped_operand he hscope) hskip
    (fun _ => rfl) (fun _ => .number) (fun _ => Datum.scoped_list_iff) op
  exact (happly _ hoperands).bind fun _ hvalue => .pure hvalue.1

/-! ## Calls -/

/-- The actual parameters are scoped values, one for each name. -/
def Supplied (params : List Param) (actuals : List (List Char × Plain.Actual Term)) : Prop :=
  actuals.map Prod.fst = params.map Param.name ∧
    ∀ entry ∈ actuals, ∃ value : Datum Term, value.Scoped ∧ entry.2 = .evaluated value

theorem scoped_checkCount (params : List Param) (arguments : List Term) :
    Safe Fault.SparesNames (fun _ => params.isEmpty = arguments.isEmpty)
      (checkCount params arguments) := by
  cases params with
  | nil =>
    cases arguments with
    | nil => exact .pure rfl
    | cons argument arguments => exact scoped_fail _
  | cons param params =>
    cases arguments with
    | nil => exact scoped_fail _
    | cons argument arguments => exact .pure rfl

theorem scoped_bindActuals (he : Evaluates eval) (hscope : scope.Scoped) {params : List Param}
    {arguments : List Term} (heager : ∀ param ∈ params, param.mode = .eager)
    (harguments : ∀ argument ∈ arguments, argument.Scoped scope.names)
    (hcount : params.isEmpty = arguments.isEmpty) :
    Safe Fault.SparesNames (Supplied params) (bindActuals eval scope params arguments) := by
  induction params generalizing arguments with
  | nil => exact .pure ⟨rfl, by simp⟩
  | cons param params ih =>
    cases arguments with
    | nil => cases hcount
    | cons argument arguments =>
      obtain ⟨hparam, hparams⟩ := List.forall_mem_cons.mp heager
      obtain ⟨hargument, harguments⟩ := List.forall_mem_cons.mp harguments
      have hactual : Safe Fault.SparesNames
          (fun actual => ∃ value : Datum Term, value.Scoped ∧ actual = .evaluated value)
          (bindActual eval scope param argument) := by
        unfold bindActual
        rw [hparam]
        exact (he hscope hargument).bind fun value hvalue => .pure ⟨value, hvalue, rfl⟩
      unfold bindActuals
      refine hactual.bind fun actual hactual => ?_
      refine (scoped_checkCount params arguments).bind fun _ hcount => ?_
      refine (ih hparams harguments hcount).bind fun actuals hactuals => .pure ⟨?_, ?_⟩
      · simp [hactuals.1]
      · exact List.forall_mem_cons.mpr ⟨hactual, hactuals.2⟩

/-- Scoped values in front of a scope. -/
theorem scoped_extend {params : List Param} {actuals : List (List Char × Plain.Actual Term)}
    (hscope : scope.Scoped) (h : Supplied params actuals) :
    Safe Fault.SparesNames
      (fun inner => inner.Scoped ∧ inner.names = params.map Param.name ++ scope.names)
      (extend scope actuals) := by
  rw [extend_eq]
  refine (scoped_charge _).bind fun _ _ => (scoped_charge _).bind fun _ _ => .pure ⟨?_, ?_⟩
  · refine List.forall_mem_cons.mpr ⟨?_, hscope⟩
    intro entry hentry
    obtain ⟨⟨name, actual⟩, hmem, rfl⟩ := List.mem_map.mp hentry
    obtain ⟨value, hvalue, hactual⟩ := h.2 _ hmem
    simp only at hactual
    subst hactual
    exact .value hvalue
  · simp [Scope.names, ← h.1, Function.comp_def]

/-- There is nothing to settle when all actual parameters have been evaluated. -/
theorem scoped_settleAll {params : List Param} {actuals : List (List Char × Plain.Actual Term)}
    (h : Supplied params actuals) :
    Safe Fault.SparesNames (fun _ => True) (settleAll eval scope actuals) := by
  refine .forM fun entry hentry => ?_
  obtain ⟨value, -, hvalue⟩ := h.2 entry hentry
  simp only [hvalue, settle]
  exact .pure trivial

theorem scoped_missing {param : Param} :
    Safe Fault.SparesNames (fun _ => True) (missing param) := by
  unfold missing
  cases param.mode with
  | eager => exact (scoped_fail _).nested fun _ => rfl
  | deferred => exact scoped_fail _

theorem scoped_call (he : Evaluates eval) (hscope : scope.Scoped) {params : List Param}
    {body : Term} {defining : Scope Term} {arguments : List Term}
    (heager : ∀ param ∈ params, param.mode = .eager)
    (hbody : body.Scoped (params.map Param.name ++ defining.names)) (hdefining : defining.Scoped)
    (harguments : ∀ argument ∈ arguments, argument.Scoped scope.names) :
    Safe Fault.SparesNames Datum.Scoped (call eval scope params body defining arguments) := by
  cases params with
  | nil =>
    cases arguments with
    | nil => exact he hdefining hbody
    | cons argument arguments => exact scoped_fail _
  | cons param params =>
    cases arguments with
    | nil => exact scoped_missing.map fun value _ => value.elim
    | cons argument arguments =>
      refine (scoped_bindActuals he hscope heager harguments rfl).bind fun actuals hactuals => ?_
      refine (scoped_extend hdefining hactuals).bind fun inner hinner => ?_
      refine (scoped_settleAll hactuals).bind fun _ _ => ?_
      exact he hinner.1 (hinner.2 ▸ hbody)

theorem safe_render (value : Datum Term) :
    Safe Fault.SparesNames (fun _ => True) (render value) :=
  Safe.get.bind fun _ _ => .pure trivial

theorem scoped_apply (he : Evaluates eval) (hscope : scope.Scoped) {arguments : List Term}
    (harguments : ∀ argument ∈ arguments, argument.Scoped scope.names) {function : Datum Term}
    (hfunction : function.Scoped) :
    Safe Fault.SparesNames Datum.Scoped (apply eval scope arguments function) := by
  cases hfunction with
  | closure heager hbody hdefining => exact scoped_call he hscope heager hbody hdefining harguments
  | _ => exact (safe_render _).bind fun _ _ => .throw rfl

/-! ## Terms -/

theorem scoped_passWithin (levels : Nat) (e : Term) :
    Safe Fault.SparesNames (fun _ => True) (passWithin levels e) := by
  induction levels generalizing e with
  | zero => exact .tooDeep fun _ => rfl
  | succ levels ih =>
    refine Safe.nested (fun _ => rfl) ?_
    cases e with
    | primary p => exact Safe.pure (Q := fun _ => True) trivial
    | operation op operands => exact .forM fun e _ => ih e

theorem evaluates_termWith (he : Evaluates eval)
    (hp : ∀ e, Safe Fault.SparesNames (fun _ => True) (pass e)) :
    Evaluates (termWith eval pass) := by
  intro scope e hscope h
  cases e with
  | operation op operands =>
    simp only [Term.Scoped] at h
    exact scoped_operation he hp hscope op h
  | primary p =>
    simp only [Term.Scoped] at h
    cases p with
    | number n => exact .pure .number
    | string text => exact .pure .string
    | atom name =>
      simp only [Primary.Scoped] at h
      exact scoped_lookupName hscope h
    | closure params body =>
      simp only [Primary.Scoped] at h
      exact scoped_closure hscope h.1 h.2
    | group op operands =>
      simp only [Primary.Scoped] at h
      exact (scoped_operation he hp hscope op h).nested fun _ => rfl
    | call callee count arguments =>
      simp only [Primary.Scoped] at h
      have hcallee : (Term.primary callee).Scoped scope.names := by
        simpa only [Term.Scoped] using h.1
      have harguments : ∀ argument ∈ List.ofFn arguments, argument.Scoped scope.names := by
        intro argument hmem
        obtain ⟨i, rfl⟩ := List.mem_ofFn.mp hmem
        exact h.2 i
      exact (he hscope hcallee).bind fun _ hfunction => scoped_apply he hscope harguments hfunction

/-- Evaluation keeps values scoped, and no name is found to be unbound. -/
theorem evaluates_evaluateWithin (levels : Nat) : Evaluates (evaluateWithin levels) := by
  induction levels with
  | zero => exact fun _ _ _ _ => .tooDeep fun _ => rfl
  | succ levels ih =>
    intro scope e hscope h
    exact (evaluates_termWith ih (scoped_passWithin levels) hscope h).nested fun _ => rfl

theorem evaluates_evaluate : Evaluates evaluate := by
  intro scope e hscope h
  refine ⟨?_, ?_⟩
  · intro limits core d core' hrun
    exact (evaluates_evaluateWithin _ hscope h).ok hrun
  · intro limits core fault core' hrun
    exact (evaluates_evaluateWithin _ hscope h).error hrun

end Reference

/-! ## Texts -/

namespace Reference

open Plain

theorem scoped_evaluateText {e : Term} (h : e.Scoped []) :
    CoreM.Safe Fault.SparesNames Datum.Scoped (evaluateText e) :=
  (scoped_charge _).bind fun _ _ => (scoped_charge _).bind fun _ _ =>
    evaluates_evaluate (by simp [Scope.Scoped]) h

end Reference

namespace Interpreter

/-- A scoped text is never found to have a name without a value, whatever has been evaluated before,
and however its closures are passed, returned, stored and called. -/
theorem evalText_spares_names (config : Config) (calls : List Call) {text : String} {e : Term}
    (htext : config.lexicon.lex text.toList = (e.tokens, none)) (he : e.Scoped []) :
    (∀ name i,
      evalText text ((new config).after calls) ≠ .error (.undefinedVariable name) i) ∧
    ∀ name i,
      evalText text ((new config).after calls) ≠ .error (.unresolvedDeferred name) i := by
  have hagrees := agrees_evalText ((ready_new config).after calls) text
  rw [Reference.evalText_eq htext config.limits] at hagrees
  have hspares : ∀ error i, evalText text ((new config).after calls) = .error error i →
      error.isUnbound = false := by
    intro error i hfails
    rw [hfails] at hagrees
    cases hrun : Reference.evaluateText e config.limits {} with
    | ok d core =>
      rw [hrun] at hagrees
      cases hagrees
    | error fault core =>
      rw [hrun] at hagrees
      cases hagrees
      exact (Reference.scoped_evaluateText he).error hrun
  exact ⟨fun name i hfails => Bool.noConfusion (hspares _ i hfails),
    fun name i hfails => Bool.noConfusion (hspares _ i hfails)⟩

/-- A closure is stored in a list, taken out again and called with itself, which gives a closure
with a scope of its own. -/
theorem evalText_spares_names_stored :
    let atom (name : Char) : Term := .primary (.atom [name])
    let stored : Term := .operation .push ![atom 'f', .operation .nil ![]]
    let callee : Primary := .closure [⟨.eager, ['f']⟩, ⟨.eager, ['x']⟩]
      (.primary (.call (.group .tos ![stored]) 1 ![atom 'x']))
    let inner : Term := .primary (.closure [⟨.eager, ['z']⟩] (.primary (.call (.atom ['z']) 1
      ![atom 'y'])))
    let function : Term := .primary (.closure [⟨.eager, ['y']⟩] inner)
    let e : Term := .primary (.call callee 2 ![function, function])
    let text := "({f x: ((TOS PUSH f NIL) x)} {y: {z: (z y)}}, {y: {z: (z y)}})"
    let i := (new {}).after [.run "(f"]
    ({} : Config).lexicon.lex text.toList = (e.tokens, none) ∧ e.Scoped [] ∧
      ((∀ name j, evalText text i ≠ .error (.undefinedVariable name) j) ∧
        ∀ name j, evalText text i ≠ .error (.unresolvedDeferred name) j) := by
  intro atom stored callee inner function e text i
  have htext : ({} : Config).lexicon.lex text.toList = (e.tokens, none) := by
    have hspaced : text.toList = Lexeme.spaced true e.tokens := by decide +kernel
    rw [hspaced]
    exact Lexicon.lex_spaced_of_isBare ⟨rfl, rfl⟩ (by decide +kernel) true
  have he : e.Scoped [] := by
    simp [e, callee, inner, function, stored, atom, Term.Scoped, Primary.Scoped, Keyword.arity,
      Fin.forall_fin_two]
  exact ⟨htext, he, evalText_spares_names {} [.run "(f"] htext he⟩

end Interpreter

end BraceLang
