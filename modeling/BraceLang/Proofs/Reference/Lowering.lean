import Mathlib.Data.List.Basic
import BraceLang.Proofs.Effects
import BraceLang.Proofs.Reference.Evaluation

/-!
# Lowering steps on trees to steps on tokens

A step on syntax trees is lowered to a step on tokens when the two have the same outcome, up to the
bodies of closures, which are trees in one and token lists in the other.

* `Reference.Lowers`: steps that read no tokens, or whose tokens are given.
* `Reference.Reads`: steps that read operands, trees in one and their tokens in the other.
* `Reference.lowers_operation`: the operations of keywords.
-/

namespace BraceLang

/-- Change the result and the state of an outcome. -/
def mapResult {ε σ τ α β : Type} (f : α → β) (g : σ → τ) :
    EStateM.Result ε σ α → EStateM.Result ε τ β
  | .ok a s => .ok (f a) (g s)
  | .error e s => .error e (g s)

namespace Reference

open Plain

/-- The tokens of the trees in a datum. -/
abbrev flat : Datum Term → Datum Tokens := Datum.mapBody Term.tokens

/-- The tokens of the trees in a scope. -/
abbrev flatScope : Scope Term → Scope Tokens := Scope.mapBody Term.tokens

/-- The tokens of the trees in the slots. -/
abbrev flatCore : Core Term → Core Tokens := Core.mapBody Term.tokens

/-- The two steps have the same outcome, up to `f` and the bodies of closures. -/
def Lowers {α β : Type} (limits : Limits) (f : α → β) (b : TreeM α) (a : CoreM Tokens β) : Prop :=
  ∀ core, a limits (flatCore core) = mapResult f flatCore (b limits core)

section Rules

variable {α α' β β' : Type} {limits : Limits} {f : α → β} {b : TreeM α} {a : CoreM Tokens β}

namespace Lowers

theorem pure (x : α) : Lowers limits f (Pure.pure x) (Pure.pure (f x)) := fun _ => rfl

theorem throw (fault : Fault) :
    Lowers limits f (MonadExcept.throw fault) (MonadExcept.throw fault) := fun _ => rfl

theorem fail (fault : FormFault) : Lowers limits f (CoreM.fail fault) (CoreM.fail fault) :=
  throw fault.toFault

theorem bind {g : α' → β'} {k : α → TreeM α'} {l : β → CoreM Tokens β'}
    (h : Lowers limits f b a) (hk : ∀ x, Lowers limits g (k x) (l (f x))) :
    Lowers limits g (b >>= k) (a >>= l) := by
  intro core
  have hstep := h core
  cases hb : b limits core with
  | ok x core' =>
    rw [hb] at hstep
    rw [reader_bind_of_ok hb, reader_bind_of_ok hstep]
    exact hk x core'
  | error e core' =>
    rw [hb] at hstep
    rw [reader_bind_of_error hb, reader_bind_of_error hstep]
    rfl

theorem nested (h : Lowers limits.deeper f b a) :
    Lowers limits f (CoreM.nested b) (CoreM.nested a) := by
  intro core
  unfold CoreM.nested
  by_cases hdeep : limits.maxDepth ≤ limits.depth
  · simp only [if_pos hdeep]
    rfl
  · simp only [if_neg hdeep]
    exact h core

/-- A step that reads no tokens. -/
theorem lift (h : Lowers limits f b a) (tokens : Tokens) :
    Lowers limits (fun x => (f x, tokens)) b ((a.lift : TokenM β) tokens) := by
  have hb : b = b >>= Pure.pure := (bind_pure b).symm
  rw [hb]
  exact h.bind fun x => pure x

/-- A step that reads tokens, and another one behind it. -/
theorem bindRead {g : α' → β'} {k : α → TreeM α'} {c : TokenM β} {l : β → TokenM β'}
    {tokens tokens' rest : Tokens} (h : Lowers limits (fun x => (f x, tokens')) b (c tokens))
    (hk : ∀ x, Lowers limits (fun y => (g y, rest)) (k x) (l (f x) tokens')) :
    Lowers limits (fun y => (g y, rest)) (b >>= k) ((c >>= l) tokens) :=
  h.bind hk

/-- Some tokens are read, and nothing else happens. -/
theorem readFirst {c : TokenM β'} {l : β' → TokenM β} {y : β'} {tokens tokens' rest : Tokens}
    (hc : c tokens = Pure.pure (y, tokens'))
    (h : Lowers limits (fun x => (f x, rest)) b (l y tokens')) :
    Lowers limits (fun x => (f x, rest)) b ((c >>= l) tokens) := by
  have hplain : (c >>= l) tokens = c tokens >>= fun p => l p.1 p.2 := rfl
  rw [hplain, hc, pure_bind]
  exact h

/-- Some tokens are read at the end, and nothing else happens. -/
theorem readLast {c : TokenM β} {l : β → TokenM β'} {g : β → β'} {tokens tokens' rest : Tokens}
    (h : Lowers limits (fun x => (f x, tokens')) b (c tokens))
    (hl : ∀ y, l y tokens' = Pure.pure (g y, rest)) :
    Lowers limits (fun x => (g (f x), rest)) b ((c >>= l) tokens) := by
  have hb : b = b >>= Pure.pure := (bind_pure b).symm
  rw [hb]
  refine h.bind fun x => ?_
  simp only [hl]
  exact pure x

/-- Behind a step that always fails nothing happens. -/
theorem bindFailing {b : TreeM Empty} (h : Lowers limits (Empty.elim : Empty → β) b a)
    (l : β → CoreM Tokens β') : Lowers limits (Empty.elim : Empty → β') b (a >>= l) := by
  have hb : b = b >>= Pure.pure := (bind_pure b).symm
  rw [hb]
  exact h.bind fun x => x.elim

theorem ofFailing {b : TreeM Empty} (h : Lowers limits (Empty.elim : Empty → β) b a) :
    Lowers limits f (Empty.elim <$> b) a := by
  have ha : a = a >>= Pure.pure := (bind_pure a).symm
  rw [ha, ← bind_pure_comp]
  exact h.bind fun x => x.elim

end Lowers

/-! ## Single steps -/

theorem lowers_alloc : Lowers limits id CoreM.alloc CoreM.alloc := by
  intro core
  simp only [CoreM.alloc, flatCore, Core.mapBody]
  cases limits.refusal core.used <;> rfl

theorem lowers_charge (cells : Nat) :
    Lowers limits id (CoreM.charge cells) (CoreM.charge cells) := by
  induction cells with
  | zero => exact .pure ()
  | succ cells ih => exact lowers_alloc.bind fun _ => ih

theorem lowers_newSlot : Lowers limits id CoreM.newSlot CoreM.newSlot := by
  intro core
  have hsize : (Slots.mapBody Term.tokens core.slots).size = core.slots.size := by
    simp [Slots.mapBody]
  have hpush : flatCore { core with slots := core.slots.push none } =
      { flatCore core with slots := (flatCore core).slots.push none } := by
    simp only [flatCore, Core.mapBody, Slots.mapBody_push]
  show CoreM.newSlot limits (flatCore core) = _
  unfold CoreM.newSlot
  rw [show (flatCore core).slots.size = core.slots.size from hsize]
  cases Store.indexFault? core.slots.size with
  | some e => rfl
  | none => exact congrArg (EStateM.Result.ok _) hpush.symm

theorem lowers_fill (index : Nat) (d : Datum Term) :
    Lowers limits id (CoreM.fill index d) (CoreM.fill index (flat d)) := by
  intro core
  have hset : flatCore { core with slots := core.slots.setIfInBounds index (some d) } =
      { flatCore core with
        slots := (flatCore core).slots.setIfInBounds index (some (flat d)) } := by
    simp only [flatCore, Core.mapBody, Slots.mapBody_set]
  exact congrArg (EStateM.Result.ok ()) hset.symm

theorem lowers_tooDeep : Lowers limits f CoreM.tooDeep CoreM.tooDeep := fun _ => rfl

theorem lowers_mismatch (op : Keyword) (expected : Expectation) (found : String) :
    Lowers limits f (CoreM.mismatch op expected found) (CoreM.mismatch op expected found) :=
  fun _ => rfl

theorem lowers_get : Lowers limits flatCore get get := fun _ => rfl

theorem lowers_lookupName (name : List Char) (scope : Scope Term) :
    Lowers limits flat (CoreM.lookupName name scope) (CoreM.lookupName name (flatScope scope)) := by
  unfold CoreM.lookupName
  rw [Scope.lookup_mapBody]
  cases scope.lookup name with
  | none => exact .throw _
  | some bound =>
    cases bound with
    | value d => exact .pure d
    | slot index =>
      refine lowers_get.bind fun core => ?_
      simp only [flatCore, Core.mapBody, Slots.value?_mapBody]
      cases core.slots.value? index with
      | some d => exact .pure d
      | none => exact .throw _

theorem lowers_render (d : Datum Term) :
    Lowers limits id (render d) (Plain.render (flat d)) :=
  lowers_get.bind fun _ => .pure _

end Rules

/-! ## Operands -/

/-- The tokens of some terms. -/
def flatTerms (terms : List Term) : Tokens := terms.flatMap Term.tokens

/-- Both steps read these operands, whatever stands behind them, and have the same outcome. -/
def Reads {α β : Type} (limits : Limits) (operands : List Term) (f : α → β)
    (b : ReadM (List Term) Term α) (a : TokenM β) : Prop :=
  ∀ others rest core,
    match b (operands ++ others) limits core with
    | .ok (x, left) core' => left = others ∧
      a (flatTerms (operands ++ others) ++ rest) limits (flatCore core) =
        .ok (f x, flatTerms others ++ rest) (flatCore core')
    | .error e core' =>
      a (flatTerms (operands ++ others) ++ rest) limits (flatCore core) = .error e (flatCore core')

section Reads

variable {α α' β β' : Type} {limits : Limits} {operands operands' : List Term} {f : α → β}
  {b : ReadM (List Term) Term α} {a : TokenM β}

namespace Reads

theorem pure (x : α) : Reads limits [] f (Pure.pure x) (Pure.pure (f x)) :=
  fun _ _ _ => ⟨rfl, rfl⟩

theorem bind {g : α' → β'} {k : α → ReadM (List Term) Term α'} {l : β → TokenM β'}
    (h : Reads limits operands f b a) (hk : ∀ x, Reads limits operands' g (k x) (l (f x))) :
    Reads limits (operands ++ operands') g (b >>= k) (a >>= l) := by
  intro others rest core
  rw [List.append_assoc]
  have hstep := h (operands' ++ others) rest core
  have hb : (b >>= k) (operands ++ (operands' ++ others)) =
      b (operands ++ (operands' ++ others)) >>= fun p => k p.1 p.2 := rfl
  have ha : (a >>= l) (flatTerms (operands ++ (operands' ++ others)) ++ rest) =
      a (flatTerms (operands ++ (operands' ++ others)) ++ rest) >>= fun p => l p.1 p.2 := rfl
  rw [hb, ha]
  cases hrun : b (operands ++ (operands' ++ others)) limits core with
  | ok p core' =>
    obtain ⟨x, left⟩ := p
    rw [hrun] at hstep
    obtain ⟨rfl, hstep⟩ := hstep
    rw [reader_bind_of_ok hrun, reader_bind_of_ok hstep]
    exact hk x others rest core'
  | error e core' =>
    rw [hrun] at hstep
    rw [reader_bind_of_error hrun, reader_bind_of_error hstep]

/-- A step that reads all operands, and another one that reads none. -/
theorem bindLast {g : α' → β'} {k : α → ReadM (List Term) Term α'} {l : β → TokenM β'}
    (h : Reads limits operands f b a) (hk : ∀ x, Reads limits [] g (k x) (l (f x))) :
    Reads limits operands g (b >>= k) (a >>= l) := by
  have hbind := h.bind hk
  rwa [List.append_nil] at hbind

theorem map {g : α' → β'} {k : α → α'} {l : β → β'} (h : Reads limits operands f b a)
    (hk : ∀ x, g (k x) = l (f x)) : Reads limits operands g (k <$> b) (l <$> a) := by
  rw [← bind_pure_comp, ← bind_pure_comp]
  refine h.bindLast fun x => ?_
  rw [← hk]
  exact pure (k x)

theorem lift {b : TreeM α} {a : CoreM Tokens β} (h : Lowers limits f b a) :
    Reads limits [] f b.lift a.lift := by
  intro others rest core
  have hstep := h core
  unfold CoreM.lift
  cases hb : b limits core with
  | ok x core' =>
    rw [hb] at hstep
    rw [List.nil_append, reader_bind_of_ok hb, reader_bind_of_ok hstep]
    exact ⟨rfl, rfl⟩
  | error e core' =>
    rw [hb] at hstep
    rw [List.nil_append, reader_bind_of_error hb, reader_bind_of_error hstep]

/-- A step that reads one operand. -/
theorem single {e : Term} {next : Term → TreeM α} {read : ReadM (List Term) Term α}
    (hread : ∀ others, read (e :: others) = do Pure.pure (← next e, others))
    (h : ∀ rest, Lowers limits (fun x => (f x, rest)) (next e) (a (e.tokens ++ rest))) :
    Reads limits [e] f read a := by
  intro others rest core
  have hstep := h (flatTerms others ++ rest) core
  have htokens : flatTerms ([e] ++ others) ++ rest = e.tokens ++ (flatTerms others ++ rest) := by
    simp [flatTerms]
  rw [htokens, List.singleton_append, hread]
  cases hb : next e limits core with
  | ok x core' =>
    rw [hb] at hstep
    rw [reader_bind_of_ok hb]
    exact ⟨rfl, hstep⟩
  | error e core' =>
    rw [hb] at hstep
    rw [reader_bind_of_error hb]
    exact hstep

/-- When all operands are read, what stands behind them is left. -/
theorem lowers (h : Reads limits operands f b a) (rest : Tokens) :
    Lowers limits (fun x => (f x, rest)) (b operands >>= fun p => Pure.pure p.1)
      (a (flatTerms operands ++ rest)) := by
  intro core
  have hstep := h [] rest core
  simp only [List.append_nil] at hstep
  cases hb : b operands limits core with
  | ok p core' =>
    obtain ⟨x, left⟩ := p
    rw [hb] at hstep
    rw [reader_bind_of_ok hb, hstep.2]
    rfl
  | error e core' =>
    rw [hb] at hstep
    rw [reader_bind_of_error hb, hstep]
    rfl

end Reads

/-! ## Keywords -/

section Operations

variable {eval : Term → TreeM (Datum Term)} {eval' : TokenM (Datum Tokens)}
    {pass : Term → TreeM Unit}
  {skip : TokenM Unit}

/-- A term is evaluated as its tokens are. -/
def LowersTerm (limits : Limits) (eval : Term → TreeM (Datum Term))
    (eval' : TokenM (Datum Tokens)) :
    Prop :=
  ∀ (e : Term) (rest : Tokens),
    Lowers limits (fun d => (flat d, rest)) (eval e) (eval' (e.tokens ++ rest))

/-- A term is passed as its tokens are. -/
def LowersPass (limits : Limits) (pass : Term → TreeM Unit) (skip : TokenM Unit) : Prop :=
  ∀ (e : Term) (rest : Tokens),
    Lowers limits (fun _ => ((), rest)) (pass e) (skip (e.tokens ++ rest))

theorem reads_operand (he : LowersTerm limits eval eval') (e : Term) :
    Reads limits [e] flat (operand eval) eval' :=
  Reads.single (fun _ => rfl) (he e)

theorem reads_passOperand (hp : LowersPass limits pass skip) (e : Term) :
    Reads limits [e] id (passOperand pass) skip :=
  Reads.single (fun _ => rfl) (hp e)

theorem reads_numberOperand (he : LowersTerm limits eval eval') (e : Term) (op : Keyword) :
    Reads limits [e] id (numberOperand (operand eval) op) (numberOperand eval' op) := by
  refine (reads_operand he e).bindLast fun d => ?_
  rw [Datum.number?_mapBody, Datum.typeName_mapBody]
  cases d.number? with
  | some n => exact .pure n
  | none => exact .lift (lowers_mismatch _ _ _)

theorem reads_listOperand (he : LowersTerm limits eval eval') (e : Term) (op : Keyword) :
    Reads limits [e] (Datum.mapBodies Term.tokens) (listOperand (operand eval) op)
      (listOperand eval' op) := by
  refine (reads_operand he e).bindLast fun d => ?_
  rw [Datum.list?_mapBody, Datum.typeName_mapBody]
  cases d.list? with
  | some items => exact .pure items
  | none => exact .lift (lowers_mismatch _ _ _)

theorem reads_incomparable (x y : Datum Term) (op : Keyword) :
    Reads limits [] (id : Bool → Bool)
      (if x.typeName = y.typeName then (CoreM.mismatch op .comparable x.typeName).lift
        else (CoreM.mismatch op .sameType s!"{x.typeName} and {y.typeName}").lift)
      (if (flat x).typeName = (flat y).typeName then
          (CoreM.mismatch op .comparable (flat x).typeName).lift
        else
          (CoreM.mismatch op .sameType s!"{(flat x).typeName} and {(flat y).typeName}").lift) := by
  rw [Datum.typeName_mapBody, Datum.typeName_mapBody]
  by_cases htype : x.typeName = y.typeName
  · rw [if_pos htype, if_pos htype]
    exact .lift (lowers_mismatch _ _ _)
  · rw [if_neg htype, if_neg htype]
    exact .lift (lowers_mismatch _ _ _)

theorem reads_equalOperands (he : LowersTerm limits eval eval') (e e' : Term) (op : Keyword) :
    Reads limits [e, e'] id (equalOperands (operand eval) op) (equalOperands eval' op) := by
  refine Reads.bind (reads_operand he e) fun x => (reads_operand he e').bindLast fun y => ?_
  have hrefuse : Reads limits [] _ _ _ := reads_incomparable x y op
  cases x with
  | number n =>
    cases y with
    | number k => exact .pure _
    | _ => exact hrefuse
  | string text =>
    cases y with
    | string text' => exact .pure _
    | _ => exact hrefuse
  | list items => cases y <;> exact hrefuse
  | closure params body scope => cases y <;> exact hrefuse

theorem reads_condition (he : LowersTerm limits eval eval') (hp : LowersPass limits pass skip)
    (flag e e' : Term) :
    Reads limits [flag, e, e'] flat (condition (operand eval) (passOperand pass))
      (condition eval' skip) := by
  refine Reads.bind (reads_numberOperand he flag _) fun n => ?_
  simp only [id]
  by_cases hzero : (n == 0) = true
  · simp only [hzero, if_true]
    exact Reads.bind (reads_passOperand hp e) fun _ => reads_operand he e'
  · simp only [hzero]
    refine Reads.bind (reads_operand he e) fun d => ?_
    exact (reads_passOperand hp e').bindLast fun _ => .pure d

theorem reads_applyKeyword (he : LowersTerm limits eval eval') (hp : LowersPass limits pass skip)
    (op : Keyword) {operands : List Term} (hlength : operands.length = op.arity) :
    Reads limits operands flat (applyKeyword (operand eval) (passOperand pass) op)
      (applyKeyword eval' skip op) := by
  unfold applyKeyword
  cases hnumeric : numberOf? op with
  | some g =>
    have harity : op.arity = 2 := by cases op <;> first | rfl | cases hnumeric
    obtain ⟨e, e', rfl⟩ := List.length_eq_two.mp (hlength.trans harity)
    refine Reads.bind (reads_numberOperand he e op) fun x => ?_
    exact (reads_numberOperand he e' op).bindLast fun y => .pure (Datum.number (g x y))
  | none =>
    cases op with
    | eq =>
      obtain ⟨e, e', rfl⟩ := List.length_eq_two.mp hlength
      exact (reads_equalOperands he e e' _).map fun _ => rfl
    | ne =>
      obtain ⟨e, e', rfl⟩ := List.length_eq_two.mp hlength
      exact (reads_equalOperands he e e' _).map fun _ => rfl
    | cond =>
      obtain ⟨flag, e, e', rfl⟩ := List.length_eq_three.mp hlength
      exact reads_condition he hp flag e e'
    | nil =>
      cases List.length_eq_zero_iff.mp hlength
      exact .pure (Datum.list [])
    | push =>
      obtain ⟨e, e', rfl⟩ := List.length_eq_two.mp hlength
      refine Reads.bind (reads_operand he e) fun item => ?_
      refine (reads_listOperand he e' _).bindLast fun items => ?_
      exact (Reads.lift (lowers_charge 1)).bindLast fun _ => .pure (Datum.list (item :: items))
    | tos =>
      obtain ⟨e, rfl⟩ := List.length_eq_one_iff.mp hlength
      refine (reads_listOperand he e _).bindLast fun items => ?_
      cases items with
      | nil => exact .lift (lowers_mismatch _ _ _)
      | cons head items => exact .pure head
    | bos =>
      obtain ⟨e, rfl⟩ := List.length_eq_one_iff.mp hlength
      refine (reads_listOperand he e _).bindLast fun items => ?_
      cases items with
      | nil => exact .pure (Datum.list [])
      | cons head items => exact .pure (Datum.list items)
    | isNil =>
      obtain ⟨e, rfl⟩ := List.length_eq_one_iff.mp hlength
      refine (reads_operand he e).bindLast fun d => ?_
      cases d with
      | list items =>
        have hempty : (Datum.mapBodies Term.tokens items).isEmpty = items.isEmpty := by
          cases items <;> rfl
        simp only [flat, Datum.mapBody, hempty]
        exact .pure (Datum.ofBool items.isEmpty)
      | number n => exact .pure (Datum.ofBool false)
      | string text => exact .pure (Datum.ofBool false)
      | closure params body scope => exact .pure (Datum.ofBool false)
    | _ => cases hnumeric

theorem flatten_ofFn {count : Nat} (terms : Fin count → Term) :
    (List.ofFn fun i => (terms i).tokens).flatten = flatTerms (List.ofFn terms) := by
  rw [flatTerms, List.flatMap_def, List.map_ofFn]
  rfl

theorem lowers_operation (he : LowersTerm limits eval eval') (hp : LowersPass limits pass skip)
    (op : Keyword) (operands : Fin op.arity → Term) (rest : Tokens) :
    Lowers limits (fun d => (flat d, rest)) (operation eval pass op operands)
      (applyKeyword eval' skip op ((List.ofFn fun i => (operands i).tokens).flatten ++ rest)) := by
  rw [flatten_ofFn]
  exact (reads_applyKeyword he hp op (List.length_ofFn ..)).lowers rest

end Operations

end Reads

end Reference

end BraceLang
