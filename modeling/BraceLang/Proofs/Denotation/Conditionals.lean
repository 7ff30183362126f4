import BraceLang.Proofs.Denotation.Extents
import BraceLang.Proofs.Denotation.Skipping
import BraceLang.Proofs.Plain.Conditionals

/-!
# The branch of a conditional term that is not taken

The operands of a conditional term stand one after the other at the cursor, and the branch that is
not taken is skipped without being evaluated. So it could be any other one: a conditional term with
another untaken branch has a value of the same text, or the same failure, and the cursor is moved
behind the term.

The two terms stand in memories of their own, which may differ in anything but what the scope of
the terms and the slots stand for, as long as neither evaluation is refused a cell.

* `Indistinguishable`: two token sequences in front of others that are evaluated in the same way.
* `EvaluatesAlone`, `SkipsAlone`: operands that can be evaluated or skipped on their own.
* `untaken_branch_irrelevant`: conditional terms.
-/

namespace BraceLang

open Plain

/-- An evaluation is refused a cell. -/
def OutOfCells (result : EStateM.Result EvalError EvalState Value) : Prop :=
  ∃ e st, result = .error (.allocationFailure e) st

/-- At a depth, in a scope and with these slots, evaluating the first tokens in front of what is
behind them and evaluating the second ones in front of what is behind those give values of the same
text, with the cursor behind the tokens, or the same failure, unless a cell is refused. -/
def Indistinguishable (maxDepth depth : Nat) (scope : Scope Tokens) (slots : Slots Tokens)
    (tokens behind tokens' behind' : Tokens) : Prop :=
  ∀ ⦃context context' : EvalContext⦄ ⦃st st' : EvalState⦄ ⦃env env' : Environment⦄,
    Stands context st env (tokens ++ behind) scope slots →
    Stands context' st' env' (tokens' ++ behind') scope slots →
    context.maxDepth = maxDepth → context'.maxDepth = maxDepth →
    st.depth = depth → st'.depth = depth →
    ¬ OutOfCells (evaluate env context st) → ¬ OutOfCells (evaluate env' context' st') →
    (∃ v v' st₁ st₁' text, evaluate env context st = .ok v st₁ ∧
      evaluate env' context' st' = .ok v' st₁' ∧
      Passes context st st₁ tokens behind ∧ Passes context' st' st₁' tokens' behind' ∧
      (st₁.memory context).render v = .ok text ∧
      (st₁'.memory context').render v' = .ok text) ∨
    ∃ e st₁ st₁', evaluate env context st = .error e st₁ ∧
      evaluate env' context' st' = .error e st₁'

/-- At a depth, in a scope and with these slots, evaluating the tokens takes all of them and no
others, and gives a number. -/
def EvaluatesAlone (maxDepth depth : Nat) (scope : Scope Tokens) (slots : Slots Tokens)
    (tokens : Tokens) (n : Float) : Prop :=
  ∃ context st env behind st', Stands context st env (tokens ++ behind) scope slots ∧
    context.maxDepth = maxDepth ∧ st.depth = depth ∧
    evaluate env context st = .ok (.number n) st' ∧ Passes context st st' tokens behind

/-- At a depth, skipping a term takes all of the tokens and no others. -/
def SkipsAlone (maxDepth depth : Nat) (tokens : Tokens) : Prop :=
  ∃ context st env behind scope slots st', Stands context st env (tokens ++ behind) scope slots ∧
    context.maxDepth = maxDepth ∧ st.depth = depth ∧
    skipTerm context st = .ok () st' ∧ Passes context st st' tokens behind

/-! ## Operands on data -/

/-- The limits of an evaluation. -/
def EvalState.limits (st : EvalState) (context : EvalContext) : Limits :=
  ⟨context.maxDepth, st.depth, st.store.refusalAt?⟩

section Operands

variable {context : EvalContext} {st : EvalState} {env : Environment} {tokens behind : Tokens}
  {scope : Scope Tokens} {slots : Slots Tokens} {maxDepth depth : Nat} {limits : Limits}

theorem Stands.models (h : Stands context st env tokens scope slots) :
    Models context (st.limits context) st tokens ⟨st.store.used, slots⟩ :=
  ⟨h.layout, h.distinct, rfl, rfl, rfl, rfl, h.slots, h.tokens⟩

/-- What is left of the same tokens at the same cursor is the same. -/
theorem left_unique {m : Memory} {l : ListRef} {taken left : Tokens}
    (hsplit : tokens ++ behind = taken ++ left) (hbehind : m.DenotesTokens l behind)
    (hleft : m.DenotesTokens l left) : left = behind :=
  (List.append_inj' hsplit (hbehind.length_eq hleft)).2.symm

theorem EvaluatesAlone.evaluates {n : Float}
    (h : EvaluatesAlone maxDepth depth scope slots tokens n) (hmax : limits.maxDepth = maxDepth)
    (hdepth : limits.depth = depth) : Evaluates scope limits slots tokens (.number n) := by
  obtain ⟨context, st, env, behind, st', hstands, rfl, rfl, hrun, -, -, -, hbehind⟩ := h
  have hagrees := simulates_evaluate hstands.models hstands.env
  unfold Simulates at hagrees
  rw [hrun] at hagrees
  generalize hplain : Plain.evaluate scope (tokens ++ behind) _ _ = result at hagrees
  cases hagrees with
  | @ok _ d _ left core hmodels _ hd =>
    obtain ⟨taken, -, hsplit, -⟩ := evaluate_append hplain
    obtain rfl := left_unique hsplit hbehind hmodels.cursor
    cases Memory.Denotes.cases hd
    exact ⟨st.limits context, st.store.used, left, core, ⟨hmax, hdepth⟩, hplain⟩

theorem SkipsAlone.skips (h : SkipsAlone maxDepth depth tokens) (hmax : limits.maxDepth = maxDepth)
    (hdepth : limits.depth = depth) : Skips limits tokens := by
  obtain ⟨context, st, env, behind, scope, slots, st', hstands, rfl, rfl, hrun, -, -, -,
    hbehind⟩ := h
  have hagrees := simulates_skipWithin (st.limits context).levels hstands.models
  unfold Simulates at hagrees
  have hskip : EvalM.skipWithin (st.limits context).levels context st = .ok () st' := hrun
  rw [hskip] at hagrees
  generalize hplain : skipWithin (st.limits context).levels (tokens ++ behind) _ _ = result
    at hagrees
  cases hagrees with
  | @ok _ _ _ left core hmodels _ _ =>
    obtain ⟨-, taken, hsplit, -⟩ := SkipsAll.skipWithin _ hplain
    obtain rfl := left_unique hsplit hbehind hmodels.cursor
    have hlimits : (st.limits context).SameDepth limits := ⟨hmax, hdepth⟩
    refine ⟨st.limits context, ⟨st.store.used, slots⟩, left, core, hlimits, ?_⟩
    rwa [levels_eq hlimits]

theorem Stands.passes (h : Stands context st env (tokens ++ behind) scope slots) {v : Value}
    {st' : EvalState} (hrun : evaluate env context st = .ok v st')
    (hbehind : (st'.memory context).DenotesTokens st'.cursor behind) :
    Passes context st st' tokens behind := by
  obtain ⟨taken, left, -, hsplit, hpasses⟩ := evaluate_passes h.layout h.tokens hrun
  obtain ⟨-, -, -, hleft⟩ := id hpasses
  obtain rfl := left_unique hsplit hbehind hleft
  rwa [List.append_cancel_right hsplit]

/-- Only for want of cells does an evaluation on data that is refused a cell fail. -/
theorem outOfCells_of_refused {result : EStateM.Result EvalError EvalState Value}
    {result' : EStateM.Result Fault (Core Tokens) (Datum Tokens × Tokens)}
    (h : Agrees context limits st Memory.Denotes result result')
    (hrefused : CoreM.Refused result') : OutOfCells result := by
  obtain ⟨⟨e, hfault⟩, core, rfl, hfatal⟩ := hrefused
  cases h with
  | error _ _ =>
    cases e with
    | allocationFailure cause => exact ⟨cause, _, rfl⟩
    | _ => cases hfatal

/-- Evaluations that are alike on data cannot be told apart. -/
theorem indistinguishable_of_alike {tokens' behind' : Tokens}
    (h : ∀ ⦃limits limits' core core'⦄, limits.maxDepth = maxDepth → limits.depth = depth →
      limits.SameDepth limits' → core.slots = slots → core'.slots = slots →
      CoreM.Alike (Leaving (fun _ => True) behind behind')
        (Plain.evaluate scope (tokens ++ behind) limits core)
        (Plain.evaluate scope (tokens' ++ behind') limits' core')) :
    Indistinguishable maxDepth depth scope slots tokens behind tokens' behind' := by
  intro context context' st st' env env' hstands hstands' hmax hmax' hdepth hdepth' hcells hcells'
  have hlimits : (st.limits context).SameDepth (st'.limits context') :=
    ⟨hmax'.trans hmax.symm, hdepth'.trans hdepth.symm⟩
  have halike := @h (st.limits context) (st'.limits context') ⟨st.store.used, slots⟩
    ⟨st'.store.used, slots⟩ hmax hdepth hlimits rfl rfl
  have hagrees := simulates_evaluate hstands.models hstands.env
  have hagrees' := simulates_evaluate hstands'.models hstands'.env
  unfold Simulates at hagrees hagrees'
  have hpasses : ∀ v st₁, evaluate env context st = .ok v st₁ →
      (st₁.memory context).DenotesTokens st₁.cursor behind →
      Passes context st st₁ tokens behind := fun _ _ => hstands.passes
  have hpasses' : ∀ v st₁, evaluate env' context' st' = .ok v st₁ →
      (st₁.memory context').DenotesTokens st₁.cursor behind' →
      Passes context' st' st₁ tokens' behind' := fun _ _ => hstands'.passes
  generalize hrun : evaluate env context st = result at *
  generalize hrun' : evaluate env' context' st' = result' at *
  generalize Plain.evaluate scope (tokens ++ behind) _ _ = plain at hagrees halike
  generalize Plain.evaluate scope (tokens' ++ behind') _ _ = plain' at hagrees' halike
  cases halike with
  | @ok _ _ core core' hsame hslots =>
    cases hagrees with
    | @ok v d st₁ _ _ hmodels _ hd =>
      cases hagrees' with
      | @ok v' d' st₁' _ _ hmodels' _ hd' =>
        obtain ⟨hvalue, -, rfl, rfl⟩ := hsame
        have hvalue : d' = d := hvalue
        refine Or.inl ⟨v, v', st₁, st₁', String.ofList (d.full core.slots), rfl, rfl,
          hpasses v st₁ rfl hmodels.cursor, hpasses' v' st₁' rfl hmodels'.cursor,
          Memory.render_eq hmodels.layout hmodels.slots hd, ?_⟩
        rw [Memory.render_eq hmodels'.layout hmodels'.slots hd', hvalue, hslots]
  | error fault =>
    cases hagrees with
    | error _ _ =>
      cases hagrees' with
      | error _ _ => exact Or.inr ⟨fault.val, _, _, rfl, rfl⟩
  | left hrefused => exact absurd (outOfCells_of_refused hagrees hrefused) hcells
  | right hrefused => exact absurd (outOfCells_of_refused hagrees' hrefused) hcells'

/-- Evaluating a term that can be skipped is not affected by the tokens behind it. -/
theorem SkipsAlone.indistinguishable (h : SkipsAlone maxDepth depth tokens)
    (scope : Scope Tokens) (slots : Slots Tokens) (behind behind' : Tokens) :
    Indistinguishable maxDepth depth scope slots tokens behind tokens behind' := by
  refine indistinguishable_of_alike ?_
  intro limits limits' core core' hmax hdepth hlimits hslots hslots'
  have halike := (h.skips hmax hdepth).alike_evaluateWithin hlimits (hslots'.trans hslots.symm)
    limits.levels scope behind behind'
  have hlevels : Plain.evaluate scope (tokens ++ behind') limits' core' =
      evaluateWithin limits.levels scope (tokens ++ behind') limits' core' := by
    rw [← levels_eq hlimits]
    rfl
  rw [hlevels]
  exact halike

end Operands

/-! ## Conditional terms -/

/-- The tokens of a conditional term. -/
def conditional (c a b : Tokens) : Tokens := .keyword .cond :: (c ++ a ++ b)

section Conditionals

variable {maxDepth depth : Nat} {scope : Scope Tokens} {slots : Slots Tokens} {c a b x : Tokens}
  {n : Float}

theorem conditional_append (rest : Tokens) :
    conditional c a b ++ rest = .keyword .cond :: (c ++ (a ++ (b ++ rest))) := by
  simp [conditional]

/-- Conditional terms cannot be told apart if their operands are alike one level deeper. -/
theorem indistinguishable_conditional {a' b' rest : Tokens}
    (h : ∀ ⦃limits limits' core core'⦄, limits.maxDepth = maxDepth → limits.depth = depth + 1 →
      limits.SameDepth limits' → core.slots = slots → core'.slots = core.slots →
      CoreM.Alike (Leaving (fun _ => True) rest rest)
        (condition (evaluateWithin limits.levels scope) (skipWithin limits.levels)
          (c ++ (a ++ (b ++ rest))) limits core)
        (condition (evaluateWithin limits.levels scope) (skipWithin limits.levels)
          (c ++ (a' ++ (b' ++ rest))) limits' core')) :
    Indistinguishable maxDepth depth scope slots (conditional c a b) rest
      (conditional c a' b') rest := by
  refine indistinguishable_of_alike ?_
  intro limits limits' core core' hmax hdepth hlimits hslots hslots'
  rw [conditional_append, conditional_append]
  have hdepth : limits.deeper.depth = depth + 1 := congrArg (· + 1) hdepth
  exact alike_evaluate_cond hlimits
    (h hmax hdepth hlimits.deeper hslots (hslots'.trans hslots.symm))

theorem indistinguishable_of_ne_zero (hc : EvaluatesAlone maxDepth (depth + 1) scope slots c n)
    (ha : SkipsAlone maxDepth (depth + 1) a) (hb : SkipsAlone maxDepth (depth + 1) b)
    (hx : SkipsAlone maxDepth (depth + 1) x) (hn : (n == 0) = false) (rest : Tokens) :
    Indistinguishable maxDepth depth scope slots (conditional c a b) rest
      (conditional c a x) rest := by
  refine indistinguishable_conditional ?_
  rintro limits limits' core core' hmax hdepth hlimits rfl hslots
  exact alike_condition_of_ne_zero (hc.evaluates hmax hdepth) hlimits hslots
    (ha.skips hmax hdepth) (hb.skips hmax hdepth) (hx.skips hmax hdepth) hn rest

theorem indistinguishable_of_zero (hc : EvaluatesAlone maxDepth (depth + 1) scope slots c n)
    (ha : SkipsAlone maxDepth (depth + 1) a) (hb : SkipsAlone maxDepth (depth + 1) b)
    (hx : SkipsAlone maxDepth (depth + 1) x) (hn : (n == 0) = true) (rest : Tokens) :
    Indistinguishable maxDepth depth scope slots (conditional c a b) rest
      (conditional c x b) rest := by
  refine indistinguishable_conditional ?_
  rintro limits limits' core core' hmax hdepth hlimits rfl hslots
  exact alike_condition_of_zero (hc.evaluates hmax hdepth) hlimits hslots
    (ha.skips hmax hdepth) (hb.skips hmax hdepth) (hx.skips hmax hdepth) hn rest

/-- The branch that is not taken cannot influence anything. If the first operand of a conditional
term is a number other than zero, or no number in the sense of arithmetic, another third operand
makes no difference, and if it is zero, another second operand makes none. The branch that is taken
is evaluated without regard to the tokens behind it, even when it fails. Skipping leaves the memory
alone, and where tokens stand at the cursor it fails for the form of the program or for want of
levels only. -/
theorem untaken_branch_irrelevant :
    (∀ {maxDepth depth : Nat} {scope : Scope Tokens} {slots : Slots Tokens} {c a b x : Tokens}
        {n : Float}, EvaluatesAlone maxDepth (depth + 1) scope slots c n →
      SkipsAlone maxDepth (depth + 1) a → SkipsAlone maxDepth (depth + 1) b →
      SkipsAlone maxDepth (depth + 1) x → ∀ rest : Tokens,
      ((n == 0) = false → Indistinguishable maxDepth depth scope slots
        (conditional c a b) rest (conditional c a x) rest) ∧
      ((n == 0) = true → Indistinguishable maxDepth depth scope slots
        (conditional c a b) rest (conditional c x b) rest)) ∧
    (∀ {maxDepth depth : Nat} {taken : Tokens}, SkipsAlone maxDepth depth taken →
      ∀ scope slots behind behind',
        Indistinguishable maxDepth depth scope slots taken behind taken behind') ∧
    (∀ (i : Interpreter) (tokens : ListRef),
      (i.perform tokens skipTerm).interpreter.memory = i.memory) ∧
    ∀ (context : EvalContext) (st st' : EvalState) (tokens : Tokens) (e : EvalError),
      (st.memory context).DenotesTokens st.cursor tokens →
      skipTerm context st = .error e st' →
      (∃ fault, e = .badSyntax fault) ∨ e = .tooDeep context.maxDepth := by
  refine ⟨?_, fun htaken => htaken.indistinguishable, Interpreter.memory_perform_skipTerm, ?_⟩
  · intro maxDepth depth scope slots c a b x n hc ha hb hx rest
    exact ⟨fun hn => indistinguishable_of_ne_zero hc ha hb hx hn rest,
      fun hn => indistinguishable_of_zero hc ha hb hx hn rest⟩
  · intro context st st' tokens e htokens hrun
    have hfails := failsOnTokens_skipTerm context htokens
    rw [hrun] at hfails
    cases hfails with
    | error he => exact he

end Conditionals

/-! ## Tokens in a new store -/

section Stored

variable {context : EvalContext} {st : EvalState} {env : Environment} {tokens : Tokens}
  {scope : Scope Tokens} {slots : Slots Tokens} {core : Core Tokens}

/-- Tokens that are put into a new store, for an evaluation in the empty environment. -/
theorem Stands.of_ofList {texts : TextTable} (htexts : texts.Distinct) {chunkSize : Nat}
    {maxCells : Option Nat} {reserves : Nat → Bool} {values : List Value} {l : ListRef}
    {store : Store}
    (hstored : Store.ofList values (Store.new chunkSize maxCells reserves) = .ok l store)
    (hslots : store.slots.size = 0) (htokens : List.Forall₂ texts.DenotesToken values tokens)
    (maxDepth depth : Nat) :
    Stands ⟨texts, maxDepth⟩ ⟨store, l, depth⟩ {} tokens [] #[] where
  layout := Store.layout_of_ofList (Store.layout_new chunkSize maxCells reserves) hstored
  distinct := htexts
  tokens :=
    ⟨values, Store.chain_of_ofList (Store.layout_new chunkSize maxCells reserves) hstored, htokens⟩
  env := ⟨[], .nil, .nil⟩
  slots := .empty hslots

theorem Stands.evaluatesAlone (h : Stands context st env tokens scope slots) {n : Float}
    (hrun : Plain.evaluate scope tokens (st.limits context) ⟨st.store.used, slots⟩ =
      .ok (.number n, []) core) :
    EvaluatesAlone context.maxDepth st.depth scope slots tokens n := by
  have hagrees := simulates_evaluate h.models h.env
  unfold Simulates at hagrees
  rw [hrun] at hagrees
  generalize hresult : evaluate env context st = result at hagrees
  cases hagrees with
  | @ok v _ st' _ _ hmodels _ hv =>
    cases Memory.Denotes.cases hv
    rw [← List.append_nil tokens] at h
    exact ⟨context, st, env, [], st', h, rfl, rfl, hresult, h.passes hresult hmodels.cursor⟩

theorem Stands.skipsAlone (h : Stands context st env tokens scope slots)
    (hrun : skipWithin (st.limits context).levels tokens (st.limits context)
      ⟨st.store.used, slots⟩ = .ok ((), []) core) :
    SkipsAlone context.maxDepth st.depth tokens := by
  have hagrees := simulates_skipWithin (st.limits context).levels h.models
  unfold Simulates at hagrees
  rw [hrun] at hagrees
  have hsame := leavesStore_skipTerm context st
  have hskip : skipTerm context st =
    EvalM.skipWithin (st.limits context).levels context st := rfl
  rw [hskip] at hsame
  generalize hresult : EvalM.skipWithin _ context st = result at hagrees hsame
  cases hagrees with
  | @ok _ _ st' _ _ hmodels _ _ =>
    have hstore : st'.store = st.store := hsame
    obtain ⟨values, hchain, hvalues⟩ := h.tokens
    rw [← List.append_nil values] at hchain
    obtain ⟨l, hreads, hend⟩ := hchain.exists_reads
    obtain ⟨_, hcursor, hnil⟩ := hmodels.cursor
    cases hnil
    have hl : l = st'.cursor := (Store.Chain.nil_iff.mp hend).trans
      (Store.Chain.nil_iff.mp hcursor).symm
    rw [← List.append_nil tokens] at h
    exact ⟨context, st, env, [], scope, slots, st', h, rfl, rfl, hskip.trans hresult, values,
      hl ▸ hreads, hvalues, hmodels.cursor⟩

end Stored

/-- A number is called in one of the branches that are not taken, and the head of a number is asked
for in the other one. -/
theorem untaken_branch_irrelevant_ill_typed :
    let c : Tokens := [.number 1]
    let a : Tokens := [.number 2]
    let b : Tokens := [.delimiter '(', .number 3, .delimiter ')']
    let x : Tokens := [.keyword .tos, .number 4]
    EvaluatesAlone 4 1 [] #[] c 1 ∧ SkipsAlone 4 1 a ∧ SkipsAlone 4 1 b ∧ SkipsAlone 4 1 x ∧
      Indistinguishable 4 0 [] #[] (conditional c a b) [.number 5]
        (conditional c a x) [.number 5] := by
  intro c a b x
  have htexts : (TextTable.mk #[] 0).Distinct := .empty 0
  have hstored : ∀ {values : List Value} {tokens : Tokens},
      succeeded (Store.ofList values (Store.new 8 none)) = true →
      (stateOf (Store.ofList values (Store.new 8 none))).slots.size = 0 →
      List.Forall₂ (TextTable.mk #[] 0).DenotesToken values tokens →
      ∃ store l, Stands ⟨⟨#[], 0⟩, 4⟩ ⟨store, l, 1⟩ {} tokens [] #[] := by
    intro values tokens hok hslots htokens
    obtain ⟨l, store, hrun⟩ := exists_of_succeeded hok
    rw [hrun] at hslots
    exact ⟨store, l, .of_ofList htexts hrun hslots htokens 4 1⟩
  have hone : List.Forall₂ (TextTable.mk #[] 0).DenotesToken [.number 1] c := .cons .number .nil
  have htwo : List.Forall₂ (TextTable.mk #[] 0).DenotesToken [.number 2] a := .cons .number .nil
  have hcall : List.Forall₂ (TextTable.mk #[] 0).DenotesToken
      [.delimiter '(', .number 3, .delimiter ')'] b :=
    .cons .delimiter (.cons .number (.cons .delimiter .nil))
  have hhead : List.Forall₂ (TextTable.mk #[] 0).DenotesToken [.keyword .tos, .number 4] x :=
    .cons .keyword (.cons .number .nil)
  obtain ⟨_, _, hc⟩ := hstored (by decide +kernel) (by decide +kernel) hone
  obtain ⟨_, _, ha⟩ := hstored (by decide +kernel) (by decide +kernel) htwo
  obtain ⟨_, _, hb⟩ := hstored (by decide +kernel) (by decide +kernel) hcall
  obtain ⟨_, _, hx⟩ := hstored (by decide +kernel) (by decide +kernel) hhead
  have hc : EvaluatesAlone 4 1 [] #[] c 1 := hc.evaluatesAlone rfl
  have ha : SkipsAlone 4 1 a := ha.skipsAlone rfl
  have hb : SkipsAlone 4 1 b := hb.skipsAlone rfl
  have hx : SkipsAlone 4 1 x := hx.skipsAlone rfl
  refine ⟨hc, ha, hb, hx, ?_⟩
  exact (untaken_branch_irrelevant.1 hc ha hb hx [.number 5]).1 (by decide +kernel)

end BraceLang
