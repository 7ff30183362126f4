import BraceLang.Proofs.Denotation.Terms
import BraceLang.Proofs.Reference.Calls

/-!
# The evaluator and the semantics on syntax trees

Evaluating the tokens of a tree is evaluating the tree, whatever stands behind the tokens. On the
way from the one to the other lie the evaluation of token lists without a memory, which the
evaluator simulates, and the lowering of trees to token lists.

* `Reference.lowers_evaluateWithin`: trees and token lists.
* `Reference.evaluate_refines`: trees and the evaluator.
-/

namespace BraceLang

namespace Reference

open Plain

variable {limits : Limits}

/-! ## Passing a term -/

section Pass

variable {pass : Term → TreeM Unit} {skip : TokenM Unit}

theorem lowers_times (hp : LowersPass limits pass skip) (operands : List Term) (rest : Tokens) :
    Lowers limits (fun _ => ((), rest)) (operands.forM pass)
      (times operands.length skip (flatTerms operands ++ rest)) := by
  induction operands with
  | nil => exact .pure ()
  | cons e operands ih =>
    have htokens : flatTerms (e :: operands) ++ rest =
        e.tokens ++ (flatTerms operands ++ rest) := by
      simp [flatTerms]
    rw [htokens]
    exact .bindRead (hp e _) fun _ => ih

/-- The inner tokens of a group and its closing delimiter are skipped. -/
theorem lowers_splitGroups (limits : Limits) {inner : Tokens} (h : Balanced true inner)
    {closer : Char} (hcloser : closer = ')' ∨ closer = '}') (rest : Tokens) :
    Lowers limits (fun _ => ((), rest)) (pure () : TreeM Unit)
      (split (splitGroups [closer]) (inner ++ .delimiter closer :: rest)) := by
  have hgroups : splitGroups [closer] (inner ++ .delimiter closer :: rest) = .ok ((), rest) := by
    rw [h.splitGroups]
    rcases hcloser with rfl | rfl <;> simp [splitGroups]
  rw [split_of_ok hgroups]
  exact .pure ()

theorem lowers_passWith (hp : LowersPass limits pass skip) :
    LowersPass limits (passWith pass) (skipWith skip) := by
  intro e rest
  cases e with
  | operation op operands =>
    have hpass := lowers_times hp (List.ofFn operands) rest
    rw [List.length_ofFn, ← flatten_ofFn] at hpass
    simp only [Term.tokens, List.cons_append]
    exact .readFirst rfl hpass
  | primary p =>
    simp only [Term.tokens, passWith]
    cases p with
    | number n => exact .readFirst rfl (.pure ())
    | string text => exact .readFirst rfl (.pure ())
    | atom name => exact .readFirst rfl (.pure ())
    | closure params body =>
      have hinner : Balanced true _ := .closureInner params body.balanced_tokens
      have hskip := lowers_splitGroups limits hinner (.inr rfl) rest
      simp only [List.append_assoc, List.cons_append] at hskip
      simp only [Primary.tokens, List.cons_append, List.append_assoc, List.nil_append]
      exact .readFirst rfl hskip
    | group op operands =>
      have hinner : Balanced true _ := .groupInner op (balanced_ofFn operands)
      have hskip := lowers_splitGroups limits hinner (.inl rfl) rest
      simp only [List.cons_append] at hskip
      simp only [Primary.tokens, List.cons_append, List.append_assoc, List.nil_append]
      exact .readFirst rfl hskip
    | call callee count arguments =>
      have hinner : Balanced true _ :=
        .callInner callee.balanced_tokens (balanced_ofFn arguments)
      have hskip := lowers_splitGroups limits hinner (.inl rfl) rest
      simp only [List.append_assoc] at hskip
      simp only [Primary.tokens, List.cons_append, List.append_assoc, List.nil_append]
      exact .readFirst rfl hskip

end Pass

/-! ## Evaluating a term -/

section Terms

variable {eval : Scope Term → Term → TreeM (Datum Term)}
  {eval' : Scope Tokens → TokenM (Datum Tokens)} {pass : Term → TreeM Unit} {skip : TokenM Unit}

/-- A keyword with its operands in parentheses, of which the first has been taken. -/
theorem lowers_group {scope : Scope Term}
    (he : LowersTerm limits.deeper (eval scope) (eval' (flatScope scope)))
    (hp : LowersPass limits.deeper pass skip) (op : Keyword)
    (operands : Fin op.arity → Term) (rest : Tokens) :
    Lowers limits (fun d => (flat d, rest)) (CoreM.nested (operation (eval scope) pass op operands))
      (application eval' skip (flatScope scope) (.keyword op ::
        ((List.ofFn fun i => (operands i).tokens).flatten ++ .delimiter ')' :: rest))) := by
  have hoperation := (lowers_operation he hp op operands (.delimiter ')' :: rest)).nested
  have happlication : Lowers limits (fun d => (flat d, rest))
      (CoreM.nested (operation (eval scope) pass op operands))
      (application.operation eval' skip (flatScope scope) op
        ((List.ofFn fun i => (operands i).tokens).flatten ++ .delimiter ')' :: rest)) := by
    refine .readLast (g := id) hoperation ?_
    exact fun _ => rfl
  exact happlication

/-- A function with its arguments in parentheses, of which the first has been taken. -/
theorem lowers_function (skip : TokenM Unit) (he : LowersTerms limits eval eval')
    (hclose : FailsAtClose limits eval') (scope : Scope Term) (callee : Primary)
    (arguments : List Term) (rest : Tokens) :
    Lowers limits (fun d => (flat d, rest))
      (eval scope (.primary callee) >>= fun function => apply eval scope arguments function)
      (application eval' skip (flatScope scope) (callee.tokens ++ closed arguments rest)) := by
  obtain ⟨token, others, htokens, hkeyword, -⟩ := callee.tokens_cases
  have hfunction : application eval' skip (flatScope scope)
      (callee.tokens ++ closed arguments rest) =
      application.function eval' (flatScope scope) (callee.tokens ++ closed arguments rest) := by
    rw [htokens]
    cases token with
    | keyword op => exact absurd rfl (hkeyword op)
    | _ => rfl
  have hcallee := he scope (.primary callee) (closed arguments rest)
  simp only [Term.tokens] at hcallee
  rw [hfunction]
  exact .bindRead hcallee fun function => lowers_apply he hclose scope arguments function rest

theorem lowers_termWith (he : LowersTerms limits eval eval')
    (hdeeper : LowersTerms limits.deeper eval eval') (hclose : FailsAtClose limits eval')
    (hp : LowersPass limits pass skip) (hpdeeper : LowersPass limits.deeper pass skip) :
    LowersTerms limits (termWith eval pass) (Plain.termWith eval' skip) := by
  intro scope e rest
  cases e with
  | operation op operands =>
    have hoperation := lowers_operation (he scope) hp op operands rest
    simp only [Term.tokens, List.cons_append]
    exact .readFirst rfl hoperation
  | primary p =>
    simp only [Term.tokens]
    cases p with
    | number n => exact .readFirst rfl (.pure (Datum.number n))
    | string text => exact .readFirst rfl (.pure (Datum.string text))
    | atom name => exact .readFirst rfl ((lowers_lookupName name scope).lift rest)
    | closure params body =>
      have hclosure : Lowers limits _ _ _ := lowers_closure scope params body rest
      simp only [Primary.tokens, List.cons_append, List.append_assoc, List.nil_append]
      exact .readFirst rfl hclosure
    | group op operands =>
      have hgroup := lowers_group (hdeeper scope) hpdeeper op operands rest
      simp only [Primary.tokens, List.cons_append, List.append_assoc, List.nil_append]
      exact .readFirst rfl hgroup
    | call callee count arguments =>
      have hcall := lowers_function skip he hclose scope callee (List.ofFn arguments) rest
      have htokens : closed (List.ofFn arguments) rest =
          joinArguments (List.ofFn fun i => (arguments i).tokens) ++ .delimiter ')' :: rest := by
        rw [closed, List.map_ofFn]
        rfl
      rw [htokens] at hcall
      simp only [Primary.tokens, List.cons_append, List.append_assoc, List.nil_append]
      exact .readFirst rfl hcall

end Terms

theorem lowers_passWithin (levels : Nat) (limits : Limits) :
    LowersPass limits (passWithin levels) (skipWithin levels) := by
  induction levels generalizing limits with
  | zero => exact fun _ _ => lowers_tooDeep.lift _
  | succ levels ih => exact fun e rest => (lowers_passWith (ih limits.deeper) e rest).nested

theorem failsAtClose_evaluateWithin {levels : Nat} (h : limits.maxDepth ≤ limits.depth + levels) :
    FailsAtClose limits (Plain.evaluateWithin levels) := by
  intro scope rest
  cases levels with
  | zero =>
    intro core
    simp only [CoreM.nested, if_pos (Nat.add_zero limits.depth ▸ h)]
    rfl
  | succ levels =>
    refine Lowers.nested ?_
    exact fun _ => rfl

/-- The tokens of a tree are evaluated as the tree is, and what stands behind them is left. -/
theorem lowers_evaluateWithin (levels : Nat) (limits : Limits)
    (h : limits.maxDepth ≤ limits.depth + levels) :
    LowersTerms limits (evaluateWithin levels) (Plain.evaluateWithin levels) := by
  induction levels generalizing limits with
  | zero => exact fun _ _ _ => lowers_tooDeep.lift _
  | succ levels ih =>
    intro scope e rest
    have hdeeper : limits.deeper.maxDepth ≤ limits.deeper.depth + levels := by
      simp only [Limits.deeper]
      omega
    have hdeepest : limits.deeper.deeper.maxDepth ≤ limits.deeper.deeper.depth + levels := by
      simp only [Limits.deeper]
      omega
    refine Lowers.nested ?_
    exact lowers_termWith (ih _ hdeeper) (ih _ hdeepest) (failsAtClose_evaluateWithin hdeeper)
      (lowers_passWithin levels _) (lowers_passWithin levels _) scope e rest

theorem lowers_evaluate (limits : Limits) : LowersTerms limits evaluate Plain.evaluate := by
  intro scope e rest core
  have hlevels : limits.maxDepth ≤ limits.depth + (limits.maxDepth - limits.depth) := by omega
  exact lowers_evaluateWithin _ limits hlevels scope e rest core

/-! ## Texts -/

/-- Evaluate a tree that is given as a text: its tokens are written twice before. -/
def evaluateText (e : Term) : TreeM (Datum Term) := do
  CoreM.charge e.tokens.length
  CoreM.charge e.tokens.length
  evaluate [] e

/-- A text is evaluated as the tree is whose tokens it has. -/
theorem lowers_evalText {lx : Lexicon} {text : String} {e : Term}
    (h : lx.lex text.toList = (e.tokens, none)) (limits : Limits) :
    Lowers limits flat (evaluateText e) (Plain.evalText lx text) := by
  have hscan : Plain.scan lx text = CoreM.charge e.tokens.length >>= fun _ => pure e.tokens := by
    unfold Plain.scan
    rw [h]
  have hevaluate := lowers_evaluate limits [] e []
  rw [List.append_nil] at hevaluate
  unfold Plain.evalText
  rw [hscan, bind_assoc]
  refine (lowers_charge _).bind fun _ => ?_
  rw [pure_bind]
  refine (lowers_charge _).bind fun _ => ?_
  rw [← bind_pure (evaluate [] e)]
  exact hevaluate.bind fun d => .pure d

theorem flatCore_of_used (used : Nat) : flatCore ⟨used, #[]⟩ = ⟨used, #[]⟩ := by
  simp [Core.mapBody, Slots.mapBody]

/-- The outcome of a text in an empty memory. -/
theorem evalText_eq {lx : Lexicon} {text : String} {e : Term}
    (h : lx.lex text.toList = (e.tokens, none)) (limits : Limits) :
    Plain.evalText lx text limits {} = mapResult flat flatCore (evaluateText e limits {}) := by
  rw [← lowers_evalText h limits {}, flatCore_of_used]

/-! ## The evaluator -/

/-- A state of the evaluator for an evaluation on trees: the memory is in order, the tokens stand at
the cursor, and the environment and the slots stand for these. -/
structure Represents (context : EvalContext) (st : EvalState) (env : Environment) (tokens : Tokens)
    (scope : Scope Term) (slots : Slots Term) : Prop where
  layout : st.store.Layout
  distinct : context.texts.Distinct
  cursor : (st.memory context).DenotesTokens st.cursor tokens
  env : (st.memory context).DenotesEnv env (flatScope scope)
  slots : (st.memory context).DenotesSlots (Slots.mapBody Term.tokens slots)

/-- What bounds the evaluation from a state on. -/
def limitsOf (context : EvalContext) (st : EvalState) : Limits :=
  ⟨context.maxDepth, st.depth, st.store.refusalAt?⟩

/-- Tokens that are put into a new store are at the start of an evaluation. -/
theorem represents_of_ofList {context : EvalContext} (hdistinct : context.texts.Distinct)
    {chunkSize : Nat} {maxCells : Option Nat} {reserves : Nat → Bool} {values : List Value}
    {l : ListRef} {store : Store}
    (hstored : Store.ofList values (Store.new chunkSize maxCells reserves) = .ok l store)
    (hslots : store.slots.size = 0) {tokens : Tokens}
    (htokens : List.Forall₂ context.texts.DenotesToken values tokens) :
    Represents context ⟨store, l, 0⟩ {} tokens [] #[] where
  layout := Store.layout_of_ofList (Store.layout_new chunkSize maxCells reserves) hstored
  distinct := hdistinct
  cursor :=
    ⟨values, Store.chain_of_ofList (Store.layout_new chunkSize maxCells reserves) hstored, htokens⟩
  env := ⟨[], .nil, .nil⟩
  slots := by
    have hnone : Slots.mapBody Term.tokens #[] = #[] := by simp [Slots.mapBody]
    rw [hnone]
    exact .empty hslots

/-- The evaluator gives a term the value of its syntax tree, leaves what stands behind the term, and
fails for the reason that the semantics fails for. -/
theorem evaluate_refines (e : Term) (rest : Tokens) {context : EvalContext} {st : EvalState}
    {env : Environment} {scope : Scope Term} {slots : Slots Term}
    (h : Represents context st env (e.tokens ++ rest) scope slots) :
    match BraceLang.evaluate env context st,
      evaluate scope e (limitsOf context st) ⟨st.store.used, slots⟩ with
    | .ok v st', .ok d core => (st'.memory context).Denotes v (flat d) ∧
        Represents context st' env rest scope core.slots ∧ st'.depth = st.depth ∧
        st'.store.used = core.used
    | .error error st', .error fault core => error = fault.val ∧ st'.store.used = core.used
    | _, _ => False := by
  have hmodels : Models context (limitsOf context st) st (e.tokens ++ rest)
      (flatCore ⟨st.store.used, slots⟩) :=
    ⟨h.layout, h.distinct, rfl, rfl, rfl, rfl, h.slots, h.cursor⟩
  have hsimulates := simulates_evaluate hmodels h.env
  unfold Simulates at hsimulates
  rw [lowers_evaluate (limitsOf context st) scope e rest] at hsimulates
  generalize BraceLang.evaluate env context st = result at hsimulates
  generalize evaluate scope e (limitsOf context st) ⟨st.store.used, slots⟩ = result' at hsimulates
  cases result' with
  | ok d core =>
    cases hsimulates with
    | @ok v _ st' _ _ hmodels' hext hv =>
      refine ⟨hv, ⟨hmodels'.layout, h.distinct, hmodels'.cursor, ?_, hmodels'.slots⟩, ?_, ?_⟩
      · exact h.env.mono (EvalState.memory_extends hext)
      · exact hmodels'.depth.symm
      · exact hmodels'.used.symm
  | error fault core =>
    cases hsimulates with
    | error _ hused => exact ⟨rfl, hused.symm⟩

/-- The number that an evaluation gives. -/
def numberIn? : EStateM.Result Fault (Core Term) (Datum Term) → Option Float
  | .ok (.number n) _ => some n
  | _ => none

/-- A call that compares its deferred argument and adds to the outcome. -/
theorem evaluate_refines_deferred :
    let equal : Term := .operation .eq ![.primary (.atom ['x']), .primary (.string ['a'])]
    let body : Term := .operation .add ![equal, .primary (.number 2)]
    let callee : Primary := .closure [⟨.deferred, ['x']⟩] body
    let e : Term := .primary (.call callee 1 fun _ => .primary (.string ['a']))
    let context : EvalContext := ⟨{ entries := #["x", "a"] }, 8⟩
    ∃ st, Represents context st {} (e.tokens ++ []) [] #[] ∧
      ∃ v st', BraceLang.evaluate {} context st = .ok v st' ∧
        (st'.memory context).Denotes v (.number (1 + 2)) := by
  let tokens : List Value := [.delimiter '(', .delimiter '{', .delimiter '!', .atom ⟨0, 0⟩,
    .delimiter ':', .keyword .add, .keyword .eq, .atom ⟨0, 0⟩, .string ⟨1, 0⟩, .number 2,
    .delimiter '}', .string ⟨1, 0⟩, .delimiter ')']
  intro equal body callee e context
  have hok : succeeded (Store.ofList tokens (Store.new 8 none)) = true := by decide +kernel
  have hstate : (stateOf (Store.ofList tokens (Store.new 8 none))).slots.size = 0 ∧
      (stateOf (Store.ofList tokens (Store.new 8 none))).used = 13 ∧
      (stateOf (Store.ofList tokens (Store.new 8 none))).maxCells = none ∧
      (stateOf (Store.ofList tokens (Store.new 8 none))).chunkSize = 8 := by
    decide +kernel
  obtain ⟨l, store, hstored⟩ := exists_of_succeeded hok
  have hgrows := Store.keeps_ofList tokens (Store.new 8 none)
  rw [hstored] at hstate hgrows
  have hreserves : store.reserves = fitsBlock := (Store.extends_of_grows hgrows).reserves
  obtain ⟨hslots, hused, hmax, hchunk⟩ := hstate
  simp only [stateOf] at hslots hused hmax hchunk
  have hdistinct : context.texts.Distinct := by
    intro i j text hi hj
    rcases i with _ | _ | i <;> rcases j with _ | _ | j <;> simp_all [context]
    · exact absurd (hi.trans hj.symm) (by decide)
    · exact absurd (hj.trans hi.symm) (by decide)
  have htokens : List.Forall₂ context.texts.DenotesToken tokens (e.tokens ++ []) :=
    .cons .delimiter (.cons .delimiter (.cons .delimiter (.cons (.atom rfl)
      (.cons .delimiter (.cons .keyword (.cons .keyword (.cons (.atom rfl) (.cons (.string rfl)
        (.cons .number (.cons .delimiter (.cons (.string rfl) (.cons .delimiter .nil))))))))))))
  have h : Represents context ⟨store, l, 0⟩ {} (e.tokens ++ []) [] #[] :=
    represents_of_ofList hdistinct hstored hslots htokens
  have hvalue := evaluate_refines e [] h
  have hnumber : numberIn? (evaluate [] e ⟨8, 0, Store.refusal? fitsBlock none 8⟩ ⟨13, #[]⟩) =
      some (1 + 2) := by
    rfl
  simp only [limitsOf, Store.refusalAt?, hused, hreserves, hmax, hchunk] at hvalue
  refine ⟨⟨store, l, 0⟩, h, ?_⟩
  generalize BraceLang.evaluate {} context ⟨store, l, 0⟩ = result at hvalue
  generalize evaluate [] e ⟨8, 0, Store.refusal? fitsBlock none 8⟩ ⟨13, #[]⟩ = result'
    at hvalue hnumber
  cases result with
  | ok v st' =>
    cases result' with
    | ok d core => exact ⟨v, st', rfl, by cases d <;> simp_all [numberIn?, flat, Datum.mapBody]⟩
    | error fault core => exact hvalue.elim
  | error error st' =>
    cases result' with
    | ok d core => exact hvalue.elim
    | error fault core => cases hnumber

end Reference

end BraceLang
