import BraceLang.Evaluation.Term
import BraceLang.Proofs.Denotation.Calls

/-!
# Simulation of the evaluation of terms

The evaluator and the evaluation on data take the same steps on every term: they succeed together,
with related values and the same tokens left, and they fail together for the same reason and with
the same number of cells in use.

* `simulates_skipWithin`, `simulates_evaluateWithin`: by the number of levels that are left.
* `simulates_evaluate`: the evaluation of a term.
-/

namespace BraceLang

open Plain

section Terms

variable {context : EvalContext} {limits : Limits} {st : EvalState} {tokens : Tokens}
  {core : Core Tokens} {env : Environment} {scope : Scope Tokens}

theorem simulates_times {action : EvalM Unit} {action' : TokenM Unit}
    (ha : SimulatesFrom context (st.memory context) action action' (fun _ _ _ => True))
    (h : Models context limits st tokens core) (count : Nat) :
    Simulates context limits st tokens core (EvalM.times count action) (times count action')
      (fun _ _ _ => True) := by
  induction count generalizing st tokens core with
  | zero => exact Simulates.pure h trivial
  | succ count ih =>
    refine (ha _ _ _ _ h (.refl _)).bind fun _ _ st₁ tokens₁ core₁ _ hmodels₁ hext₁ _ => ?_
    exact ih (ha.mono hext₁) hmodels₁

theorem simulates_skipWith {skip : EvalM Unit} {skip' : TokenM Unit}
    (hs : SimulatesFrom context (st.memory context) skip skip' (fun _ _ _ => True))
    (h : Models context limits st tokens core) :
    Simulates context limits st tokens core (EvalM.skipWith skip) (skipWith skip')
      (fun _ _ _ => True) := by
  refine (simulates_next h .endOfText).bind
    fun v token st₁ tokens₁ core₁ _ hmodels₁ hext₁ hv => ?_
  cases hv with
  | number => exact Simulates.pure hmodels₁ trivial
  | string _ => exact Simulates.pure hmodels₁ trivial
  | atom _ => exact Simulates.pure hmodels₁ trivial
  | @keyword op => exact simulates_times (hs.mono hext₁) hmodels₁ op.arity
  | @delimiter c =>
    by_cases hopen : c = '('
    · subst hopen
      exact simulates_groups hmodels₁ ')'
    · by_cases hbrace : c = '{'
      · subst hbrace
        exact simulates_groups hmodels₁ '}'
      · split <;> try simp_all only [Value.delimiter.injEq, reduceCtorEq]
        split <;> try simp_all only [Lexeme.delimiter.injEq, reduceCtorEq]
        exact simulates_unexpected hmodels₁ .delimiter

theorem simulates_tooDeep {α β : Type} {R : Memory → α → β → Prop}
    (h : Models context limits st tokens core) :
    Simulates context limits st tokens core EvalM.tooDeep CoreM.tooDeep.lift R := by
  unfold EvalM.tooDeep CoreM.tooDeep
  rw [CoreM.lift_bind]
  refine Simulates.bind_left (x := context) rfl ?_
  refine Simulates.bind_right (x := limits) rfl ?_
  rw [← h.maxDepth]
  exact Agrees.error ⟨.tooDeep limits.maxDepth, rfl⟩ h.used

theorem simulates_skipWithin (levels : Nat) (h : Models context limits st tokens core) :
    Simulates context limits st tokens core (EvalM.skipWithin levels) (skipWithin levels)
      (fun _ _ _ => True) := by
  induction levels generalizing limits st tokens core with
  | zero => exact simulates_tooDeep h
  | succ levels ih =>
    exact Simulates.nested h (simulates_skipWith (fun _ _ _ _ hmodels _ => ih hmodels) h.deeper)

theorem simulates_termWith {eval : Environment → EvalM Value}
    {eval' : Scope Tokens → TokenM (Datum Tokens)} {skip : EvalM Unit} {skip' : TokenM Unit}
    (he : SimulatesTerms context eval eval') (hkeeps : ∀ n scope, ReadM.KeepsBelow n (eval' scope))
    (hs : SimulatesFrom context (st.memory context) skip skip' (fun _ _ _ => True))
    (h : Models context limits st tokens core) (henv : (st.memory context).DenotesEnv env scope) :
    Simulates context limits st tokens core (EvalM.termWith eval skip env)
      (termWith eval' skip' scope) Memory.Denotes := by
  refine (simulates_next h .endOfText).bind
    fun v token st₁ tokens₁ core₁ _ hmodels₁ hext₁ hv => ?_
  have henv₁ := henv.mono hext₁
  cases hv with
  | number => exact Simulates.pure hmodels₁ .number
  | string hname => exact Simulates.pure hmodels₁ (.string hname)
  | atom hname => exact simulates_lookupName hmodels₁ hname henv₁
  | @keyword op => exact simulates_applyKeyword hmodels₁ (he _ _ _ henv₁) (hs.mono hext₁) op
  | @delimiter c =>
    by_cases hopen : c = '('
    · subst hopen
      exact simulates_application he hkeeps hmodels₁ henv₁ (hs.mono hext₁)
    · by_cases hbrace : c = '{'
      · subst hbrace
        exact simulates_closure hmodels₁ henv₁
      · split <;> try simp_all only [Value.delimiter.injEq, reduceCtorEq]
        split <;> try simp_all only [Lexeme.delimiter.injEq, reduceCtorEq]
        exact simulates_unexpected hmodels₁ .delimiter

theorem simulates_evaluateWithin (levels : Nat) :
    SimulatesTerms context (EvalM.evaluateWithin levels) (evaluateWithin levels) := by
  induction levels with
  | zero => exact fun _ _ _ _ _ _ _ _ hmodels _ => simulates_tooDeep hmodels
  | succ levels ih =>
    intro m env scope henv limits st tokens core hmodels hext
    refine Simulates.nested hmodels (simulates_termWith ih ?_ ?_ hmodels.deeper (henv.mono hext))
    · exact fun n scope => keepsBelow_evaluateWithin levels n scope
    · exact fun _ _ _ _ hskip _ => simulates_skipWithin levels hskip

/-- The evaluator takes the steps of the evaluation on data. -/
theorem simulates_evaluate (h : Models context limits st tokens core)
    (henv : (st.memory context).DenotesEnv env scope) :
    Simulates context limits st tokens core (BraceLang.evaluate env) (Plain.evaluate scope)
      Memory.Denotes := by
  unfold BraceLang.evaluate Plain.evaluate
  refine Simulates.bind_left (x := context.maxDepth - st.depth) rfl ?_
  refine Simulates.bind_right (x := limits.maxDepth - limits.depth) rfl ?_
  rw [h.maxDepth, h.depth]
  exact (simulates_evaluateWithin _).apply h henv

end Terms

end BraceLang
