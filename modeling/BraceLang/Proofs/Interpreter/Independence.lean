import BraceLang.Proofs.Denotation.Interpreter

/-!
# Runs do not depend on what came before

What a run gives, and how many cells it takes, is a function of the text, the lexical rules, the
greatest depth and the limit on cells. Neither the evaluations that the interpreter has done before
nor the size of the chunks nor the clearing of the text table can be noticed, as long as a chunk of
the size can be had at all.

* `Interpreter.outcome_run`: the outcome of a run as a function of text and settings.
* `Interpreter.outcome_run_after`: the outcome of a run after any others, with chunks of another
  size.
-/

namespace BraceLang

/-- Something that an interpreter is asked to do with a text. -/
inductive Call where
  | evalText (text : String)
  | run (text : String)

namespace Interpreter

/-- The interpreter behind a call, which may fail. -/
def afterCall (i : Interpreter) : Call → Interpreter
  | .evalText text => stateOf (evalText text i)
  | .run text => stateOf (run text i)

/-- The interpreter behind some calls. -/
def after (i : Interpreter) (calls : List Call) : Interpreter := calls.foldl afterCall i

theorem Ready.after {config : Config} {i : Interpreter} (h : Ready config i) (calls : List Call) :
    Ready config (i.after calls) := by
  induction calls generalizing i with
  | nil => exact h
  | cons call calls ih =>
    refine ih ?_
    cases call with
    | evalText text => exact h.evalText text
    | run text => exact h.run text

/-- What an evaluation gives and the number of cells that it has taken. -/
def outcome {α : Type} : EStateM.Result EvalError Interpreter α → Except EvalError α × Nat
  | .ok a i => (.ok a, i.memory.store.used)
  | .error e i => (.error e, i.memory.store.used)

end Interpreter

/-- What an evaluation on data gives and the number of cells that it has taken. -/
def Plain.outcome {α : Type} : EStateM.Result Fault (Core Tokens) α → Except EvalError α × Nat
  | .ok a core => (.ok a, core.used)
  | .error fault core => (.error fault.val, core.used)

namespace Interpreter

/-- The outcome of a run is a function of the text and of the settings. -/
theorem outcome_run {config : Config} {i : Interpreter} (h : Ready config i) (text : String) :
    outcome (run text i) = Plain.outcome (Plain.run config.lexicon text config.limits {}) := by
  have hagrees := agrees_run h text
  generalize run text i = result at hagrees
  generalize Plain.run config.lexicon text config.limits {} = result' at hagrees
  cases hagrees with
  | ok hfits hresult =>
    subst hresult
    simp only [outcome, Plain.outcome, hfits.memory.used]
  | error fault hused => simp only [outcome, Plain.outcome, hused]

/-- Chunks that can be had are refused for no size. -/
theorem refusal?_eq {reserves : Nat → Bool} {maxCells : Option Nat} {chunkSize chunkSize' : Nat}
    (h : reserves chunkSize) (h' : reserves chunkSize') :
    Store.refusal? reserves maxCells chunkSize = Store.refusal? reserves maxCells chunkSize' := by
  funext used
  simp only [Store.refusal?, if_pos h, if_pos h']

theorem limits_eq {config : Config} {chunkSize : Nat} {resetTexts : Bool}
    (h : chunkSize = config.chunkSize ∨
      config.reserves (max config.chunkSize 1) ∧ config.reserves (max chunkSize 1)) :
    ({ config with chunkSize, resetTexts } : Config).limits = config.limits := by
  unfold Config.limits
  rcases h with rfl | ⟨hold, hnew⟩
  · rfl
  · simp only [refusal?_eq hnew hold]

/-- After any calls, a run ends as that of a new interpreter does, also of one with chunks of
another size and another way with texts. -/
theorem outcome_run_after (config : Config) (calls : List Call) (text : String) (chunkSize : Nat)
    (resetTexts : Bool) (h : chunkSize = config.chunkSize ∨
      config.reserves (max config.chunkSize 1) ∧ config.reserves (max chunkSize 1)) :
    outcome (run text ((new config).after calls)) =
      outcome (run text (new { config with chunkSize, resetTexts })) := by
  rw [outcome_run ((ready_new config).after calls), outcome_run (ready_new _), limits_eq h]
  rfl

theorem outcome_run_after_failure :
    (fitsBlock (max 4 1) ∧ fitsBlock (max 1 1)) ∧
      outcome (run "('a" ((new { chunkSize := 4 }).after [.run "(TOS NIL)", .evalText "\"a"])) =
        outcome (run "('a" (new { chunkSize := 1, resetTexts := true })) :=
  ⟨⟨by decide, by decide⟩,
    outcome_run_after { chunkSize := 4 } [.run "(TOS NIL)", .evalText "\"a"] "('a" 1 true
      (.inr ⟨by decide, by decide⟩)⟩

end Interpreter

end BraceLang
