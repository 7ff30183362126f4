import BraceLang.Proofs.Evaluation.Interrupts
import BraceLang.Proofs.Interpreter.Independence
import BraceLang.Proofs.Plain.Limits

/-!
# Limits stop evaluations and do nothing else

A text that is evaluated within the greatest depth and the limit on cells is evaluated to the same
value, or fails in the same way, with looser ones, and takes as many cells. Whatever is raised
within an evaluation is its end: no part of it goes on behind a failure of another.

* `Interpreter.SameOutcome`: evaluations that end in the same way.
* `Interpreter.stops_or_sameOutcome`: a limit stops an evaluation, or it does not matter.
* `Interpreter.limits_only_stop`: so it is with any looser limits, after any other evaluations.
-/

namespace BraceLang

/-! ## Looser settings -/

/-- With a greater depth and with more cells, or no limit on cells, less is refused. -/
theorem Config.limits_within {config : Config} {maxDepth : Nat} {maxCells : Option Nat}
    (hdepth : config.maxDepth ≤ maxDepth)
    (hcells : ∀ cells ∈ maxCells, ∃ limit ∈ config.maxCells, limit ≤ cells) :
    config.limits.Within ({ config with maxDepth, maxCells } : Config).limits where
  maxDepth := hdepth
  depth := rfl
  refusal := by
    intro used hfree
    obtain ⟨hroom, hindex, hreserves⟩ := Store.refusal?_eq_none_iff.mp hfree
    refine Store.refusal?_eq_none_iff.mpr ⟨fun cells hmax => ?_, hindex, hreserves⟩
    obtain ⟨limit, hlimit, hle⟩ := hcells cells hmax
    exact Nat.lt_of_lt_of_le (hroom limit hlimit) hle

namespace Interpreter

/-! ## Outcomes -/

/-- Evaluations end in the same way: with values that are written the same, or with the same
failure, and with as many cells in use. -/
inductive SameOutcome : EStateM.Result EvalError Interpreter Value →
    EStateM.Result EvalError Interpreter Value → Prop
  | value {v v' : Value} {i i' : Interpreter} {written : String} :
    i.memory.render v = .ok written → i'.memory.render v' = .ok written →
    i'.memory.store.used = i.memory.store.used → SameOutcome (.ok v i) (.ok v' i')
  | failure {e : EvalError} {i i' : Interpreter} :
    i'.memory.store.used = i.memory.store.used → SameOutcome (.error e i) (.error e i')

theorem SameOutcome.used {result result' : EStateM.Result EvalError Interpreter Value}
    (h : SameOutcome result result') :
    (stateOf result').memory.store.used = (stateOf result).memory.store.used := by
  cases h with
  | value _ _ hused => exact hused
  | failure hused => exact hused

/-- Evaluations that agree with one on data end in the same way. -/
theorem sameOutcome_of_agrees {config config' : Config}
    {result result' : EStateM.Result EvalError Interpreter Value}
    {plain : EStateM.Result Fault (Core Tokens) (Datum Tokens)}
    (h : Agrees config Memory.Denotes result plain)
    (h' : Agrees config' Memory.Denotes result' plain) : SameOutcome result result' := by
  cases h with
  | ok hfits hv =>
    cases h' with
    | ok hfits' hv' =>
      refine .value (Memory.render_eq hfits.memory.layout hfits.memory.slots hv)
        (Memory.render_eq hfits'.memory.layout hfits'.memory.slots hv') ?_
      rw [← hfits'.memory.used, hfits.memory.used]
  | error fault hused =>
    cases h' with
    | error _ hused' => exact .failure (hused'.symm.trans hused)

/-- An evaluation is stopped by a limit, or it ends as it does with looser limits. -/
theorem stops_or_sameOutcome {config config' : Config} {i i' : Interpreter}
    (h : Ready config i) (h' : Ready config' i') (hlexicon : config'.lexicon = config.lexicon)
    (hwithin : config.limits.Within config'.limits) (text : String) :
    (∃ e j, evalText text i = .error e j ∧ e.isLimit = true) ∨
      SameOutcome (evalText text i) (evalText text i') := by
  have hagrees := agrees_evalText h text
  have hagrees' := agrees_evalText h' text
  rw [hlexicon] at hagrees'
  rcases Plain.upToLimits_evalText config.lexicon text _ _ {} hwithin with hstopped | hsame
  · left
    obtain ⟨fault, core, herror, hlimit⟩ := hstopped
    rw [herror] at hagrees
    generalize evalText text i = result at hagrees
    cases hagrees with
    | @error _ j _ _ => exact ⟨fault.val, j, rfl, hlimit⟩
  · right
    rw [hsame] at hagrees'
    exact sameOutcome_of_agrees hagrees hagrees'

/-- An evaluation takes no more cells than the settings allow and than have an index. -/
theorem Ready.used_le {config : Config} {i : Interpreter} (h : Ready config i) (text : String)
    {most : Nat} (hmost : ∀ used, Store.limitReached? config.maxCells used = none → used < most) :
    (stateOf (Interpreter.evalText text i)).memory.store.used ≤ most := by
  rw [← h.reset.maxCells] at hmost
  exact Store.used_le_of_grows (continues_evalText text i).memory.store hmost (Nat.zero_le most)

/-! ## Looser limits -/

/-- Unless a limit stops it, a text is evaluated with the same outcome when the limits are looser,
whatever has been evaluated before. If that takes more cells than the tighter limit allows, then the
text is stopped there. Nor is a failure passed over in any part of an evaluation: whatever is raised
in front of a term or behind it, the evaluation ends with that, unless it does not come there and
ends as it does otherwise. -/
theorem limits_only_stop (config : Config) (earlier earlier' : List Call) (text : String)
    {maxDepth : Nat} {maxCells : Option Nat} (hdepth : config.maxDepth ≤ maxDepth)
    (hcells : ∀ cells ∈ maxCells, ∃ limit ∈ config.maxCells, limit ≤ cells) :
    let tight := evalText text ((new config).after earlier)
    let loose := evalText text ((new { config with maxDepth, maxCells }).after earlier')
    ((∀ e i, tight = .error e i → e.isLimit = false) → SameOutcome tight loose) ∧
    (∀ limit ∈ config.maxCells, limit < (stateOf loose).memory.store.used →
      ∃ e i, tight = .error e i ∧ e.isLimit = true) ∧
    ∀ (interrupt : Interrupt) (levels : Nat) (env : Environment) (context : EvalContext)
      (st : EvalState), EvalM.Breaks (fun e => ∃ st₁ st₂, interrupt st₁ = some (e, st₂))
        (EvalM.evaluateWithin levels env context st)
        (EvalM.evaluateUnder interrupt levels env context st) := by
  intro tight loose
  have hready := (ready_new config).after earlier
  have hready' := (ready_new { config with maxDepth, maxCells }).after earlier'
  have hends : (∃ e i, tight = .error e i ∧ e.isLimit = true) ∨ SameOutcome tight loose :=
    stops_or_sameOutcome hready hready' rfl (Config.limits_within hdepth hcells) text
  refine ⟨?_, ?_, ?_⟩
  · intro hfree
    rcases hends with ⟨e, i, herror, hlimit⟩ | hsame
    · rw [hfree e i herror] at hlimit
      cases hlimit
    · exact hsame
  · intro limit hlimit hmore
    rcases hends with hstops | hsame
    · exact hstops
    · have hle : (stateOf tight).memory.store.used ≤ limit :=
        hready.used_le text fun _ hfree => (Store.limitReached?_eq_none_iff.mp hfree).1 limit hlimit
      have hused := hsame.used
      omega
  · intro interrupt levels env context st
    have hraises : ∀ st e st', True → interrupt st = some (e, st') →
        ∃ st₁ st₂, interrupt st₁ = some (e, st₂) := fun st e st' _ h => ⟨st, st', h⟩
    have hfollows := EvalM.follows_evaluateWithin (fun _ _ _ _ => trivial) hraises levels env
    exact hfollows.breaks context st trivial

/-- A deferred argument, with all cells that it takes and with one less. -/
theorem limits_only_stop_deferred :
    let text := "({!x: x} \"a\")"
    let loose := evalText text ((new {}).after [])
    SameOutcome (evalText text ((new { maxDepth := 2, maxCells := some 28 }).after [.run "("]))
      loose ∧
    ∃ e i, evalText text ((new { maxDepth := 2, maxCells := some 27 }).after []) = .error e i ∧
      e.isLimit = true := by
  intro text loose
  have hdepth : 2 ≤ 1024 := by decide
  have hcells : ∀ limit : Nat, ∀ cells ∈ (none : Option Nat), ∃ found ∈ some limit, found ≤ cells :=
    fun _ _ h => by cases h
  constructor
  · have hruns : succeeded (evalText text
        ((new { maxDepth := 2, maxCells := some 28 }).after [.run "("])) = true := by
      decide +kernel
    obtain ⟨v, i, hvalue⟩ := exists_of_succeeded hruns
    have hends := limits_only_stop { maxDepth := 2, maxCells := some 28 } [.run "("] [] text
      hdepth (hcells 28)
    refine hends.1 fun e j herror => ?_
    rw [hvalue] at herror
    cases herror
  · have hmore : 27 < (stateOf loose).memory.store.used := by decide +kernel
    have hends := limits_only_stop { maxDepth := 2, maxCells := some 27 } [] [] text
      hdepth (hcells 27)
    exact hends.2.1 27 rfl hmore

end Interpreter

end BraceLang
