import BraceLang.Proofs.Effects
import BraceLang.Proofs.Plain.Compositional

/-!
# Evaluations with looser limits

Limits stop an evaluation and do nothing else. With looser ones it ends in the same way, in the same
state, unless the tighter ones stop it: where they say nothing the looser ones say nothing either,
and what is stopped in a part of an evaluation is the end of the whole.

* `Limits.Within`: limits that are as tight as others or tighter.
* `CoreM.UpToLimits`: two actions, the first with tighter limits, end in the same way unless the
  first is stopped.
* `Plain.compositional_upToLimits`: what holds of the actions inside a term holds of the term.
* `Plain.upToLimits_evalText`: evaluating a text.
-/

namespace BraceLang

/-- Whether a failure says that a limit is reached, of depth or of cells. -/
def EvalError.isLimit : EvalError → Bool
  | .tooDeep _ | .allocationFailure _ => true
  | _ => false

/-- At the same depth, whatever is refused with the second limits is refused with the first. -/
structure Limits.Within (limits limits' : Limits) : Prop where
  maxDepth : limits.maxDepth ≤ limits'.maxDepth
  depth : limits'.depth = limits.depth
  refusal : ∀ used, limits.refusal used = none → limits'.refusal used = none

theorem Limits.Within.deeper {limits limits' : Limits} (h : limits.Within limits') :
    limits.deeper.Within limits'.deeper :=
  ⟨h.maxDepth, congrArg (· + 1) h.depth, h.refusal⟩

/-- The outcome is that a limit is reached. -/
def CoreM.Stopped {α β : Type} (result : EStateM.Result Fault (Core β) α) : Prop :=
  ∃ (fault : Fault) (core : Core β), result = .error fault core ∧ fault.val.isLimit = true

/-- The first action is stopped by a limit, or the second one has the same outcome with looser
limits. -/
def CoreM.UpToLimits {α β : Type} (action action' : CoreM β α) : Prop :=
  ∀ limits limits' core, limits.Within limits' →
    Stopped (action limits core) ∨ action' limits' core = action limits core

namespace CoreM

variable {α γ β : Type}

namespace UpToLimits

variable {action action' : CoreM β α}

/-- An action that does not look at the limits. -/
theorem of_eq (h : ∀ limits limits', action limits = action limits') :
    UpToLimits action action :=
  fun limits limits' core _ => Or.inr (congrFun (h limits' limits) core)

theorem bind {f f' : α → CoreM β γ} (h : UpToLimits action action')
    (hf : ∀ a, UpToLimits (f a) (f' a)) : UpToLimits (action >>= f) (action' >>= f') := by
  intro limits limits' core hwithin
  rcases h limits limits' core hwithin with ⟨fault, core', herror, hlimit⟩ | hsame
  · exact Or.inl ⟨fault, core', reader_bind_of_error herror, hlimit⟩
  · cases hrun : action limits core with
    | ok a core' =>
      rw [reader_bind_of_ok hrun, reader_bind_of_ok (hsame.trans hrun)]
      exact hf a limits limits' core' hwithin
    | error fault core' =>
      right
      rw [reader_bind_of_error hrun, reader_bind_of_error (hsame.trans hrun)]

theorem nested (h : UpToLimits action action') :
    UpToLimits (CoreM.nested action) (CoreM.nested action') := by
  intro limits limits' core hwithin
  unfold CoreM.nested
  by_cases hdeep : limits.maxDepth ≤ limits.depth
  · left
    rw [if_pos hdeep]
    exact ⟨_, core, rfl, rfl⟩
  · have hroom : ¬ limits'.maxDepth ≤ limits'.depth := by
      have := hwithin.maxDepth
      have := hwithin.depth
      omega
    rw [if_neg hdeep, if_neg hroom]
    exact h _ _ core hwithin.deeper

theorem alloc : UpToLimits (CoreM.alloc : CoreM β Unit) CoreM.alloc := by
  intro limits limits' core hwithin
  unfold CoreM.alloc
  cases hrefusal : limits.refusal core.used with
  | some e => exact Or.inl ⟨_, core, rfl, rfl⟩
  | none =>
    right
    rw [hwithin.refusal _ hrefusal]

theorem of_basic (h : Basic action) : UpToLimits action action := by
  induction h with
  | pure a => exact of_eq fun _ _ => rfl
  | throw fault => exact of_eq fun _ _ => rfl
  | slots _ ih =>
    intro limits limits' core hwithin
    exact ih core.slots limits limits' core hwithin
  | alloc => exact alloc
  | newSlot => exact of_eq fun _ _ => rfl
  | bind _ _ ih ihf => exact ih.bind ihf

/-- An evaluation without levels is stopped, so that it can be compared with any other. -/
theorem tooDeep (action : CoreM β α) : UpToLimits CoreM.tooDeep action :=
  fun _ _ core _ => Or.inl ⟨_, core, rfl, rfl⟩

end UpToLimits

end CoreM

namespace Plain

open BraceLang.CoreM

/-! ## Terms -/

theorem sequential_upToLimits : Sequential CoreM.UpToLimits where
  basic := .of_basic
  bind := .bind

theorem compositional_upToLimits : Compositional CoreM.UpToLimits where
  toSequential := sequential_upToLimits
  nested := .nested
  tooDeep := .tooDeep
  call := fun he => sequential_upToLimits.call he fun _ _ => .of_eq fun _ _ => rfl

/-- A greater depth leaves as many levels or more. -/
theorem upToLimits_evaluate (scope : Scope Tokens) (tokens : Tokens) :
    CoreM.UpToLimits (evaluate scope tokens) (evaluate scope tokens) := by
  intro limits limits' core hwithin
  have hlevels : limits.maxDepth - limits.depth ≤ limits'.maxDepth - limits'.depth := by
    have := hwithin.maxDepth
    have := hwithin.depth
    omega
  have hterm := compositional_upToLimits.evaluateWithin hlevels scope tokens
  exact hterm limits limits' core hwithin

/-! ## Texts -/

variable (lx : Lexicon) (text : String)

theorem upToLimits_scan : CoreM.UpToLimits (scan lx text) (scan lx text) := by
  refine .of_basic ((basic_charge _).bind fun _ => ?_)
  cases (lx.lex text.toList).2 with
  | none => exact .pure _
  | some quote => exact .throw _

/-- With looser limits the value of a text, or its failure, is the same, and so are the cells that
are taken, unless the tighter limits stop the evaluation. -/
theorem upToLimits_evalText : CoreM.UpToLimits (evalText lx text) (evalText lx text) := by
  refine (upToLimits_scan lx text).bind fun tokens => ?_
  refine (CoreM.UpToLimits.of_basic (basic_charge _)).bind fun _ => ?_
  refine CoreM.UpToLimits.bind (upToLimits_evaluate [] tokens) fun result => .of_basic ?_
  obtain ⟨value, left⟩ := result
  cases left with
  | nil => exact .pure value
  | cons token left => exact basic_fail _

end Plain

end BraceLang
