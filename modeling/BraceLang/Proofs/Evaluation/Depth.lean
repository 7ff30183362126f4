import BraceLang.Interpreter
import BraceLang.Proofs.Evaluation.Growth

/-!
# The depth of an evaluation

The depth is raised where a level is entered and lowered where it is left, and nowhere else. A watch
is asked at these places, and may stop the evaluation there with a failure of its own. An evaluation
that no watch changes as long as the watch says nothing about depths in a range has no other depths
at these places, and hence none at all. And an evaluation that is stopped by a watch which only
speaks where a level is entered at the greatest depth is one that comes to such a place.

* `EvalM.enter`, `EvalM.evaluateWatched`, `EvalM.skipWatched`: evaluations under a watch.
* `EvalM.Echoes`: what an action and the same action under a watch have in common.
* `EvalM.Watches`: an action echoes under a watch from all states whose depth is in a range.
* `EvalM.watches_evaluateWatched`, `EvalM.watches_skipWatched`: the two recursions.
* `KeepsAccount`: the depth in front of a request, during it and behind it.
* `depth_accounting`: the account is kept, by one request and by many of them.
-/

namespace BraceLang

/-! ## Evaluations under a watch -/

/-- Where a watch is asked: in front of a level and behind it, and at both ends of what is done
in it. -/
inductive Place where
  | before
  | first
  | last
  | behind

/-- The number of levels that have been entered at a place. -/
def Place.level : Place → Nat
  | before | behind => 0
  | first | last => 1

/-- Where an evaluation is stopped, and with which failure. -/
abbrev Watch := Place → EvalState → Option EvalError

namespace EvalM

section Watched

variable (watch : Watch)

/-- Ask the watch in front of an action and behind it, however the action ends. -/
def between {α : Type} (front back : Place) (action : EvalM α) : EvalM α := fun context st =>
  match watch front st with
  | some e => .error e st
  | none =>
    let result := action context st
    match watch back (stateOf result) with
    | some e => .error e (stateOf result)
    | none => result

/-- Run an action one level deeper under the watch. -/
def enter {α : Type} (action : EvalM α) : EvalM α :=
  between watch .before .behind (nested (between watch .first .last action))

/-- Skip a term with a number of levels left. -/
def skipWatched : Nat → EvalM Unit
  | 0 => between watch .before .behind tooDeep
  | levels + 1 => enter watch (skipWith (skipWatched levels))

/-- Evaluate a term with a number of levels left. -/
def evaluateWatched : Nat → Environment → EvalM Value
  | 0, _ => between watch .before .behind tooDeep
  | levels + 1, env =>
    enter watch (termBy (enter watch) (evaluateWatched levels) (skipWatched watch levels) env)

end Watched

/-! ## Outcomes under a watch -/

/-- The outcome under a watch is the same, except that the watch may say something else where the
greatest depth is exceeded. The depth is as given. -/
inductive Echoes {α : Type} (alarm : Option EvalError) (maxDepth depth : Nat) :
    EStateM.Result EvalError EvalState α → EStateM.Result EvalError EvalState α → Prop
  | ok (a : α) {st : EvalState} : st.depth = depth →
    Echoes alarm maxDepth depth (.ok a st) (.ok a st)
  | error {e : EvalError} {st : EvalState} : st.depth = depth → (∀ limit, e ≠ .tooDeep limit) →
    Echoes alarm maxDepth depth (.error e st) (.error e st)
  | tooDeep {st : EvalState} : st.depth = depth →
    Echoes alarm maxDepth depth (.error (.tooDeep maxDepth) st)
      (.error (alarm.getD (.tooDeep maxDepth)) st)

/-- The watch speaks in front of a level at the greatest depth, if at all, and says nothing at any
other place with a depth in the range. -/
structure Quiet (watch : Watch) (least maxDepth : Nat) (alarm : Option EvalError) :
    Prop where
  full : ∀ st, st.depth = maxDepth → watch .before st = alarm
  quiet : ∀ place st, least + place.level ≤ st.depth → st.depth ≤ maxDepth →
    (place = .before → st.depth ≠ maxDepth) → watch place st = none

/-- From states whose depth is in the range, with so many levels left or fewer, the outcomes are the
same up to the alarm. -/
def Watches (alarm : Option EvalError) (least maxDepth levels : Nat) {α : Type}
    (m m' : EvalM α) : Prop :=
  ∀ ⦃context st⦄, context.maxDepth = maxDepth → least ≤ st.depth → st.depth ≤ maxDepth →
    maxDepth ≤ st.depth + levels →
    Echoes alarm maxDepth st.depth (m context st) (m' context st)

namespace Watches

variable {α β : Type} {alarm : Option EvalError} {least maxDepth levels : Nat} {m m' : EvalM α}

theorem pure (a : α) :
    Watches alarm least maxDepth levels (Pure.pure a : EvalM α) (Pure.pure a) :=
  fun _ _ _ _ _ _ => .ok a rfl

theorem throw {e : EvalError} (h : e.isLocal = true) :
    Watches alarm least maxDepth levels (MonadExcept.throw e : EvalM α)
      (MonadExcept.throw e) := by
  intro context st _ _ _ _
  refine .error rfl ?_
  rintro limit rfl
  cases h

theorem bind {f f' : α → EvalM β} (h : Watches alarm least maxDepth levels m m')
    (hf : ∀ a, Watches alarm least maxDepth levels (f a) (f' a)) :
    Watches alarm least maxDepth levels (m >>= f) (m' >>= f') := by
  intro context st hmax hleast hle hlevels
  have hfirst := h hmax hleast hle hlevels
  generalize hm : m context st = result at hfirst
  generalize hm' : m' context st = result' at hfirst
  cases hfirst with
  | @ok a st' hdepth =>
    rw [reader_bind_of_ok hm, reader_bind_of_ok hm', ← hdepth]
    rw [← hdepth] at hleast hle hlevels
    exact hf a hmax hleast hle hlevels
  | error hdepth he =>
    rw [reader_bind_of_error hm, reader_bind_of_error hm']
    exact .error hdepth he
  | tooDeep hdepth =>
    rw [reader_bind_of_error hm, reader_bind_of_error hm']
    exact .tooDeep hdepth

theorem ofStoreM (action : StoreM α) :
    Watches alarm least maxDepth levels (ofStoreM action) (EvalM.ofStoreM action) := by
  rintro context ⟨store, cursor, depth⟩ _ _ _ _
  unfold EvalM.ofStoreM
  cases hrun : action store with
  | ok a store' =>
    simp only [hrun]
    exact .ok a rfl
  | error e store' =>
    simp only [hrun]
    exact .error rfl fun limit => by cases e <;> simp [EvalError.ofStore, StoreError.isExhaustion]

theorem of_basic (h : Basic m) : Watches alarm least maxDepth levels m m := by
  induction h with
  | pure a => exact pure a
  | throw he => exact throw he
  | get => exact fun _ st _ _ _ _ => .ok st rfl
  | read => exact fun context _ _ _ _ _ => .ok context rfl
  | moveTo cursor => exact fun _ _ _ _ _ _ => .ok () rfl
  | ofStoreM _ => exact ofStoreM _
  | bind _ _ ih ihf => exact ih.bind ihf

theorem onTokens (tokens : ListRef) (h : Watches alarm least maxDepth levels m m') :
    Watches alarm least maxDepth levels (onTokens tokens m) (EvalM.onTokens tokens m') := by
  rintro context ⟨store, cursor, depth⟩ hmax hleast hle hlevels
  have hinner := @h context ⟨store, tokens, depth⟩ hmax hleast hle hlevels
  unfold EvalM.onTokens
  simp only
  generalize m context ⟨store, tokens, depth⟩ = result at hinner
  generalize m' context ⟨store, tokens, depth⟩ = result' at hinner
  cases hinner with
  | ok a hdepth => exact .ok _ hdepth
  | error hdepth he => exact .error hdepth he
  | tooDeep hdepth => exact .tooDeep hdepth

end Watches

/-! ## Levels under a watch -/

section Levels

variable {α : Type} {watch : Watch} {alarm : Option EvalError} {least maxDepth levels levels' : Nat}
  {m m' : EvalM α} {context : EvalContext}

theorem Echoes.depth_eq {depth : Nat} {result result' : EStateM.Result EvalError EvalState α}
    (h : Echoes alarm maxDepth depth result result') :
    (stateOf result).depth = depth ∧ (stateOf result').depth = depth := by
  cases h with
  | ok _ hdepth => exact ⟨hdepth, hdepth⟩
  | error hdepth _ => exact ⟨hdepth, hdepth⟩
  | tooDeep hdepth => exact ⟨hdepth, hdepth⟩

theorem Echoes.eq_of_none {depth : Nat} {result result' : EStateM.Result EvalError EvalState α}
    (h : Echoes none maxDepth depth result result') : result' = result := by
  cases h with
  | ok _ _ => rfl
  | error _ _ => rfl
  | tooDeep _ => rfl

section TooDeep

variable {e : EvalError} {depth : Nat} {result : EStateM.Result EvalError EvalState α}
  {st : EvalState}

theorem Echoes.limit_eq {limit : Nat}
    (h : Echoes alarm maxDepth depth (.error (.tooDeep limit) st) result) : limit = maxDepth := by
  cases h with
  | error _ he => exact absurd rfl (he limit)
  | tooDeep _ => rfl

theorem Echoes.eq_alarm {limit : Nat}
    (h : Echoes (some e) maxDepth depth (.error (.tooDeep limit) st) result) :
    ∃ st', result = .error e st' := by
  cases h with
  | error _ he => exact absurd rfl (he limit)
  | tooDeep _ => exact ⟨st, rfl⟩

theorem Echoes.exists_tooDeep {limit : Nat}
    (h : Echoes alarm maxDepth depth result (.error (.tooDeep limit) st)) :
    ∃ limit' st', result = .error (.tooDeep limit') st' := by
  generalize hresult : EStateM.Result.error (EvalError.tooDeep limit) st = result' at h
  cases h with
  | ok a _ => cases hresult
  | error _ he =>
    cases hresult
    exact absurd rfl (he limit)
  | tooDeep _ => exact ⟨_, _, rfl⟩

end TooDeep

/-- With room for a level, a watch at both ends of an action that leaves the depth as it was changes
nothing. -/
theorem between_of_quiet (hquiet : Quiet watch least maxDepth alarm) {front back : Place}
    {st : EvalState} (hfront : front = .before → st.depth ≠ maxDepth) (hback : back ≠ .before)
    (hlevel : back.level = front.level) (hleast : least + front.level ≤ st.depth)
    (hle : st.depth ≤ maxDepth) (hdepth : (stateOf (m context st)).depth = st.depth) :
    between watch front back m context st = m context st := by
  have hsilent : watch front st = none := hquiet.quiet front st hleast hle hfront
  have hsilent' : watch back (stateOf (m context st)) = none := by
    refine hquiet.quiet back _ ?_ ?_ fun h => absurd h hback
    · rw [hlevel, hdepth]
      exact hleast
    · rw [hdepth]
      exact hle
  unfold between
  simp only [hsilent, hsilent']

theorem Echoes.nested {store : Store} {cursor : ListRef} {depth : Nat}
    (hroom : depth < context.maxDepth)
    (h : Echoes alarm maxDepth (depth + 1) (m context ⟨store, cursor, depth + 1⟩)
      (m' context ⟨store, cursor, depth + 1⟩)) :
    Echoes alarm maxDepth depth (nested m context ⟨store, cursor, depth⟩)
      (EvalM.nested m' context ⟨store, cursor, depth⟩) := by
  unfold EvalM.nested
  simp only [if_neg (show ¬ context.maxDepth ≤ depth by omega)]
  generalize m context ⟨store, cursor, depth + 1⟩ = result at h
  generalize m' context ⟨store, cursor, depth + 1⟩ = result' at h
  cases h with
  | ok a hdepth => exact .ok a (by simp only [hdepth]; omega)
  | error hdepth he => exact .error (by simp only [hdepth]; omega) he
  | tooDeep hdepth => exact .tooDeep (by simp only [hdepth]; omega)

/-- At the greatest depth the watch is asked before the level is refused. -/
theorem echoes_full (hquiet : Quiet watch least context.maxDepth alarm) {st : EvalState}
    (hleast : least ≤ st.depth) (hfull : st.depth = context.maxDepth)
    (hm : m context st = .error (.tooDeep context.maxDepth) st) :
    Echoes alarm context.maxDepth st.depth (.error (.tooDeep context.maxDepth) st)
      (between watch .before .behind m context st) := by
  unfold between
  rw [hquiet.full st hfull]
  cases alarm with
  | some e => exact .tooDeep rfl
  | none =>
    have hbehind : watch .behind st = none :=
      hquiet.quiet .behind st hleast (Nat.le_of_eq hfull) fun h => by cases h
    simp only [hm, stateOf, hbehind]
    exact .tooDeep rfl

theorem Watches.enter (hquiet : Quiet watch least maxDepth alarm)
    (h : Watches alarm least maxDepth levels m m') (hlevels : levels' ≤ levels + 1) :
    Watches alarm least maxDepth levels' (nested m) (enter watch m') := by
  rintro context ⟨store, cursor, depth⟩ rfl hleast hle hleft
  simp only at hleast hle hleft
  by_cases hfull : depth = context.maxDepth
  · have hrefused : ∀ m : EvalM α, nested m context ⟨store, cursor, depth⟩ =
        .error (.tooDeep context.maxDepth) ⟨store, cursor, depth⟩ := fun m =>
      if_pos (Nat.le_of_eq hfull.symm)
    rw [hrefused]
    exact echoes_full hquiet hleast hfull (hrefused _)
  · have hroom : depth < context.maxDepth := by omega
    have hinner := @h context ⟨store, cursor, depth + 1⟩ rfl (Nat.le_succ_of_le hleast) hroom
      (by simp only; omega)
    -- at both ends of what is done in the level the depth is one more than around it
    have hends : between watch .first .last m' context ⟨store, cursor, depth + 1⟩ =
        m' context ⟨store, cursor, depth + 1⟩ :=
      between_of_quiet hquiet nofun nofun rfl (Nat.succ_le_succ hleast) hroom hinner.depth_eq.2
    rw [← hends] at hinner
    have houter := hinner.nested hroom
    have hsilent : between watch .before .behind (nested (between watch .first .last m')) context
        ⟨store, cursor, depth⟩ = nested (between watch .first .last m') context
          ⟨store, cursor, depth⟩ :=
      between_of_quiet hquiet (fun _ => hfull) nofun rfl hleast hle houter.depth_eq.2
    unfold EvalM.enter
    rw [hsilent]
    exact houter

/-- Without any level left the depth is the greatest one. -/
theorem Watches.tooDeep (hquiet : Quiet watch least maxDepth alarm) :
    Watches alarm least maxDepth 0 (tooDeep : EvalM α)
      (between watch .before .behind EvalM.tooDeep) := by
  rintro context st rfl hleast hle hleft
  exact echoes_full hquiet hleast (Nat.le_antisymm hle hleft) rfl

end Levels

/-! ## Terms under a watch -/

section Terms

variable {watch : Watch} {alarm : Option EvalError} {least maxDepth : Nat}

theorem uniform_watches (levels : Nat) : Uniform (Watches alarm least maxDepth levels) where
  basic := .of_basic
  bind := .bind
  ofStoreM := fun _ => .ofStoreM _
  onTokens := .onTokens

theorem sequential_watches (levels : Nat) : Sequential (Watches alarm least maxDepth levels) :=
  (uniform_watches levels).sequential

theorem watches_skipWatched (hquiet : Quiet watch least maxDepth alarm) (levels : Nat) :
    Watches alarm least maxDepth levels (skipWithin levels) (skipWatched watch levels) := by
  induction levels with
  | zero => exact .tooDeep hquiet
  | succ levels ih =>
    exact ((sequential_watches levels).skipWith ih).enter hquiet (Nat.le_refl _)

theorem watches_evaluateWatched (hquiet : Quiet watch least maxDepth alarm) (levels : Nat)
    (env : Environment) :
    Watches alarm least maxDepth levels (evaluateWithin levels env)
      (evaluateWatched watch levels env) := by
  induction levels generalizing env with
  | zero => exact .tooDeep hquiet
  | succ levels ih =>
    have henter : ∀ {m m' : EvalM Value}, Watches alarm least maxDepth levels m m' →
        Watches alarm least maxDepth levels (nested m) (enter watch m') := fun h =>
      h.enter hquiet (Nat.le_succ _)
    have hskip := watches_skipWatched hquiet levels
    exact ((sequential_watches levels).termBy henter ih hskip env).enter hquiet (Nat.le_refl _)

end Terms

end EvalM

/-! ## Requests -/

/-- What an interpreter is asked to do with tokens. -/
inductive Request where
  | evaluate (env : Environment)
  | invoke (op : Keyword) (env : Environment)
  | skip

namespace Request

/-- What a request gives. -/
abbrev Answer : Request → Type
  | evaluate _ | invoke _ _ => Value
  | skip => Unit

def action : (request : Request) → EvalM request.Answer
  | evaluate env => BraceLang.evaluate env
  | invoke op env => BraceLang.invoke op env
  | skip => skipTerm

section Watched

variable (watch : Watch)

def evaluateWatched (env : Environment) : EvalM Value := do
  EvalM.evaluateWatched watch (← EvalM.levelsLeft) env

def skipWatched : EvalM Unit := do EvalM.skipWatched watch (← EvalM.levelsLeft)

/-- What is done on request, under a watch. -/
def watched : (request : Request) → EvalM request.Answer
  | evaluate env => evaluateWatched watch env
  | invoke op env => EvalM.applyKeyword (evaluateWatched watch env) (skipWatched watch) op
  | skip => skipWatched watch

end Watched

section Rules

variable {watch : Watch} {alarm : Option EvalError} {least maxDepth : Nat}

theorem watches_evaluateWatched (hquiet : EvalM.Quiet watch least maxDepth alarm)
    (env : Environment) :
    EvalM.Watches alarm least maxDepth maxDepth (BraceLang.evaluate env)
      (evaluateWatched watch env) := by
  intro context st hmax hleast hle _
  exact EvalM.watches_evaluateWatched hquiet (context.maxDepth - st.depth) env hmax hleast hle
    (by omega)

theorem watches_skipWatched (hquiet : EvalM.Quiet watch least maxDepth alarm) :
    EvalM.Watches alarm least maxDepth maxDepth skipTerm (skipWatched watch) := by
  intro context st hmax hleast hle _
  exact EvalM.watches_skipWatched hquiet (context.maxDepth - st.depth) hmax hleast hle (by omega)

theorem watches_watched (hquiet : EvalM.Quiet watch least maxDepth alarm) (request : Request) :
    EvalM.Watches alarm least maxDepth maxDepth request.action (request.watched watch) := by
  cases request with
  | evaluate env => exact watches_evaluateWatched hquiet env
  | invoke op env =>
    exact (EvalM.sequential_watches maxDepth).applyKeyword (watches_evaluateWatched hquiet env)
      (watches_skipWatched hquiet) op
  | skip => exact watches_skipWatched hquiet

theorem grows_action (request : Request) : request.action.Grows := by
  cases request with
  | evaluate env => exact grows_evaluate env
  | invoke op env => exact grows_invoke op env
  | skip => exact grows_skipTerm

end Rules

end Request

/-! ## The account -/

/-- Stop with a failure where a level is entered although the depth is the greatest one. -/
def Watch.full (maxDepth : Nat) (e : EvalError) : Watch
  | .before, st => if st.depth = maxDepth then some e else none
  | _, _ => none

theorem EvalM.quiet_full (least maxDepth : Nat) (e : EvalError) :
    Quiet (Watch.full maxDepth e) least maxDepth (some e) where
  full := fun _ hfull => if_pos hfull
  quiet := by
    intro place st _ _ hbefore
    cases place with
    | before => exact if_neg (hbefore rfl)
    | first => rfl
    | last => rfl
    | behind => rfl

/-- The depth behind a request is the one in front of it, and from there up to the greatest depth
in between, as a watch on other depths has nothing to say: one more at least at both ends of a
level. The failure that a level is too deep tells the greatest depth, and it is the outcome if and
only if a level is entered there, as then a watch on these places decides the outcome. -/
structure KeepsAccount (context : EvalContext) (st : EvalState) (request : Request) : Prop where
  behind : (stateOf (request.action context st)).depth = st.depth
  during : ∀ watch : Watch,
    (∀ place st', st.depth + place.level ≤ st'.depth → st'.depth ≤ context.maxDepth →
      watch place st' = none) →
    request.watched watch context st = request.action context st
  limit : ∀ limit st', request.action context st = .error (.tooDeep limit) st' →
    limit = context.maxDepth
  tooDeep : (∃ limit st', request.action context st = .error (.tooDeep limit) st') ↔
    ∀ e, ∃ st', request.watched (.full context.maxDepth e) context st = .error e st'

namespace KeepsAccount

variable {context : EvalContext} {st : EvalState}

theorem of_le (h : st.depth ≤ context.maxDepth) (request : Request) :
    KeepsAccount context st request where
  behind := (request.grows_action context st).2
  during := by
    intro watch hwatch
    have hquiet : EvalM.Quiet watch st.depth context.maxDepth none :=
      { full := fun st' hfull => hwatch .before st' (hfull ▸ h) (Nat.le_of_eq hfull)
        quiet := fun place st' hleast hle _ => hwatch place st' hleast hle }
    exact (request.watches_watched hquiet rfl (Nat.le_refl _) h (by omega)).eq_of_none
  limit := by
    intro limit st' hrun
    have hquiet := EvalM.quiet_full st.depth context.maxDepth (.tooDeep 0)
    have hechoes := request.watches_watched hquiet rfl (Nat.le_refl _) h (by omega)
    rw [hrun] at hechoes
    exact hechoes.limit_eq
  tooDeep := by
    have hechoes : ∀ e, EvalM.Echoes (some e) context.maxDepth st.depth (request.action context st)
        (request.watched (.full context.maxDepth e) context st) := fun e =>
      request.watches_watched (EvalM.quiet_full st.depth context.maxDepth e) rfl (Nat.le_refl _) h
        (by omega)
    constructor
    · rintro ⟨limit, st', hrun⟩ e
      have hechoes := hechoes e
      rw [hrun] at hechoes
      exact hechoes.eq_alarm
    · intro hwatched
      -- a failure that is no outcome but for the watch
      obtain ⟨st', hrun⟩ := hwatched (.tooDeep 0)
      have hechoes := hechoes (.tooDeep 0)
      rw [hrun] at hechoes
      exact hechoes.exists_tooDeep

end KeepsAccount

/-! ## Many requests -/

namespace Interpreter

/-- What happens to an interpreter that is not reset: requests, and changes to its memory. -/
inductive Serves : Interpreter → Interpreter → Prop
  | request (i : Interpreter) (tokens : ListRef) (request : Request) :
    Serves i (i.perform tokens request.action).interpreter
  | memory (i : Interpreter) (memory : Memory) : Serves i { i with memory }

variable {i i' : Interpreter}

theorem depth_perform {α : Type} {action : EvalM α} (h : action.Grows) (i : Interpreter)
    (tokens : ListRef) :
    (i.perform tokens action).interpreter.depth = i.depth ∧
      (i.perform tokens action).interpreter.config = i.config := by
  obtain ⟨config, ⟨store, texts⟩, depth⟩ := i
  have hdepth := (h ⟨texts, config.maxDepth⟩ ⟨store, tokens, depth⟩).2
  simp only [perform]
  generalize action ⟨texts, config.maxDepth⟩ ⟨store, tokens, depth⟩ = result at hdepth
  cases result with
  | ok a st => exact ⟨hdepth, rfl⟩
  | error e st => exact ⟨hdepth, rfl⟩

theorem Serves.depth_eq (h : i.Serves i') : i'.depth = i.depth ∧ i'.config = i.config := by
  cases h with
  | request tokens request => exact depth_perform request.grows_action i tokens
  | memory memory => exact ⟨rfl, rfl⟩

/-- Requests, failed ones among them, leave the levels that can be used as they were. -/
theorem depth_eq_of_serves (h : Relation.ReflTransGen Serves i i') :
    i'.depth = i.depth ∧ i'.config = i.config := by
  induction h with
  | refl => exact ⟨rfl, rfl⟩
  | tail _ hlast ih =>
    exact ⟨hlast.depth_eq.1.trans ih.1, hlast.depth_eq.2.trans ih.2⟩

end Interpreter

/-- The depth is accounted for from any state with a depth in bounds, and requests without a reset
in between never lose a level. -/
theorem depth_accounting :
    (∀ (context : EvalContext) (st : EvalState) (request : Request),
      st.depth ≤ context.maxDepth → KeepsAccount context st request) ∧
    ∀ i i' : Interpreter, Relation.ReflTransGen Interpreter.Serves i i' →
      i'.depth = i.depth ∧ i'.config = i.config :=
  ⟨fun _ _ request h => .of_le h request, fun _ _ => Interpreter.depth_eq_of_serves⟩

/-- The greatest depth that an action has told when it failed. -/
def limitOf? {α : Type} : EStateM.Result EvalError EvalState α → Option Nat
  | .error (.tooDeep limit) _ => some limit
  | _ => none

theorem exists_of_limitOf? {α : Type} {result : EStateM.Result EvalError EvalState α} {limit : Nat}
    (h : limitOf? result = some limit) : ∃ st, result = .error (.tooDeep limit) st := by
  unfold limitOf? at h
  split at h
  · rename_i st
    cases h
    exact ⟨st, rfl⟩
  · cases h

/-- With one level left a sum is entered but not its operands, and a request for it leaves that
level to the next one. -/
theorem depth_accounting_sum :
    let i : Interpreter :=
      { Interpreter.new { maxDepth := 2 } with depth := 1 }
    let stored := Store.ofList [.keyword .add, .number 1, .number 2] i.memory.store
    let tokens := (resultOf? stored).getD .empty
    let st : EvalState := ⟨stateOf stored, tokens, 1⟩
    let context : EvalContext := ⟨i.memory.texts, 2⟩
    let i' := { i with memory := { i.memory with store := st.store } }
    KeepsAccount context st (.evaluate {}) ∧
      (∃ st', evaluate {} context st = .error (.tooDeep 2) st') ∧
      ((i'.perform tokens (evaluate {})).interpreter.perform tokens skipTerm).interpreter.depth
        = 1 := by
  intro i stored tokens st context i'
  have hkeeps : KeepsAccount context st (.evaluate {}) :=
    depth_accounting.1 context st (.evaluate {}) (by decide)
  refine ⟨hkeeps, exists_of_limitOf? (by decide +kernel), ?_⟩
  · have hserves : Relation.ReflTransGen Interpreter.Serves i
        ((i'.perform tokens (evaluate {})).interpreter.perform tokens skipTerm).interpreter :=
      ((Relation.ReflTransGen.single (.memory i i'.memory)).tail
        (.request i' tokens (.evaluate {}))).tail (.request _ tokens .skip)
    exact (depth_accounting.2 _ _ hserves).1

end BraceLang
