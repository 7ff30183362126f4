import BraceLang.Proofs.Plain.Cells
import BraceLang.Proofs.Plain.Sealing

/-!
# Branches that are not taken

Of a conditional term one branch is evaluated and the other one is skipped. Two conditional terms
that differ in the branch that is skipped are evaluated side by side, on memories that may differ in
the cells in use.

* `Plain.Evaluates`, `Plain.Skips`: what the operands of a conditional term do on their own.
* `Plain.alike_condition_of_ne_zero`, `Plain.alike_condition_of_zero`: the two terms.
-/

namespace BraceLang.Plain

open BraceLang.CoreM

variable {α γ : Type}

/-- Two actions have the same result, of which something holds, and each of them leaves tokens of
its own. -/
structure Leaving (P : α → Prop) (behind behind' : Tokens) (p p' : α × Tokens) : Prop where
  same : p'.1 = p.1
  holds : P p.1
  left : p.2 = behind
  right : p'.2 = behind'

section Actions

variable {limits limits' : Limits} {core core' : Core Tokens} {behind behind' : Tokens}
  {P : α → Prop}

theorem Leaving.bind {R : γ × Tokens → γ × Tokens → Prop} {action action' : TokenM α}
    {f f' : α → TokenM γ} {tokens tokens' : Tokens}
    (h : Alike (Leaving P behind behind') (action tokens limits core)
      (action' tokens' limits' core'))
    (hf : ∀ ⦃a core₁ core₁'⦄, P a → core₁'.slots = core₁.slots →
      Alike R (f a behind limits core₁) (f' a behind' limits' core₁')) :
    Alike R ((action >>= f) tokens limits core) ((action' >>= f') tokens' limits' core') := by
  refine Alike.bind h ?_
  rintro ⟨a, _⟩ ⟨_, _⟩ core₁ core₁' ⟨rfl, hP, rfl, rfl⟩ hslots
  exact hf hP hslots

/-- An outcome that is like a success is that success, or a cell is refused. -/
theorem of_alike_ok {p : α} {result : EStateM.Result Fault (Core Tokens) α}
    (h : Alike (· = ·) (.ok p core) result) :
    (∃ core', result = .ok p core' ∧ core'.slots = core.slots) ∨ Refused result := by
  generalize hfirst : (EStateM.Result.ok p core : EStateM.Result Fault (Core Tokens) α) = first at h
  cases h with
  | ok hR hslots =>
    cases hfirst
    cases hR
    exact Or.inl ⟨_, rfl, hslots⟩
  | error fault => cases hfirst
  | left hrefused =>
    obtain ⟨fault, core', herror, -⟩ := hrefused
    rw [← hfirst] at herror
    cases herror
  | right hrefused => exact Or.inr hrefused

/-- What is read where a term is due has the same outcome in front of other tokens, with other cells
in use. -/
theorem alike_of_once {action : TokenM α} {taken : Tokens} (honce : Once action)
    (hcells : Related UpToCells action action) (htaken : Fulfils [.term] taken)
    (hlimits : limits.SameDepth limits') (hslots : core'.slots = core.slots)
    (behind behind' : Tokens) :
    Alike (Leaving (fun _ => True) behind behind') (action (taken ++ behind) limits core)
      (action (taken ++ behind') limits' core') := by
  have hother := hcells (taken ++ behind') hlimits hslots
  rcases honce .term [] htaken limits core with
    ⟨a, rest, core₁, hrest, hok⟩ | ⟨fault, core₁, herror⟩
  · obtain rfl : rest = [] := by
      cases rest with
      | nil => rfl
      | cons token rest =>
        obtain ⟨dues, hdue, -⟩ := fulfils_cons_iff.mp hrest
        cases hdue
    rw [hok] at hother
    rw [hok]
    rcases of_alike_ok hother with ⟨core₁', hresult, hslots₁⟩ | hrefused
    · rw [hresult]
      exact .ok ⟨rfl, trivial, rfl, rfl⟩ hslots₁
    · exact .right hrefused
  · rw [herror] at hother ⊢
    generalize action (taken ++ behind') limits' core' = result at hother
    cases hother with
    | error => exact .error fault
    | left hrefused =>
      obtain ⟨fault', core₂, heq, hfatal⟩ := hrefused
      cases heq
      exact .left ⟨fault, core₁, rfl, hfatal⟩
    | right hrefused => exact .right hrefused

end Actions

/-! ## Operands on their own -/

/-- In a state with these slots, and at this depth, evaluating the tokens takes all of them and
gives this value. -/
def Evaluates (scope : Scope Tokens) (limits : Limits) (slots : Slots Tokens) (tokens : Tokens)
    (value : Datum Tokens) : Prop :=
  ∃ limits₀ used rest core, limits₀.SameDepth limits ∧
    evaluate scope (tokens ++ rest) limits₀ ⟨used, slots⟩ = .ok (value, rest) core

/-- At this depth, skipping a term takes all of the tokens. -/
def Skips (limits : Limits) (tokens : Tokens) : Prop :=
  ∃ limits₀ core rest core', limits₀.SameDepth limits ∧
    skipWithin limits.levels (tokens ++ rest) limits₀ core = .ok ((), rest) core'

section Operands

variable {scope : Scope Tokens} {limits limits' : Limits} {slots : Slots Tokens}
  {tokens : Tokens} {value : Datum Tokens}

theorem levels_eq (h : limits.SameDepth limits') : limits'.levels = limits.levels := by
  unfold Limits.levels
  rw [h.maxDepth, h.depth]

/-- Where no cell is refused, evaluating the tokens gives the value in front of any others. -/
theorem Evaluates.exists_run (h : Evaluates scope limits slots tokens value) (used : Nat) :
    ∃ core₁, ∀ behind, evaluateWithin limits.levels scope (tokens ++ behind)
      { limits with refusal := fun _ => none } ⟨used, slots⟩ = .ok (value, behind) core₁ := by
  obtain ⟨limits₀, used₀, rest, core, hlimits, hrun⟩ := h
  obtain ⟨taken, cells, htokens, -, hcarry⟩ := evaluate_append hrun
  obtain rfl := List.append_cancel_right htokens
  refine ⟨⟨used + cells, core.slots⟩, fun behind => ?_⟩
  exact @hcarry behind { limits with refusal := fun _ => none } used
    (Nat.le_of_eq (levels_eq hlimits).symm) fun _ _ => rfl

variable {core core' : Core Tokens}

/-- Evaluating the tokens gives the value in front of any others, unless a cell is refused. -/
theorem Evaluates.alike (h : Evaluates scope limits slots tokens value)
    (hlimits : limits.SameDepth limits') (hslots : core.slots = slots)
    (hslots' : core'.slots = slots) (behind behind' : Tokens) :
    Alike (Leaving (· = value) behind behind')
      (evaluateWithin limits.levels scope (tokens ++ behind) limits core)
      (evaluateWithin limits.levels scope (tokens ++ behind') limits' core') := by
  obtain ⟨core₁, hrun⟩ := h.exists_run 0
  have hcells := upToCells_evaluateWithin limits.levels scope
  have hopen : Limits.SameDepth { limits with refusal := fun _ => none } limits := ⟨rfl, rfl⟩
  have hopen' : Limits.SameDepth { limits with refusal := fun _ => none } limits' :=
    ⟨hlimits.maxDepth, hlimits.depth⟩
  have hfirst := @hcells (tokens ++ behind) _ _ ⟨0, slots⟩ core hopen hslots
  have hsecond := @hcells (tokens ++ behind') _ _ ⟨0, slots⟩ core' hopen' hslots'
  rw [hrun] at hfirst hsecond
  rcases of_alike_ok hfirst with ⟨core₂, hresult, hslots₂⟩ | hrefused
  · rcases of_alike_ok hsecond with ⟨core₂', hresult', hslots₂'⟩ | hrefused
    · rw [hresult, hresult']
      exact .ok ⟨rfl, rfl, rfl, rfl⟩ (hslots₂'.trans hslots₂.symm)
    · exact .right hrefused
  · exact .left hrefused

theorem Skips.skipsAll (h : Skips limits tokens) :
    Fulfils [.term] tokens ∧ ∀ ⦃limits'⦄, limits.SameDepth limits' → ∀ behind core,
      skipWithin limits.levels (tokens ++ behind) limits' core = .ok ((), behind) core := by
  obtain ⟨limits₀, core₀, rest, core₁, hlimits, hrun⟩ := h
  obtain ⟨-, taken, htokens, hends, hagain⟩ := SkipsAll.skipWithin limits.levels hrun
  obtain rfl := List.append_cancel_right htokens
  refine ⟨hends.fulfils, fun limits' hlimits' behind core => hagain ?_ behind core⟩
  exact Nat.le_of_eq ((levels_eq hlimits').trans (levels_eq hlimits)).symm

/-- Tokens that are skipped as a term can be evaluated, with an outcome that the tokens behind them
have no part in. -/
theorem Skips.alike_evaluateWithin (h : Skips limits tokens)
    (hlimits : limits.SameDepth limits') (hslots : core'.slots = core.slots) (levels : Nat)
    (scope : Scope Tokens) (behind behind' : Tokens) :
    Alike (Leaving (fun _ => True) behind behind')
      (evaluateWithin levels scope (tokens ++ behind) limits core)
      (evaluateWithin levels scope (tokens ++ behind') limits' core') :=
  alike_of_once (once_evaluateWithin levels scope) (upToCells_evaluateWithin levels scope)
    h.skipsAll.1 hlimits hslots behind behind'

/-- Other tokens that are skipped as a term make no difference. -/
theorem Skips.alike_skipWithin {tokens' : Tokens} (h : Skips limits tokens)
    (h' : Skips limits tokens') (hlimits : limits.SameDepth limits')
    (hslots : core'.slots = core.slots) (behind behind' : Tokens) :
    Alike (Leaving (fun _ => True) behind behind')
      (skipWithin limits.levels (tokens ++ behind) limits core)
      (skipWithin limits.levels (tokens' ++ behind') limits' core') := by
  rw [h.skipsAll.2 ⟨rfl, rfl⟩ behind core, h'.skipsAll.2 hlimits behind' core']
  exact .ok ⟨rfl, trivial, rfl, rfl⟩ hslots

end Operands

/-! ## Conditional terms -/

section Conditions

variable {scope : Scope Tokens} {limits limits' : Limits} {core core' : Core Tokens} {n : Float}
  {c a b x : Tokens} (hc : Evaluates scope limits core.slots c (.number n))
  (hlimits : limits.SameDepth limits') (hslots : core'.slots = core.slots)
include hc hlimits hslots

theorem alike_numberOperand (behind behind' : Tokens) :
    Alike (Leaving (· = n) behind behind')
      (numberOperand (evaluateWithin limits.levels scope) .cond (c ++ behind) limits core)
      (numberOperand (evaluateWithin limits.levels scope) .cond (c ++ behind') limits' core') := by
  refine Leaving.bind (hc.alike hlimits rfl hslots behind behind') ?_
  rintro _ core₁ core₁' rfl hslots₁
  exact .ok ⟨rfl, rfl, rfl, rfl⟩ hslots₁

variable (ha : Skips limits a) (hb : Skips limits b) (hx : Skips limits x)
include ha hb hx

/-- The third operand is not evaluated if the first one is not zero. -/
theorem alike_condition_of_ne_zero (hn : (n == 0) = false) (rest : Tokens) :
    Alike (Leaving (fun _ => True) rest rest)
      (condition (evaluateWithin limits.levels scope) (skipWithin limits.levels)
        (c ++ (a ++ (b ++ rest))) limits core)
      (condition (evaluateWithin limits.levels scope) (skipWithin limits.levels)
        (c ++ (a ++ (x ++ rest))) limits' core') := by
  refine Leaving.bind (alike_numberOperand hc hlimits hslots _ _) ?_
  rintro _ core₁ core₁' rfl hslots₁
  simp only [hn, Bool.false_eq_true, if_false]
  have hvalue := ha.alike_evaluateWithin hlimits hslots₁ limits.levels scope (b ++ rest) (x ++ rest)
  refine Leaving.bind hvalue fun value core₂ core₂' _ hslots₂ => ?_
  refine Leaving.bind (hb.alike_skipWithin hx hlimits hslots₂ rest rest) ?_
  intro _ core₃ core₃' _ hslots₃
  exact .ok ⟨rfl, trivial, rfl, rfl⟩ hslots₃

/-- The second operand is not evaluated if the first one is zero. -/
theorem alike_condition_of_zero (hn : (n == 0) = true) (rest : Tokens) :
    Alike (Leaving (fun _ => True) rest rest)
      (condition (evaluateWithin limits.levels scope) (skipWithin limits.levels)
        (c ++ (a ++ (b ++ rest))) limits core)
      (condition (evaluateWithin limits.levels scope) (skipWithin limits.levels)
        (c ++ (x ++ (b ++ rest))) limits' core') := by
  refine Leaving.bind (alike_numberOperand hc hlimits hslots _ _) ?_
  rintro _ core₁ core₁' rfl hslots₁
  simp only [hn, if_true]
  refine Leaving.bind (ha.alike_skipWithin hx hlimits hslots₁ (b ++ rest) (b ++ rest)) ?_
  intro _ core₂ core₂' _ hslots₂
  exact hb.alike_evaluateWithin hlimits hslots₂ limits.levels scope rest rest

end Conditions

/-- A conditional term is evaluated one level deeper than it stands. -/
theorem alike_evaluate_cond {scope : Scope Tokens} {limits limits' : Limits}
    {core core' : Core Tokens} {tokens tokens' : Tokens} {R : Datum Tokens × Tokens →
      Datum Tokens × Tokens → Prop} (hlimits : limits.SameDepth limits')
    (h : Alike R
      (condition (evaluateWithin limits.deeper.levels scope) (skipWithin limits.deeper.levels)
        tokens limits.deeper core)
      (condition (evaluateWithin limits.deeper.levels scope) (skipWithin limits.deeper.levels)
        tokens' limits'.deeper core')) :
    Alike R (evaluate scope (.keyword .cond :: tokens) limits core)
      (evaluate scope (.keyword .cond :: tokens') limits' core') := by
  have hterm : ∀ (tokens : Tokens) (limits : Limits) (core : Core Tokens),
      evaluate scope (.keyword .cond :: tokens) limits core =
        if limits.maxDepth ≤ limits.depth then .error ⟨.tooDeep limits.maxDepth, rfl⟩ core
        else condition (evaluateWithin limits.deeper.levels scope)
          (skipWithin limits.deeper.levels) tokens limits.deeper core := by
    intro tokens limits core
    have hlevels : evaluate scope (.keyword .cond :: tokens) limits core =
        evaluateWithin limits.levels scope (.keyword .cond :: tokens) limits core := rfl
    rw [hlevels]
    by_cases hdeep : limits.maxDepth ≤ limits.depth
    · rw [if_pos hdeep, show limits.levels = 0 from Nat.sub_eq_zero_of_le hdeep]
      rfl
    · have hsucc : limits.levels = limits.deeper.levels + 1 := by
        unfold Limits.levels Limits.deeper
        dsimp only
        omega
      rw [if_neg hdeep, hsucc]
      have hnested : ∀ action : TokenM (Datum Tokens), ReadM.nested action
          (.keyword .cond :: tokens) limits core =
            action (.keyword .cond :: tokens) limits.deeper core := by
        intro action
        unfold ReadM.nested CoreM.nested
        rw [if_neg hdeep]
      exact hnested _
  rw [hterm, hterm, hlimits.maxDepth, hlimits.depth, levels_eq hlimits.deeper]
  by_cases hdeep : limits.maxDepth ≤ limits.depth
  · rw [if_pos hdeep, if_pos hdeep]
    exact .error _
  · rwa [if_neg hdeep, if_neg hdeep]

end BraceLang.Plain
