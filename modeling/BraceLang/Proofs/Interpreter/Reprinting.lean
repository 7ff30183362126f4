import BraceLang.Proofs.Interpreter.Limits
import BraceLang.Proofs.Plain.Literals

/-!
# Running what a run has written

When the value of a text is a number, a string or a closure that was made in the empty environment,
what a run writes is a text with the same value. It is run within the limits of the first run, as it
takes one level of depth and no more cells than that one did.

* `Memory.IsLiteral`: such a value.
* `Interpreter.run_run`: a run of what was written writes it again.
-/

namespace BraceLang

/-- A number, a string or a closure that was made in the empty environment. -/
inductive Memory.IsLiteral (m : Memory) : Value → Prop
  | number {x : Float} : IsLiteral m (.number x)
  | string {ref : TextRef} : IsLiteral m (.string ref)
  | closure {parts : ListRef} {c : Closure} : Closure.ofList m.store parts = .ok c →
    c.env = .empty → IsLiteral m (.closure parts)

theorem Memory.IsLiteral.datum {m : Memory} (hs : m.store.Layout) {v : Value} {d : Datum Tokens}
    (h : m.IsLiteral v) (hv : m.Denotes v d) : d.IsLiteral := by
  cases h with
  | number =>
    cases hv with
    | number => exact .number
  | string =>
    cases hv with
    | string _ => exact .string
  | closure hparts henv =>
    cases hv with
    | closure hchain _ _ _ hscope =>
      rw [Memory.closureOfList_eq hs hchain] at hparts
      cases hparts
      subst henv
      obtain ⟨values, hvalues, hframes⟩ := hscope
      cases hvalues
      cases hframes
      exact .closure

namespace Interpreter

/-- The cells that an evaluation has taken are not refused to another one. -/
theorem room_of_evalText {config : Config} {i i' : Interpreter} {text : String} {v : Value}
    (h : Ready config i) (hvalue : evalText text i = .ok v i') :
    config.limits.Room 0 i'.memory.store.used := by
  have hready : Ready config (stateOf (evalText text i)) := h.evalText text
  rw [hvalue] at hready
  intro cells hcells
  rw [Nat.zero_add]
  have hreserves : config.reserves (max config.chunkSize 1) := by
    by_contra hr
    rw [← hready.chunkSize, ← hready.reserves] at hr
    have hzero : i'.memory.store.used = 0 := (hready.layout.used_eq_zero hr).2
    omega
  have hleft : ∀ most, (∀ used, Store.limitReached? config.maxCells used = none → used < most) →
      cells < most := by
    intro most hmost
    have hle := h.used_le text hmost
    rw [hvalue] at hle
    exact Nat.lt_of_lt_of_le hcells hle
  refine Store.refusal?_eq_none_iff.mpr ⟨fun limit hlimit => ?_, ?_, hreserves⟩
  · exact hleft limit fun _ hfree => (Store.limitReached?_eq_none_iff.mp hfree).1 limit hlimit
  · exact hleft _ fun _ hfree => (Store.limitReached?_eq_none_iff.mp hfree).2

/-- What a run writes for a number, a string or a closure without environment is run with the same
result, within the same limits and whatever has been evaluated before. -/
theorem run_run (config : Config) (hdelimiters : config.delimiters = ({} : Config).delimiters)
    (earlier earlier' : List Call) {text printed : String} {v : Value} {i i' : Interpreter}
    (hvalue : evalText text ((new config).after earlier) = .ok v i)
    (hliteral : i.memory.IsLiteral v)
    (hrun : run text ((new config).after earlier) = .ok printed i') :
    ∃ j, run printed ((new config).after earlier') = .ok printed j := by
  have hlx : config.lexicon.Standard := ⟨by rw [← hdelimiters]; rfl, rfl⟩
  have hready := (ready_new config).after earlier
  have hready' := (ready_new config).after earlier'
  have hroom := room_of_evalText hready hvalue
  have hagrees := agrees_evalText hready text
  have hagrees' := agrees_run hready text
  rw [hvalue] at hagrees
  rw [hrun] at hagrees'
  generalize hplain : Plain.evalText config.lexicon text config.limits {} = result at hagrees
  cases hagrees with
  | @ok _ d _ core hfits hv =>
    have hrender : Plain.run config.lexicon text config.limits {} =
        .ok (String.ofList (d.full core.slots)) core := by
      unfold Plain.run
      rw [reader_bind_of_ok hplain]
      rfl
    rw [hrender] at hagrees'
    cases hagrees' with
    | ok _ hprinted =>
      subst hprinted
      rw [← hfits.memory.used] at hroom
      have hd := hliteral.datum hfits.memory.layout hv
      obtain ⟨core', hagain⟩ := Plain.evalText_full hlx hplain hd hroom
      have hrerun : Plain.run config.lexicon (String.ofList (d.full core.slots)) config.limits {} =
          .ok (String.ofList (d.full core.slots)) core' := by
        unfold Plain.run
        rw [reader_bind_of_ok hagain, Plain.full_of_isLiteral hd core.slots core'.slots]
        rfl
      have hagrees := agrees_run hready' (String.ofList (d.full core.slots))
      rw [hrerun] at hagrees
      generalize run _ _ = result at hagrees ⊢
      cases hagrees with
      | ok _ hsame =>
        subst hsame
        exact ⟨_, rfl⟩

/-- Whether an evaluation gives a closure that was made in the empty environment. -/
def isTopClosure : EStateM.Result EvalError Interpreter Value → Bool
  | .ok (.closure parts) i =>
    match Closure.ofList i.memory.store parts with
    | .ok c => decide (c.env = .empty)
    | .error _ => false
  | _ => false

theorem isLiteral_of_isTopClosure {result : EStateM.Result EvalError Interpreter Value}
    (h : isTopClosure result = true) :
    ∃ v i, result = .ok v i ∧ i.memory.IsLiteral v := by
  unfold isTopClosure at h
  split at h
  · split at h
    · rename_i hparts
      exact ⟨_, _, rfl, .closure hparts (of_decide_eq_true h)⟩
    · cases h
  · cases h

/-- A closure whose body is not a term. -/
theorem run_run_closure :
    ∃ v i i' j, evalText "\x7bx !y: ) ( \x7b'a'\x7d 1e3 , x\x7d" (new {}) = .ok v i ∧
      i.memory.IsLiteral v ∧
      run "\x7bx !y: ) ( \x7b'a'\x7d 1e3 , x\x7d" (new {}) =
        .ok "\x7bx !y: ) (\x7b\"a\"\x7d 1000, x\x7d" i' ∧
      run "\x7bx !y: ) (\x7b\"a\"\x7d 1000, x\x7d" (new {}) =
        .ok "\x7bx !y: ) (\x7b\"a\"\x7d 1000, x\x7d" j := by
  have hrun := eq_ok_of_resultOf? (by decide +kernel :
    resultOf? (run "\x7bx !y: ) ( \x7b'a'\x7d 1e3 , x\x7d" (new {})) =
      some "\x7bx !y: ) (\x7b\"a\"\x7d 1000, x\x7d")
  obtain ⟨v, i, hvalue, hliteral⟩ := isLiteral_of_isTopClosure (by decide +kernel :
    isTopClosure (evalText "\x7bx !y: ) ( \x7b'a'\x7d 1e3 , x\x7d" (new {})) = true)
  obtain ⟨j, hagain⟩ := run_run {} rfl [] [] hvalue hliteral hrun
  exact ⟨v, i, _, j, hvalue, hliteral, hrun, hagain⟩

end Interpreter

end BraceLang
