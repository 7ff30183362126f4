import BraceLang.Proofs.Denotation.Interpreter
import BraceLang.Proofs.Interpreter.Independence
import BraceLang.Proofs.Store.Staleness

/-!
# Values of earlier evaluations

Every evaluation resets the store, so that the cells and slots of a value are gone with the next
one. What remains of the value is what does not stand in cells: numbers, the empty list and, as long
as the text table is not cleared, strings. Nothing is ever read in the place of what is gone.

* `Interpreter.generation_after`, `Interpreter.textGeneration_after`: resets are counted.
* `Interpreter.BecomesOf`: what becomes of a value when other texts are evaluated.
* `Interpreter.handles_never_alias`: so it is with every value, and no store follows a handle of an
  earlier generation.
-/

namespace BraceLang

/-! ## Writing single values -/

namespace Memory

variable (m : Memory)

theorem render_eq_valueWith (v : Value) :
    m.render v = String.ofList <$> m.valueWith (m.valueWithin (m.maxNesting - 1)) .full v := by
  have hnesting : m.maxNesting = (m.maxNesting - 1) + 1 := by
    unfold maxNesting
    omega
  unfold render
  rw [hnesting]
  rfl

theorem render_number (n : Float) :
    m.render (.number n) = .ok (String.ofList (displayNumber n).toList) := by
  rw [render_eq_valueWith]
  rfl

theorem render_nil : m.render (.list .empty) = .ok (String.ofList (bracketed (commas []))) := by
  rw [render_eq_valueWith]
  simp only [valueWith, eachItem, Store.items_empty]
  rfl

/-- How a string is written depends on its text alone. -/
theorem render_string (ref : TextRef) :
    m.render (.string ref) = ((m.texts.resolve ref).map fun text =>
      String.ofList (quoted text.toList)).mapError .ofStore := by
  rw [render_eq_valueWith]
  simp only [valueWith, textOf]
  cases m.texts.resolve ref <;> rfl

variable {m} {first : CellRef} (h : first.generation ≠ m.store.generation)
include h

theorem render_stale_list :
    m.render (.list (.chain first)) = .error (.invalidHandle (.staleCell first.index)) := by
  rw [render_eq_valueWith]
  simp only [valueWith, eachItem, Store.items_of_stale h]
  rfl

theorem render_stale_closure :
    m.render (.closure (.chain first)) = .error (.invalidHandle (.staleCell first.index)) := by
  rw [render_eq_valueWith]
  simp only [valueWith, closureWith, Closure.ofList, Store.toList_of_stale h]
  rfl

end Memory

namespace Interpreter

/-! ## Counting resets -/

theorem continues_afterCall (i : Interpreter) (call : Call) :
    i.reset.Continues (i.afterCall call) := by
  cases call with
  | evalText text => exact continues_evalText text i
  | run text => exact continues_run text i

/-- Every call starts a generation of cells. -/
theorem generation_after (i : Interpreter) (calls : List Call) :
    (i.after calls).memory.store.generation = i.memory.store.generation + calls.length := by
  induction calls generalizing i with
  | nil => rfl
  | cons call calls ih =>
    have hgrows := (i.continues_afterCall call).memory.store
    have hstep : (i.afterCall call).memory.store.generation = i.memory.store.generation + 1 :=
      (Store.extends_of_grows hgrows).generation
    have hrest : (i.after (call :: calls)).memory.store.generation =
        (i.afterCall call).memory.store.generation + calls.length := ih _
    rw [List.length_cons]
    omega

/-- A table that is cleared for every call starts a generation of texts each time. -/
theorem textGeneration_after {i : Interpreter} (h : i.config.resetTexts = true)
    (calls : List Call) :
    (i.after calls).memory.texts.generation = i.memory.texts.generation + calls.length := by
  induction calls generalizing i with
  | nil => rfl
  | cons call calls ih =>
    have hcontinues := i.continues_afterCall call
    have hconfig : (i.afterCall call).config.resetTexts = true := by
      rw [hcontinues.config]
      exact h
    have hstep := hcontinues.memory.textGeneration
    simp only [Interpreter.reset, h, if_true, TextTable.clear] at hstep
    have hrest : (i.after (call :: calls)).memory.texts.generation =
        (i.afterCall call).memory.texts.generation + calls.length := ih hconfig
    rw [List.length_cons]
    omega

/-- A table that is not cleared keeps its texts. -/
theorem names_after {i : Interpreter} (h : i.config.resetTexts = false) (calls : List Call)
    {ref : TextRef} {text : List Char} (hname : i.memory.texts.Names ref text) :
    (i.after calls).memory.texts.Names ref text := by
  induction calls generalizing i with
  | nil => exact hname
  | cons call calls ih =>
    have hcontinues := i.continues_afterCall call
    have hconfig : (i.afterCall call).config.resetTexts = false := by
      rw [hcontinues.config]
      exact h
    have hreset : i.reset.memory.texts.Names ref text := by
      simp only [Interpreter.reset, h, Bool.false_eq_true, if_false]
      exact hname
    exact ih hconfig (hcontinues.memory.texts hreset)

/-! ## Old values -/

/-- How a value of one interpreter is written by a later one. Numbers and the empty list are
written as before, and cells are stale. A string is written as before unless its table has been
cleared. Other values are not given. -/
def BecomesOf (i later : Interpreter) : Value → Prop
  | .number n => later.memory.render (.number n) = i.memory.render (.number n)
  | .list .empty => later.memory.render (.list .empty) = i.memory.render (.list .empty)
  | .list (.chain first) =>
    later.memory.render (.list (.chain first)) = .error (.invalidHandle (.staleCell first.index))
  | .closure (.chain first) =>
    later.memory.render (.closure (.chain first)) = .error (.invalidHandle (.staleCell first.index))
  | .string ref => ref.generation = i.memory.texts.generation ∧
    later.memory.render (.string ref) =
      if i.config.resetTexts then .error (.invalidHandle (.staleText i.memory.texts.generation))
      else i.memory.render (.string ref)
  | _ => False

/-- What becomes of a value that an evaluation gave when other texts have been evaluated. -/
theorem becomesOf_after {config : Config} {earlier : List Call} {text : String} {v : Value}
    {i : Interpreter} (h : evalText text ((new config).after earlier) = .ok v i)
    (call : Call) (calls : List Call) :
    (∃ written, i.memory.render v = .ok written) ∧
      BecomesOf i (i.after (call :: calls)) v := by
  have hready := (ready_new config).after earlier
  have hagrees := agrees_evalText hready text
  rw [h] at hagrees
  generalize Plain.evalText config.lexicon text config.limits {} = result at hagrees
  cases hagrees with
  | @ok _ d _ core hfits hv =>
    refine ⟨⟨_, Memory.render_eq hfits.memory.layout hfits.memory.slots hv⟩, ?_⟩
    have hgeneration := i.generation_after (call :: calls)
    rw [List.length_cons] at hgeneration
    have hstale : ∀ {first : CellRef} {c : Cell}, i.memory.store.cell first = .ok c →
        first.generation ≠ (i.after (call :: calls)).memory.store.generation := by
      intro first c hcell
      have hsame := Store.generation_of_cell hcell
      omega
    cases hv.cases with
    | number =>
      show (i.after (call :: calls)).memory.render _ = i.memory.render _
      rw [Memory.render_number, Memory.render_number]
    | @string ref chars hname =>
      have hsame := (TextTable.resolve_eq_ok_iff.mp hname).1
      refine ⟨hsame, ?_⟩
      cases hreset : i.config.resetTexts with
      | true =>
        have htexts := textGeneration_after hreset (call :: calls)
        rw [List.length_cons] at htexts
        have hne : ref.generation ≠ (i.after (call :: calls)).memory.texts.generation := by omega
        have hresolve : (i.after (call :: calls)).memory.texts.resolve ref =
            .error (.staleText i.memory.texts.generation) := by
          unfold TextTable.resolve
          rw [if_neg hne, hsame]
        rw [Memory.render_string, hresolve, if_pos rfl]
        rfl
      | false =>
        have hkept := names_after hreset (call :: calls) hname
        unfold TextTable.Names at hname hkept
        rw [Memory.render_string, Memory.render_string, hname, hkept]
        rfl
    | list hchain hitems =>
      cases hchain with
      | nil =>
        show (i.after (call :: calls)).memory.render _ = i.memory.render _
        rw [Memory.render_nil, Memory.render_nil]
      | cons hcell _ => exact Memory.render_stale_list (hstale hcell)
    | closure hparts _ _ _ _ =>
      cases hparts with
      | cons hcell _ => exact Memory.render_stale_closure (hstale hcell)

/-- No handle is followed to anything else than what it was given out for: a value of an earlier
evaluation is written as before or not at all, no interpreter follows the handles of its earlier
evaluations, and no store follows those that it gave out before a reset. -/
theorem handles_never_alias :
    (∀ (config : Config) (earlier : List Call) (text : String) (v : Value) (i : Interpreter),
      evalText text ((new config).after earlier) = .ok v i → ∀ calls ≠ [],
        (∃ written, i.memory.render v = .ok written) ∧ BecomesOf i (i.after calls) v) ∧
    (∀ (i : Interpreter), ∀ calls ≠ [], ∀ handle : Handle,
      handle.UpTo i.memory.store.generation → handle.RefusedBy (i.after calls).memory.store) ∧
    ∀ (s : Store) (earlier later : List StoreOp),
      let before := replay StoreOp.onStore earlier s
      let behind := (replay StoreOp.onStore (.reset :: later) before.2).2
      (∀ handle, .ok handle ∈ before.1 → handle.UpTo before.2.generation) ∧
        ∀ handle : Handle, handle.UpTo before.2.generation → handle.RefusedBy behind := by
  refine ⟨?_, ?_, fun s earlier later => s.refused_after_reset earlier later⟩
  · intro config earlier text v i h calls hcalls
    cases calls with
    | nil => exact absurd rfl hcalls
    | cons call calls => exact becomesOf_after h call calls
  · intro i calls hcalls handle hupTo
    have hgeneration := i.generation_after calls
    have hpos := List.length_pos_iff.mpr hcalls
    exact Store.refusedBy_of_upTo hupTo (by omega)

/-- A string and a closure, after another text has been evaluated in their place. -/
theorem handles_never_alias_string_and_closure :
    let config : Config := { resetTexts := true }
    (∃ v i, evalText "\"a\"" ((new config).after []) = .ok v i ∧
      BecomesOf i (i.after [.run "\"b\""]) v) ∧
    ∃ v i, evalText "\x7bx: x\x7d" ((new config).after [.run "("]) = .ok v i ∧
      BecomesOf i (i.after [.evalText "\x7by: y\x7d", .run "NIL"]) v := by
  intro config
  have hstring : succeeded (evalText "\"a\"" ((new config).after [])) = true := by decide +kernel
  have hclosure : succeeded (evalText "\x7bx: x\x7d" ((new config).after [.run "("])) = true := by
    decide +kernel
  obtain ⟨v, i, hv⟩ := exists_of_succeeded hstring
  obtain ⟨w, j, hw⟩ := exists_of_succeeded hclosure
  refine ⟨⟨v, i, hv, ?_⟩, ⟨w, j, hw, ?_⟩⟩
  · exact (handles_never_alias.1 config [] _ v i hv [.run "\"b\""] (by simp)).2
  · exact (handles_never_alias.1 config [.run "("] _ w j hw
      [.evalText "\x7by: y\x7d", .run "NIL"] (by simp)).2

end Interpreter

end BraceLang
