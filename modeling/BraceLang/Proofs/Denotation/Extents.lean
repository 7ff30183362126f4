import BraceLang.Proofs.Denotation.Terms
import BraceLang.Proofs.Evaluation.Determinacy
import BraceLang.Proofs.Plain.Locality

/-!
# The extent of a term

Which tokens an evaluation takes is decided by the tokens alone. Evaluations of the same tokens in
other environments, memories and contexts may call other functions and take other branches, but if
they succeed they stop at the same place, and what stands behind it is not looked at.

* `Passes`: the cursor of an evaluation moves over some tokens and comes to those behind them.
* `Stands`: what the parts of a memory that an evaluation depends on stand for.
* `evaluate_extent_determined`: two evaluations of the same tokens.
-/

namespace BraceLang

open Plain

/-- From one state to the other the cursor passes these tokens, and the others follow. -/
def Passes (context : EvalContext) (st st' : EvalState) (taken rest : Tokens) : Prop :=
  ∃ values, st.store.Reads st.cursor values st'.cursor ∧
    List.Forall₂ context.texts.DenotesToken values taken ∧
    (st'.memory context).DenotesTokens st'.cursor rest

/-- The tokens, the environment and the slots of an evaluation stand for these tokens, this scope
and these values. -/
structure Stands (context : EvalContext) (st : EvalState) (env : Environment) (tokens : Tokens)
    (scope : Scope Tokens) (slots : Slots Tokens) : Prop where
  layout : st.store.Layout
  distinct : context.texts.Distinct
  tokens : (st.memory context).DenotesTokens st.cursor tokens
  env : (st.memory context).DenotesEnv env scope
  slots : (st.memory context).DenotesSlots slots

section Extent

variable {context : EvalContext} {st st' : EvalState} {env : Environment} {v : Value}
  {tokens : Tokens} {scope : Scope Tokens} {slots : Slots Tokens}

theorem evaluate_passes (hst : st.store.Layout)
    (htokens : (st.memory context).DenotesTokens st.cursor tokens)
    (h : evaluate env context st = .ok v st') :
    ∃ taken rest, IsTerm taken ∧ tokens = taken ++ rest ∧ Passes context st st' taken rest := by
  obtain ⟨values, taken, rest, hterm, hsplit, hreads, hvalues, hrest⟩ :=
    evaluate_takes_term hst htokens h
  exact ⟨taken, rest, hterm, hsplit, values, hreads, hvalues, hrest⟩

/-- The tokens that a list stands for are as many as its entries. -/
theorem Memory.DenotesTokens.length_eq {m : Memory} {l : ListRef} {tokens' : Tokens}
    (h : m.DenotesTokens l tokens) (h' : m.DenotesTokens l tokens') :
    tokens.length = tokens'.length := by
  obtain ⟨values, hchain, hvalues⟩ := h
  obtain ⟨values', hchain', hvalues'⟩ := h'
  rw [← hvalues.length_eq, ← hvalues'.length_eq, hchain.unique hchain']

/-- The evaluator and the evaluation on data have outcomes that belong together. -/
theorem Stands.agrees (h : Stands context st env tokens scope slots) :
    Agrees context ⟨context.maxDepth, st.depth, st.store.refusalAt?⟩
      st Memory.Denotes (evaluate env context st)
      (Plain.evaluate scope tokens
        ⟨context.maxDepth, st.depth, st.store.refusalAt?⟩
        ⟨st.store.used, slots⟩) :=
  simulates_evaluate ⟨h.layout, h.distinct, rfl, rfl, rfl, rfl, h.slots, h.tokens⟩ h.env

/-- What an evaluation takes is decided by the tokens: whenever an evaluation of the same tokens
succeeds, it stops at the same place, whatever stands behind it. In the same scope, with as many
levels and cells, it does succeed, with a value of the same text. -/
theorem evaluate_extent_determined (hst : st.store.Layout)
    (htokens : (st.memory context).DenotesTokens st.cursor tokens)
    (h : evaluate env context st = .ok v st') :
    ∃ taken rest, taken ≠ [] ∧ tokens = taken ++ rest ∧ Passes context st st' taken rest ∧
      (∀ {context₂ : EvalContext} {st₂ st₂' : EvalState} {env₂ : Environment} {v₂ : Value}
        {rest₂ : Tokens}, st₂.store.Layout →
        (st₂.memory context₂).DenotesTokens st₂.cursor (taken ++ rest₂) →
        evaluate env₂ context₂ st₂ = .ok v₂ st₂' → Passes context₂ st₂ st₂' taken rest₂) ∧
      ∀ {scope : Scope Tokens} {slots : Slots Tokens} {context₂ : EvalContext} {st₂ : EvalState}
        {env₂ : Environment} {rest₂ : Tokens}, Stands context st env tokens scope slots →
        Stands context₂ st₂ env₂ (taken ++ rest₂) scope slots →
        context.maxDepth - st.depth ≤ context₂.maxDepth - st₂.depth →
        (∀ i, i < st'.store.used - st.store.used →
          st₂.store.refusalAt? (st₂.store.used + i) = none) →
        ∃ v₂ st₂', evaluate env₂ context₂ st₂ = .ok v₂ st₂' ∧
          Passes context₂ st₂ st₂' taken rest₂ ∧
          (st₂'.memory context₂).render v₂ = (st'.memory context).render v := by
  obtain ⟨taken, rest, hterm, rfl, hpasses⟩ := evaluate_passes hst htokens h
  have hsame : ∀ {context₂ : EvalContext} {st₂ st₂' : EvalState} {env₂ : Environment} {v₂ : Value}
      {rest₂ : Tokens}, st₂.store.Layout →
      (st₂.memory context₂).DenotesTokens st₂.cursor (taken ++ rest₂) →
      evaluate env₂ context₂ st₂ = .ok v₂ st₂' → Passes context₂ st₂ st₂' taken rest₂ := by
    intro context₂ st₂ st₂' env₂ v₂ rest₂ hst₂ htokens₂ h₂
    obtain ⟨taken₂, rest₂', hterm₂, hsplit₂, hpasses₂⟩ := evaluate_passes hst₂ htokens₂ h₂
    obtain rfl := hterm.unique hterm₂ hsplit₂
    rwa [List.append_cancel_left hsplit₂]
  refine ⟨taken, rest, hterm.ne_nil, rfl, hpasses, hsame, ?_⟩
  intro scope slots context₂ st₂ env₂ rest₂ hstands hstands₂ hlevels hroom
  obtain ⟨-, -, -, hrest⟩ := hpasses
  have hagrees := hstands.agrees
  rw [h] at hagrees
  generalize hplain : Plain.evaluate scope (taken ++ rest) _ _ = result at hagrees
  cases hagrees with
  | @ok _ d _ left core hmodels _ hd =>
    obtain ⟨taken', cells, hsplit, hused, hcarry⟩ := evaluate_append hplain
    -- the two evaluations leave lists of the same length
    obtain ⟨rfl, rfl⟩ := List.append_inj' hsplit (hrest.length_eq hmodels.cursor)
    have hcells : st'.store.used - st.store.used = cells := by
      have := hmodels.used
      simp only at hused
      omega
    rw [hcells] at hroom
    have hrun := @hcarry rest₂
      ⟨context₂.maxDepth, st₂.depth, st₂.store.refusalAt?⟩
      st₂.store.used hlevels hroom
    have hagrees₂ := hstands₂.agrees
    rw [hrun] at hagrees₂
    generalize hresult : evaluate env₂ context₂ st₂ = result at hagrees₂
    cases hagrees₂ with
    | @ok v₂ _ st₂' _ _ hmodels₂ _ hd₂ =>
      refine ⟨v₂, st₂', rfl, hsame hstands₂.layout hstands₂.tokens hresult, ?_⟩
      rw [Memory.render_eq hmodels.layout hmodels.slots hd,
        Memory.render_eq hmodels₂.layout hmodels₂.slots hd₂]

end Extent

/-- An environment in which `f` hands its argument back, taken in one way or the other. -/
def handingBack (mode : BindingMode) : StoreM Environment := do
  let formals ← Store.ofList [.mode mode, .atom ⟨1, 0⟩]
  let body ← Store.ofList [.atom ⟨1, 0⟩]
  let f ← Closure.build ⟨formals, body, .empty⟩
  ({} : Environment).extend [(⟨0, 0⟩, f)]

theorem keeps_handingBack (mode : BindingMode) : Keeps Store.Grows (handingBack mode) :=
  (Store.keeps_ofList _).bind fun _ => (Store.keeps_ofList _).bind fun _ =>
    (Closure.keeps_build _).bind fun _ => Environment.keeps_extend _ _

/-- A call takes the same tokens, whichever way the function takes its argument. -/
theorem evaluate_extent_determined_modes :
    let context : EvalContext := ⟨{ entries := #["f", "x", "a"] }, 4⟩
    let values : List Value :=
      [.delimiter '(', .atom ⟨0, 0⟩, .string ⟨2, 0⟩, .delimiter ')', .number 7]
    let env : Environment := ⟨.chain ⟨8, 0⟩⟩
    let state (mode : BindingMode) : EvalState :=
      ⟨stateOf (Store.ofList values (stateOf (handingBack mode (Store.new 16 none)))),
        .chain ⟨13, 0⟩, 0⟩
    ∃ v v' st st' taken rest, evaluate env context (state .eager) = .ok v st ∧
      evaluate env context (state .deferred) = .ok v' st' ∧ taken ≠ [] ∧
      Passes context (state .eager) st taken rest ∧
      Passes context (state .deferred) st' taken rest := by
  intro context values env state
  have hlayout : ∀ mode, (stateOf (handingBack mode (Store.new 16 none))).Layout := fun mode =>
    (Store.layout_new 16 none fitsBlock).of_grows (keeps_handingBack mode _)
  have hstored : ∀ mode, Store.ofList values (stateOf (handingBack mode (Store.new 16 none))) =
      .ok (.chain ⟨13, 0⟩) (state mode).store := by
    intro mode
    have hresult : resultOf? (Store.ofList values
        (stateOf (handingBack mode (Store.new 16 none)))) = some (.chain ⟨13, 0⟩) := by
      cases mode <;> decide +kernel
    exact eq_ok_of_resultOf? hresult
  have hstate : ∀ mode, (state mode).store.Layout := fun mode =>
    Store.layout_of_ofList (hlayout mode) (hstored mode)
  have htokens : ∀ mode, ((state mode).memory context).DenotesTokens (state mode).cursor
      [.delimiter '(', .atom ['f'], .string ['a'], .delimiter ')', .number 7] := fun mode =>
    ⟨values, Store.chain_of_ofList (hlayout mode) (hstored mode), .cons .delimiter
      (.cons (.atom rfl) (.cons (.string rfl) (.cons .delimiter (.cons .number .nil))))⟩
  have heager : succeeded (evaluate env context (state .eager)) = true := by decide +kernel
  have hdeferred : succeeded (evaluate env context (state .deferred)) = true := by decide +kernel
  obtain ⟨v, st, hv⟩ := exists_of_succeeded heager
  obtain ⟨v', st', hv'⟩ := exists_of_succeeded hdeferred
  obtain ⟨taken, rest, hne, hsplit, hpasses, hsame, -⟩ :=
    evaluate_extent_determined (hstate .eager) (htokens .eager) hv
  have hpasses' := hsame (hstate .deferred) (hsplit ▸ htokens .deferred) hv'
  exact ⟨v, v', st, st', taken, rest, hv, hv', hne, hpasses, hpasses'⟩

end BraceLang
