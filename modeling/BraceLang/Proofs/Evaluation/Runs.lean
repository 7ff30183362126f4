import BraceLang.Proofs.Evaluation.Growth

/-!
# Runs of tokens on finite lists

On a cursor that is a finite list, looking at a token and taking a run of tokens are functions
of the list of values: `takeRun` is the run that a step function takes from the front of a
list.

* `IsRun`: the tokens of a run. They do not depend on what stands behind them.
* `EvalM.next_of_cons`, `EvalM.next_of_nil`: taking one token.
* `EvalM.consume_of_takeRun`, `EvalM.consume_of_takeRun_error`: taking a run.
-/

namespace BraceLang

/-- The result of the run that a step function takes from the front of a list, and the rest of
the list. -/
def takeRun {σ τ α : Type} (atEnd : σ → SyntaxFault)
    (step : σ → τ → Except SyntaxFault (Progress σ α)) : σ → List τ →
    Except SyntaxFault (α × List τ)
  | state, [] => .error (atEnd state)
  | state, token :: tokens =>
    match step state token with
    | .ok (.more state) => takeRun atEnd step state tokens
    | .ok (.done result) => .ok (result, tokens)
    | .error fault => .error fault

section Steps

variable {σ τ α : Type} {step : σ → τ → Except SyntaxFault (Progress σ α)} {state : σ} {result : α}

/-- These tokens are a run: the last of them, and no other one, completes it. -/
inductive IsRun (step : σ → τ → Except SyntaxFault (Progress σ α)) : σ → List τ → α → Prop
  | done {state : σ} {token : τ} {result : α} : step state token = .ok (.done result) →
      IsRun step state [token] result
  | more {state state' : σ} {token : τ} {tokens : List τ} {result : α} :
      step state token = .ok (.more state') → IsRun step state' tokens result →
      IsRun step state (token :: tokens) result

/-- A run is taken from the front of a list whatever stands behind it. -/
theorem IsRun.takeRun_append {tokens : List τ} (h : IsRun step state tokens result)
    (atEnd : σ → SyntaxFault) (rest : List τ) :
    takeRun atEnd step state (tokens ++ rest) = .ok (result, rest) := by
  induction h with
  | done hstep => simp [takeRun, hstep]
  | more hstep _ ih => simpa [takeRun, hstep] using ih

theorem isRun_of_takeRun {atEnd : σ → SyntaxFault} {tokens rest : List τ}
    (h : takeRun atEnd step state tokens = .ok (result, rest)) :
    ∃ taken, tokens = taken ++ rest ∧ IsRun step state taken result := by
  induction tokens generalizing state with
  | nil => simp [takeRun] at h
  | cons token tokens ih =>
    simp only [takeRun] at h
    split at h
    · rename_i state' hstep
      obtain ⟨taken, rfl, htaken⟩ := ih h
      exact ⟨token :: taken, rfl, .more hstep htaken⟩
    · rename_i hstep
      cases h
      exact ⟨[token], rfl, .done hstep⟩
    · cases h

/-- Of two lists with runs at their fronts that are the same list, the runs are the same. -/
theorem IsRun.unique {tokens tokens' rest rest' : List τ} {result' : α}
    (h : IsRun step state tokens result) (h' : IsRun step state tokens' result')
    (heq : tokens ++ rest = tokens' ++ rest') : tokens = tokens' := by
  induction h generalizing tokens' with
  | done hstep =>
    cases h' with
    | done => simpa using (List.cons.inj heq).1
    | more hstep' _ =>
      rw [(List.cons.inj heq).1, hstep'] at hstep
      cases hstep
  | more hstep _ ih =>
    cases h' with
    | done hstep' =>
      rw [(List.cons.inj heq).1, hstep'] at hstep
      cases hstep
    | more hstep' htail =>
      obtain ⟨rfl, htokens⟩ := List.cons.inj heq
      rw [hstep'] at hstep
      cases hstep
      rw [ih htail htokens]

/-- A run with other states and tokens. -/
theorem IsRun.map {σ' τ' α' : Type} {step' : σ' → τ' → Except SyntaxFault (Progress σ' α')}
    {f : σ → σ'} {g : τ → τ'} {r : α → α'}
    (hmore : ∀ state token state', step state token = .ok (.more state') →
      step' (f state) (g token) = .ok (.more (f state')))
    (hdone : ∀ state token result, step state token = .ok (.done result) →
      step' (f state) (g token) = .ok (.done (r result)))
    {tokens : List τ} (h : IsRun step state tokens result) :
    IsRun step' (f state) (tokens.map g) (r result) := by
  induction h with
  | done hstep => exact .done (hdone _ _ _ hstep)
  | more hstep _ ih => exact .more (hmore _ _ _ hstep) ih

end Steps

namespace EvalM

variable (context : EvalContext) {st : EvalState} {tokens : List Value}

theorem ask_of_ok {α : Type} {question : Store → Except StoreError α} {a : α}
    (h : question st.store = .ok a) : ask question context st = .ok a st := by
  obtain ⟨store, cursor, depth⟩ := st
  simp only [ask, ofStoreM, Store.read, h]

theorem look?_of_split {found : Option (Value × ListRef)}
    (h : st.store.split st.cursor = .ok found) : look? context st = .ok found st :=
  ask_of_ok context h

theorem look?_of_nil (hc : st.store.Chain st.cursor []) : look? context st = .ok none st :=
  look?_of_split context hc.split_nil

theorem look?_of_cons {token : Value} (hc : st.store.Chain st.cursor (token :: tokens)) :
    ∃ rest, look? context st = .ok (some (token, rest)) st ∧
      st.store.Reads st.cursor [token] rest := by
  have happ : st.store.Chain st.cursor ([token] ++ tokens) := hc
  obtain ⟨rest, hreads, -⟩ := happ.exists_reads
  refine ⟨rest, look?_of_split context ?_, hreads⟩
  generalize st.cursor = cursor at hreads
  cases hreads with
  | cons hcell htail =>
    cases htail
    exact Store.split_of_cell hcell

theorem next_of_nil (hc : st.store.Chain st.cursor []) (atEnd : SyntaxFault) :
    next atEnd context st = .error (.badSyntax atEnd) st := by
  unfold next
  rw [reader_bind_of_ok (look?_of_nil context hc)]
  rfl

theorem next_of_cons {token : Value} (hc : st.store.Chain st.cursor (token :: tokens))
    (atEnd : SyntaxFault) :
    ∃ rest, next atEnd context st = .ok token { st with cursor := rest } ∧
      st.store.Reads st.cursor [token] rest := by
  obtain ⟨rest, hlook, hreads⟩ := look?_of_cons context hc
  refine ⟨rest, ?_, hreads⟩
  unfold next
  rw [reader_bind_of_ok hlook]
  rfl

section Consume

variable {σ α : Type} {atEnd : σ → SyntaxFault}
  {step : σ → Value → Except SyntaxFault (Progress σ α)}

/-- Tokens are taken from the cursor as from the front of the list. -/
theorem consumeWithin_of_takeRun {steps : Nat} {state : σ}
    {outcome : Except SyntaxFault (α × List Value)} (hc : st.store.Chain st.cursor tokens)
    (hsteps : tokens.length ≤ steps) (h : takeRun atEnd step state tokens = outcome) :
    match outcome with
    | .ok (result, rest) => ∃ taken cursor, tokens = taken ++ rest ∧
        st.store.Reads st.cursor taken cursor ∧
        consumeWithin atEnd step steps state context st = .ok result { st with cursor }
    | .error fault => ∃ cursor, consumeWithin atEnd step steps state context st =
        .error (.badSyntax fault) { st with cursor } := by
  induction tokens generalizing steps state st with
  | nil =>
    subst h
    cases steps with
    | zero => exact ⟨st.cursor, rfl⟩
    | succ steps => exact ⟨st.cursor, reader_bind_of_error (next_of_nil context hc _)⟩
  | cons token tokens ih =>
    cases steps with
    | zero => simp at hsteps
    | succ steps =>
      obtain ⟨next, hnext, hreads⟩ := next_of_cons context hc (atEnd state)
      have hstart : consumeWithin atEnd step (steps + 1) state context st =
          (match step state token with
          | .ok (.more state) => consumeWithin atEnd step steps state
          | .ok (.done result) => pure result
          | .error fault => fail fault) context { st with cursor := next } :=
        reader_bind_of_ok hnext
      simp only [takeRun] at h
      split at h
      · rename_i state' hstep
        have htail : ({ st with cursor := next } : EvalState).store.Chain
            ({ st with cursor := next } : EvalState).cursor tokens := hreads.chain_of_cons hc
        have hrest := ih htail (Nat.le_of_succ_le_succ hsteps) h
        rw [hstep] at hstart
        cases outcome with
        | ok pair =>
          obtain ⟨taken, cursor, hsplit, htaken, hrun⟩ := hrest
          exact ⟨token :: taken, cursor, congrArg (token :: ·) hsplit, hreads.append htaken,
            hstart.trans hrun⟩
        | error fault =>
          obtain ⟨cursor, hrun⟩ := hrest
          exact ⟨cursor, hstart.trans hrun⟩
      · rename_i result hstep
        subst h
        rw [hstep] at hstart
        exact ⟨[token], next, rfl, hreads, hstart⟩
      · rename_i fault hstep
        subst h
        rw [hstep] at hstart
        exact ⟨next, hstart⟩

/-- A run is taken from the cursor as from the front of the list. -/
theorem consume_of_takeRun {state : σ} {result : α} {rest : List Value} (hs : st.store.Layout)
    (hc : st.store.Chain st.cursor tokens)
    (h : takeRun atEnd step state tokens = .ok (result, rest)) :
    ∃ taken cursor, tokens = taken ++ rest ∧ st.store.Reads st.cursor taken cursor ∧
      consume atEnd step state context st = .ok result { st with cursor } :=
  consumeWithin_of_takeRun context hc (hc.length_le_maxSteps hs) h

theorem consume_of_takeRun_error {state : σ} {fault : SyntaxFault} (hs : st.store.Layout)
    (hc : st.store.Chain st.cursor tokens) (h : takeRun atEnd step state tokens = .error fault) :
    ∃ cursor, consume atEnd step state context st =
      .error (.badSyntax fault) { st with cursor } :=
  consumeWithin_of_takeRun context hc (hc.length_le_maxSteps hs) h

/-- A run that was taken is a run of the list. -/
theorem isRun_of_consume {state : σ} {result : α} {st' : EvalState} (hs : st.store.Layout)
    (hc : st.store.Chain st.cursor tokens)
    (h : consume atEnd step state context st = .ok result st') :
    ∃ taken, st.store.Reads st.cursor taken st'.cursor ∧ IsRun step state taken result := by
  cases hrun : takeRun atEnd step state tokens with
  | ok pair =>
    obtain ⟨found, rest⟩ := pair
    obtain ⟨taken, cursor, hsplit, hreads, hconsume⟩ :=
      consume_of_takeRun context hs hc hrun
    obtain ⟨taken', hsplit', hisRun⟩ := isRun_of_takeRun hrun
    rw [h] at hconsume
    cases hconsume
    rw [hsplit] at hsplit'
    rw [← List.append_cancel_right hsplit'] at hisRun
    exact ⟨taken, hreads, hisRun⟩
  | error fault =>
    obtain ⟨cursor, hconsume⟩ := consume_of_takeRun_error context hs hc hrun
    rw [h] at hconsume
    cases hconsume

end Consume

end EvalM

end BraceLang
