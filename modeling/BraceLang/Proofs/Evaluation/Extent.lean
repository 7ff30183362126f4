import Mathlib.Computability.Language
import BraceLang.Proofs.Evaluation.Nesting

/-!
# The extent of a term

Evaluation finds the end of a term by evaluating it. `Extent` says what the tokens can be that an
evaluation takes: a literal or a name, a keyword with as many extents as its arity says, or a
group whose closing delimiter comes last, unless the delimiters in it do not match.

The statements are about a cursor that is a finite list in a well laid out store, which is what
`Ready` says, and about evaluations that succeed. `Taken` relates the states before and behind some
tokens.

* `Extent.definite`: an extent is properly nested or cannot be skipped in a group.
* `EvalM.takes_applyKeyword`: the operands of a keyword are as many terms as its arity.
* `EvalM.takes_evaluateWithin`, `EvalM.takes_skipWithin`: evaluating and skipping take an extent.
-/

namespace BraceLang

/-- What an evaluation with a number of levels can take for a term. -/
inductive Extent : Nat → List Value → Prop
  | number {levels : Nat} {n : Float} : Extent (levels + 1) [.number n]
  | string {levels : Nat} {text : TextRef} : Extent (levels + 1) [.string text]
  | atom {levels : Nat} {name : TextRef} : Extent (levels + 1) [.atom name]
  | keyword {levels : Nat} {op : Keyword} {operands : List (List Value)} :
    operands.length = op.arity → (∀ operand ∈ operands, Extent levels operand) →
      Extent (levels + 1) (.keyword op :: operands.flatten)
  | group {levels : Nat} {opening : Value} {closer : Char} {tokens : List Value} :
    opening.role = .opens closer → Closes tokens [closer] → Extent (levels + 1) (opening :: tokens)

/-- The set of these token lists. -/
def extents (levels : Nat) : Language Value := {tokens | Extent levels tokens}

theorem Extent.definite {levels : Nat} {tokens : List Value} (h : Extent levels tokens) :
    Definite tokens := by
  induction h with
  | number => exact Definite.of_plain (by simp [Value.role])
  | string => exact Definite.of_plain (by simp [Value.role])
  | atom => exact Definite.of_plain (by simp [Value.role])
  | @keyword _ op _ _ _ ih =>
    have hkeyword : Definite [.keyword op] := Definite.of_plain (by simp [Value.role])
    exact hkeyword.append (Definite.flatten ih)
  | group hopening hcloses => exact hcloses.definite hopening

/-- Some terms in a row are properly nested or cannot be skipped in a group. -/
theorem definite_of_mem_pow {levels n : Nat} {tokens : List Value}
    (h : tokens ∈ extents levels ^ n) : Definite tokens := by
  obtain ⟨parts, rfl, -, hparts⟩ := Language.mem_pow.mp h
  exact Definite.flatten fun part hpart => Extent.definite (hparts part hpart)

/-! ## States before and behind some tokens -/

/-- The cursor is a finite list in a well laid out store. -/
structure Ready (st : EvalState) : Prop where
  layout : st.store.Layout
  finite : ∃ tokens, st.store.Chain st.cursor tokens

/-- From one state to the other the cursor passes these tokens, and the store grows. -/
structure Taken (st : EvalState) (tokens : List Value) (st' : EvalState) : Prop where
  reads : st.store.Reads st.cursor tokens st'.cursor
  grown : st.store.Extends st'.store
  ready : Ready st'
  depth : st'.depth = st.depth

theorem Taken.trans {st st' st'' : EvalState} {tokens tokens' : List Value} (hst : Ready st)
    (h : Taken st tokens st') (h' : Taken st' tokens' st'') :
    Taken st (tokens ++ tokens') st'' where
  reads := by
    obtain ⟨all, hall⟩ := hst.finite
    obtain ⟨rest, -, hrest⟩ := h.reads.split_of_chain hall
    have hmore : st.store.Reads st'.cursor tokens' st''.cursor :=
      h'.reads.of_extends h.grown hrest
    exact h.reads.append hmore
  grown := h.grown.trans h'.grown
  ready := h'.ready
  depth := h'.depth.trans h.depth

namespace EvalM

variable {α β : Type} {context : EvalContext} {depth : Nat} {st st' : EvalState}

theorem taken_of_grows {m : EvalM α} {a : α} {tokens : List Value} (hm : Grows m) (hst : Ready st)
    (h : m context st = .ok a st') (hreads : st.store.Reads st.cursor tokens st'.cursor) :
    Taken st tokens st' where
  reads := hreads
  grown := Store.extends_of_grows ((hm context).of_ok h).1
  ready := by
    have hgrows := ((hm context).of_ok h).1
    obtain ⟨all, hall⟩ := hst.finite
    obtain ⟨rest, -, hrest⟩ := hreads.split_of_chain hall
    exact ⟨hst.layout.of_grows hgrows, rest, hrest.mono (Store.extends_of_grows hgrows)⟩
  depth := ((hm context).of_ok h).2

/-- When it succeeds at that depth, the action takes tokens of that language. -/
def Takes (context : EvalContext) (depth : Nat) (m : EvalM α) (L : Language Value) : Prop :=
  ∀ ⦃st st' a⦄, Ready st → st.depth = depth → m context st = .ok a st' →
    ∃ tokens ∈ L, Taken st tokens st'

namespace Takes

variable {m : EvalM α} {L M : Language Value}

theorem taken_nil {a : α} (hm : Takes context st.depth m 1) (hst : Ready st)
    (h : m context st = .ok a st') : Taken st [] st' := by
  obtain ⟨tokens, hnil, htaken⟩ := hm hst rfl h
  rwa [(Language.mem_one _).mp hnil] at htaken

/-- An action that leaves the cursor alone takes nothing. -/
theorem of_cursor (hm : Grows m)
    (h : ∀ st st' a, m context st = .ok a st' → st'.cursor = st.cursor) :
    Takes context depth m 1 := by
  intro st st' a hst _ hrun
  refine ⟨[], Language.nil_mem_one, taken_of_grows hm hst hrun ?_⟩
  rw [h _ _ _ hrun]
  exact .nil

theorem mono (hm : Takes context depth m L) (h : ∀ tokens ∈ L, tokens ∈ M) :
    Takes context depth m M := by
  intro st st' a hst hdepth hrun
  obtain ⟨tokens, hmem, htaken⟩ := hm hst hdepth hrun
  exact ⟨tokens, h tokens hmem, htaken⟩

theorem pure (a : α) : Takes context depth (Pure.pure a) 1 := by
  refine of_cursor (Grows.pure a) fun st st' b h => ?_
  cases h
  rfl

theorem of_error (h : ∀ st, ∃ e st', m context st = .error e st') : Takes context depth m L := by
  intro st st' a _ _ hrun
  obtain ⟨e, t, herror⟩ := h st
  rw [herror] at hrun
  cases hrun

theorem throw (e : EvalError) : Takes context depth (MonadExcept.throw e : EvalM α) L :=
  of_error fun st => ⟨e, st, rfl⟩

theorem fail (fault : SyntaxFault) : Takes context depth (EvalM.fail fault : EvalM α) L := throw _

theorem bind {f : α → EvalM β} (hm : Takes context depth m L)
    (hf : ∀ a, Takes context depth (f a) M) : Takes context depth (m >>= f) (L * M) := by
  intro st st' b hst hdepth hrun
  obtain ⟨a, t, hfirst, hsecond⟩ := reader_bind_eq_ok_iff.mp hrun
  obtain ⟨tokens, hmem, htaken⟩ := hm hst hdepth hfirst
  obtain ⟨tokens', hmem', htaken'⟩ := hf a htaken.ready (htaken.depth.trans hdepth) hsecond
  exact ⟨tokens ++ tokens', Language.append_mem_mul hmem hmem', htaken.trans hst htaken'⟩

/-- An action that takes nothing, in front of one that does. -/
theorem bind_one {f : α → EvalM β} (hm : Takes context depth m 1)
    (hf : ∀ a, Takes context depth (f a) M) : Takes context depth (m >>= f) M := by
  have := hm.bind hf
  rwa [one_mul] at this

/-- An action that takes nothing, behind one that does. -/
theorem bind_then {f : α → EvalM β} (hm : Takes context depth m L)
    (hf : ∀ a, Takes context depth (f a) 1) : Takes context depth (m >>= f) L := by
  have := hm.bind hf
  rwa [mul_one] at this

theorem map {f : α → β} (hm : Takes context depth m L) : Takes context depth (f <$> m) L := by
  have : f <$> m = m >>= fun a => Pure.pure (f a) := (bind_pure_comp f m).symm
  rw [this]
  exact hm.bind_then fun a => pure (f a)

end Takes

/-! ## Steps of an evaluation -/

theorem ofStoreM_eq_ok_iff {action : StoreM α} {a : α} :
    ofStoreM action context st = .ok a st' ↔
      action st.store = .ok a st'.store ∧ st'.cursor = st.cursor ∧ st'.depth = st.depth := by
  obtain ⟨store', cursor', depth'⟩ := st'
  unfold ofStoreM
  cases haction : action st.store with
  | ok b store =>
    simp only [haction, EStateM.Result.ok.injEq, EvalState.mk.injEq, and_assoc]
    simp only [eq_comm]
  | error e store => simp [haction]

theorem takes_ofStoreM {action : StoreM α} (h : Keeps Store.Grows action) :
    Takes context depth (ofStoreM action) 1 :=
  Takes.of_cursor (grows_ofStoreM h) fun _ _ _ hrun => (ofStoreM_eq_ok_iff.mp hrun).2.1

theorem takes_ask (question : Store → Except StoreError α) : Takes context depth (ask question) 1 :=
  takes_ofStoreM (Store.keeps_read question)

theorem takes_askMemory (question : Memory → Except EvalError α) :
    Takes context depth (askMemory question) 1 := by
  refine Takes.of_cursor (grows_askMemory question) fun st st' a hrun => ?_
  have hask : askMemory question context st =
      (MonadExcept.ofExcept (question ⟨st.store, context.texts⟩) : EvalM α) context st := rfl
  rw [hask] at hrun
  cases hanswer : question ⟨st.store, context.texts⟩ with
  | ok b =>
    rw [hanswer] at hrun
    cases hrun
    rfl
  | error e =>
    rw [hanswer] at hrun
    cases hrun

theorem takes_resolve (ref : TextRef) : Takes context depth (resolve ref) 1 := takes_askMemory _

theorem takes_nested {action : EvalM α} {L : Language Value}
    (h : Takes context (depth + 1) action L) : Takes context depth (nested action) L := by
  rintro ⟨store, cursor, depth⟩ st' a hst rfl hrun
  unfold nested at hrun
  by_cases hdeep : context.maxDepth ≤ depth
  · simp only [if_pos hdeep] at hrun
    cases hrun
  · simp only [if_neg hdeep] at hrun
    have hst' : Ready ⟨store, cursor, depth + 1⟩ := ⟨hst.layout, hst.finite⟩
    cases haction : action context ⟨store, cursor, depth + 1⟩ with
    | ok b t =>
      rw [haction] at hrun
      cases hrun
      obtain ⟨tokens, hmem, htaken⟩ := h hst' rfl haction
      have hdepth := htaken.depth
      exact ⟨tokens, hmem, htaken.reads, htaken.grown, ⟨htaken.ready.layout, htaken.ready.finite⟩,
        by simp only at hdepth ⊢; omega⟩
    | error e t =>
      rw [haction] at hrun
      cases hrun

/-- Looking at a token leaves the state as it is. -/
theorem look?_cases {found : Option (Value × ListRef)} (hst : Ready st)
    (h : look? context st = .ok found st') :
    st' = st ∧ ∀ token rest, found = some (token, rest) →
      Taken st [token] { st with cursor := rest } := by
  obtain ⟨all, hall⟩ := hst.finite
  cases all with
  | nil =>
    rw [look?_of_nil context hall] at h
    cases h
    exact ⟨rfl, fun _ _ hfound => by cases hfound⟩
  | cons first all =>
    obtain ⟨rest, hlook, hreads⟩ := look?_of_cons context hall
    rw [hlook] at h
    cases h
    refine ⟨rfl, fun token rest' hfound => ?_⟩
    cases hfound
    exact ⟨hreads, .refl _, ⟨hst.layout, _, hreads.chain_of_cons hall⟩, rfl⟩

theorem taken_of_next {atEnd : SyntaxFault} {token : Value} (hst : Ready st)
    (h : next atEnd context st = .ok token st') : Taken st [token] st' := by
  obtain ⟨found, t, hlook, hrest⟩ := reader_bind_eq_ok_iff.mp h
  obtain ⟨rfl, htaken⟩ := look?_cases hst hlook
  cases found with
  | none => cases hrest
  | some parts =>
    cases hrest
    exact htaken _ _ rfl

theorem taken_of_expect {delimiter : Char} {u : Unit} (hst : Ready st)
    (h : expect delimiter context st = .ok u st') : Taken st [.delimiter delimiter] st' := by
  obtain ⟨found, t, hlook, hrest⟩ := reader_bind_eq_ok_iff.mp h
  obtain ⟨rfl, htaken⟩ := look?_cases hst hlook
  cases found with
  | none => cases hrest
  | some parts =>
    obtain ⟨token, rest⟩ := parts
    dsimp only at hrest
    split at hrest
    · rename_i hdelimiter
      cases hrest
      have htoken : token = .delimiter delimiter := by
        unfold Value.isDelimiter at hdelimiter
        split at hdelimiter
        · rw [eq_of_beq hdelimiter]
        · cases hdelimiter
      rw [← htoken]
      exact htaken _ _ rfl
    · cases hrest

/-- The token of a separator. -/
def separatorToken : Separator → Value
  | .comma => .delimiter ','
  | .close => .delimiter ')'

theorem eq_separatorToken {token : Value} {separator : Separator}
    (h : Separator.ofToken? token = some separator) : token = separatorToken separator := by
  unfold Separator.ofToken? at h
  split at h
  · cases h
    rfl
  · cases h
    rfl
  · cases h

theorem taken_of_separator {found : Separator} (hst : Ready st)
    (h : separator context st = .ok found st') : Taken st [separatorToken found] st' := by
  obtain ⟨looked, t, hlook, hrest⟩ := reader_bind_eq_ok_iff.mp h
  obtain ⟨rfl, htaken⟩ := look?_cases hst hlook
  cases looked with
  | none => cases hrest
  | some parts =>
    obtain ⟨token, rest⟩ := parts
    cases hseparator : Separator.ofToken? token with
    | some separator =>
      simp only [hseparator] at hrest
      cases hrest
      rw [← eq_separatorToken hseparator]
      exact htaken _ _ rfl
    | none =>
      simp only [hseparator] at hrest
      cases hrest

theorem taken_of_consume {σ : Type} {atEnd : σ → SyntaxFault}
    {step : σ → Value → Except SyntaxFault (Progress σ α)} {state : σ} {result : α}
    (hst : Ready st) (h : consume atEnd step state context st = .ok result st') :
    ∃ taken, IsRun step state taken result ∧ Taken st taken st' := by
  obtain ⟨all, hall⟩ := hst.finite
  obtain ⟨taken, hreads, hrun⟩ := isRun_of_consume context hst.layout hall h
  exact ⟨taken, hrun, taken_of_grows (grows_of_basic (basic_consume _ _ _)) hst h hreads⟩

end EvalM

end BraceLang
