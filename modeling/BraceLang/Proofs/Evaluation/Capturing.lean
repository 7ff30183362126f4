import BraceLang.Proofs.Evaluation.Determinacy

/-!
# Where a captured argument ends

A captured argument is found by counting parentheses and braces, an evaluated one by evaluating it.
Both end at the same separator if the delimiters of the argument are properly nested. For the
counters are the numbers of closing delimiters of either kind that are due, and inside a term a
comma or a closing delimiter stands only where one is due.

Hence the arguments of a call are divided in the same way when some of its parameters are deferred
instead of eager.

* `Span.counted`: counting goes on through the tokens of a term.
* `Store.ofList_of_granted`: a list is stored when its cells are granted, in new cells.
* `EvalM.Divides`: how parameters divide what stands at the cursor.
* `captureArgument_divides_as_evaluate`: capturing and evaluating divide a call in the same way.
-/

namespace BraceLang

/-! ## Counting delimiters -/

/-- A run with more tokens, and with more open delimiters when closing ones are due. -/
def ArgumentRun.within (run : ArgumentRun) (due : List Char) (tokens : List Value) :
    ArgumentRun where
  parens := run.parens + due.count ')'
  braces := run.braces + due.count '}'
  tokens := run.tokens ++ tokens.toArray

/-- Only parentheses and braces are due. -/
def Brackets (due : List Char) : Prop := ∀ closer ∈ due, closer = ')' ∨ closer = '}'

/-- Counting goes on through these tokens, whatever is open around them. -/
def Counted (tokens : List Value) : Prop :=
  ∀ ⦃run rest result⦄, IsRun argumentStep (run.within [] tokens) rest result →
    IsRun argumentStep run (tokens ++ rest) result

theorem ArgumentRun.within_nil (run : ArgumentRun) : run.within [] [] = run := by
  simp [within]

theorem ArgumentRun.within_within (run : ArgumentRun) (tokens tokens' : List Value) :
    (run.within [] tokens).within [] tokens' = run.within [] (tokens ++ tokens') := by
  simp [within, Array.append_assoc]

namespace Counted

theorem nil : Counted [] := by
  intro run rest result h
  rwa [ArgumentRun.within_nil] at h

theorem append {tokens tokens' : List Value} (h : Counted tokens) (h' : Counted tokens') :
    Counted (tokens ++ tokens') := by
  intro run rest result hrest
  rw [List.append_assoc]
  rw [← ArgumentRun.within_within] at hrest
  exact h (h' hrest)

theorem flatten {parts : List (List Value)} (h : ∀ part ∈ parts, Counted part) :
    Counted parts.flatten := by
  induction parts with
  | nil => exact nil
  | cons part parts ih =>
    rw [List.forall_mem_cons] at h
    exact h.1.append (ih h.2)

/-- A token that is not a delimiter is passed. -/
theorem single {token : Value} (h : ∀ c, token ≠ .delimiter c) : Counted [token] := by
  intro run rest result hrest
  refine .more ?_ hrest
  cases token with
  | delimiter c => exact absurd rfl (h c)
  | _ => simp [argumentStep, Separator.ofToken?, ArgumentRun.within]

end Counted

theorem Brackets.exists_count {due : List Char} (h : Brackets due) (hne : due ≠ []) :
    0 < due.count ')' ∨ 0 < due.count '}' := by
  cases due with
  | nil => exact absurd rfl hne
  | cons closer due =>
    rcases h closer List.mem_cons_self with rfl | rfl
    · exact Or.inl (by simp)
    · exact Or.inr (by simp)

/-- Among open delimiters a comma is a token like others. -/
theorem argumentStep_of_plain {run : ArgumentRun} {token : Value} (hrole : token.role = .plain)
    (hopen : 0 < run.parens ∨ 0 < run.braces) :
    argumentStep run token = .ok (.more { run with tokens := run.tokens.push token }) := by
  unfold argumentStep
  dsimp only
  split
  · omega
  · split <;> first | rfl | cases hrole

/-- Where something is due, a token counts as it changes what is due. -/
theorem argumentStep_of_bracket {token : Value} {due due' : List Char} (hne : due ≠ [])
    (hdue : Brackets due) (h : bracket due token = some due') (run : ArgumentRun)
    (tokens : List Value) :
    argumentStep (run.within due tokens) token =
      .ok (.more (run.within due' (tokens ++ [token]))) ∧ Brackets due' := by
  rcases token.role_cases with hrole | rfl | rfl | rfl | rfl
  · simp only [bracket, hrole, Option.some.injEq] at h
    subst h
    have hopen := hdue.exists_count hne
    rw [argumentStep_of_plain hrole (by simp only [ArgumentRun.within]; omega)]
    exact ⟨by simp [ArgumentRun.within], hdue⟩
  · cases h
    refine ⟨by simp [argumentStep, Separator.ofToken?, ArgumentRun.within, Nat.add_assoc], ?_⟩
    exact List.forall_mem_cons.mpr ⟨Or.inl rfl, hdue⟩
  · cases h
    refine ⟨by simp [argumentStep, Separator.ofToken?, ArgumentRun.within, Nat.add_assoc], ?_⟩
    exact List.forall_mem_cons.mpr ⟨Or.inr rfl, hdue⟩
  · obtain rfl := eq_cons_of_bracket rfl h
    refine ⟨?_, (List.forall_mem_cons.mp hdue).2⟩
    simp [argumentStep, Separator.ofToken?, ArgumentRun.within, ← Nat.add_assoc]
  · obtain rfl := eq_cons_of_bracket rfl h
    refine ⟨?_, (List.forall_mem_cons.mp hdue).2⟩
    simp [argumentStep, Separator.ofToken?, ArgumentRun.within, ← Nat.add_assoc]

/-- Counting goes on up to where the last delimiter is closed that was due at the start. -/
theorem isRun_within {run : ArgumentRun} {due : List Char} {front tokens rest : List Value}
    {result : List Value × Separator} (hdue : Brackets due)
    (h : closeGroups tokens due = .ok ((), []))
    (hrest : IsRun argumentStep (run.within [] (front ++ tokens)) rest result) :
    IsRun argumentStep (run.within due front) (tokens ++ rest) result := by
  induction tokens generalizing due front with
  | nil =>
    cases due with
    | nil => rwa [List.append_nil] at hrest
    | cons closer outer => cases h
  | cons token tokens ih =>
    have hne : due ≠ [] := by
      rintro rfl
      cases h
    cases hstep : bracket due token with
    | none =>
      obtain ⟨fault, hfault⟩ := closeGroups_of_clash hne hstep tokens
      rw [hfault] at h
      cases h
    | some due' =>
      rw [closeGroups_of_bracket hne hstep] at h
      obtain ⟨hmore, hdue'⟩ := argumentStep_of_bracket hne hdue hstep run front
      refine .more hmore (ih hdue' h ?_)
      rwa [List.append_assoc]

theorem argumentStep_of_opens {opening : Value} {closer : Char}
    (h : opening.role = .opens closer) (run : ArgumentRun) :
    argumentStep run opening = .ok (.more (run.within [closer] [opening])) ∧
      Brackets [closer] := by
  rcases opening.role_cases with hrole | rfl | rfl | rfl | rfl
  · rw [hrole] at h
    cases h
  · cases h
    exact ⟨by simp [argumentStep, Separator.ofToken?, ArgumentRun.within], by simp [Brackets]⟩
  · cases h
    exact ⟨by simp [argumentStep, Separator.ofToken?, ArgumentRun.within], by simp [Brackets]⟩
  · cases h
  · cases h

/-- A group whose delimiters are properly nested is passed. -/
theorem counted_of_closes {opening : Value} {closer : Char} {tokens : List Value}
    (hopening : opening.role = .opens closer) (h : Closes tokens [closer])
    (hnested : Nested (opening :: tokens)) : Counted (opening :: tokens) := by
  intro run rest result hrest
  rcases h with ⟨-, hpass⟩ | hfault
  · have hgroups : closeGroups (tokens ++ []) ([closer] ++ []) = .ok ((), []) := hpass [] []
    rw [List.append_nil, List.append_nil] at hgroups
    obtain ⟨hfirst, hdue⟩ := argumentStep_of_opens hopening run
    exact .more hfirst (isRun_within hdue hgroups hrest)
  · exact absurd hnested (Clashes.of_opens hopening hfault).not_nested

theorem Nested.of_append {tokens tokens' : List Value} (h : Definite tokens)
    (hnested : Nested (tokens ++ tokens')) : Nested tokens ∧ Nested tokens' := by
  rcases h with hfirst | hclash
  · refine ⟨hfirst, ?_⟩
    unfold Nested at *
    rwa [List.foldlM_append, hfirst] at hnested
  · exact absurd hnested (hclash.append_left _).not_nested

theorem Nested.of_flatten {parts : List (List Value)} (h : ∀ part ∈ parts, Definite part)
    (hnested : Nested parts.flatten) : ∀ part ∈ parts, Nested part := by
  induction parts with
  | nil => simp
  | cons part parts ih =>
    rw [List.forall_mem_cons] at h ⊢
    obtain ⟨hpart, hparts⟩ := Nested.of_append h.1 hnested
    exact ⟨hpart, ih h.2 hparts⟩

/-- Counting goes on through the tokens of a term, if their delimiters are properly nested. -/
theorem Span.counted {tokens : List Value} (h : Span tokens) (hnested : Nested tokens) :
    Counted tokens := by
  induction h with
  | number => exact .single (by simp)
  | string => exact .single (by simp)
  | atom => exact .single (by simp)
  | @keyword op operands hlength hoperands ih =>
    have hdefinite : ∀ operand ∈ operands, Definite operand :=
      fun operand hoperand => (hoperands operand hoperand).definite
    have hnested' : Nested operands.flatten := hnested
    have hparts := Nested.of_flatten hdefinite hnested'
    have hcounted : Counted operands.flatten :=
      .flatten fun operand hoperand => ih operand hoperand (hparts operand hoperand)
    have hkeyword : Counted [.keyword op] := .single (by simp)
    exact hkeyword.append hcounted
  | closure htail => exact counted_of_closes rfl ((Span.closure htail).closes rfl) hnested
  | call hcallee harguments =>
    exact counted_of_closes rfl ((Span.call hcallee harguments).closes rfl) hnested
  | group hopening hgroup => exact counted_of_closes hopening (closes_of_isRun_group hgroup) hnested

theorem Span.ne_nil {tokens : List Value} (h : Span tokens) : tokens ≠ [] := by
  rintro rfl
  cases h

/-- A term and the separator behind it are what is captured. -/
theorem Span.isRun_argument {tokens : List Value} (h : Span tokens) (hnested : Nested tokens)
    (separator : Separator) :
    IsRun argumentStep {} (tokens ++ [EvalM.separatorToken separator]) (tokens, separator) := by
  refine h.counted hnested (.done ?_)
  cases separator <;>
    simp [argumentStep, Separator.ofToken?, EvalM.separatorToken, ArgumentRun.within, h.ne_nil]

/-! ## Storing the tokens -/

namespace Store

/-- Some more cells are granted. -/
def Grants (s : Store) (cells : Nat) : Prop :=
  ∀ i < cells, s.refusalAt? (s.used + i) = none

/-- All cells of the list come after those that were in use in the other store. -/
def NewList (s s' : Store) (l : ListRef) : Prop :=
  ∀ ⦃values ref⦄, s'.Reads l values (.chain ref) → s.used ≤ ref.index

/-- A list is stored when its cells are granted, in new cells. -/
theorem ofList_of_grants {s : Store} (hs : s.Layout) {values : List Value}
    (h : s.Grants values.length) :
    ∃ l s', ofList values s = .ok l s' ∧ s'.used = s.used + values.length ∧ s.NewList s' l := by
  induction values with
  | nil =>
    refine ⟨.empty, s, rfl, rfl, ?_⟩
    intro values ref hreads
    cases hreads
  | cons value values ih =>
    obtain ⟨l, t, hstored, hused, hnew⟩ := ih fun i hi => h i (Nat.lt_succ_of_lt hi)
    have hgrows := (keeps_ofList values).of_ok hstored
    have hext := extends_of_grows hgrows
    have ht : t.Layout := hs.of_grows hgrows
    have hgranted : t.refusalAt? t.used = none := by
      rw [hext.refusalAt?_eq, hused]
      exact h values.length (Nat.lt_succ_self _)
    refine ⟨.chain t.nextRef, t.written ⟨value, l⟩, ?_, ?_, ?_⟩
    · rw [ofList_cons, bind_of_ok hstored, push_eq ht, hgranted]
    · simp only [written, hused, List.length_cons]
      omega
    · have hl := chain_of_ofList hs hstored
      intro values' ref hreads
      cases hreads with
      | nil =>
        simp only [nextRef, hused]
        omega
      | cons hcell hrest =>
        rw [ht.cell_written_nextRef] at hcell
        cases hcell
        exact hnew (hrest.of_extends (extends_written t _) hl)

end Store

/-- What is read on the way to a tail of a finite list is determined. -/
theorem Store.Reads.values_unique {s : Store} {l l' : ListRef} {values values' all : List Value}
    (h : s.Reads l values l') (h' : s.Reads l values' l') (hc : s.Chain l all) :
    values = values' := by
  obtain ⟨rest, hall, hrest⟩ := h.split_of_chain hc
  obtain ⟨rest', hall', hrest'⟩ := h'.split_of_chain hc
  rw [hall, hrest'.unique hrest] at hall'
  exact List.append_cancel_right hall'

namespace EvalM

variable {context : EvalContext} {env : Environment} {st st' : EvalState}

/-- What has been found by counting is captured when its cells are granted. -/
theorem captureArgument_of_isRun (context : EvalContext) (hs : st.store.Layout)
    {argument rest : List Value} {separator : Separator}
    (hc : st.store.Chain st.cursor (argument ++ separatorToken separator :: rest))
    (h : IsRun argumentStep {} (argument ++ [separatorToken separator]) (argument, separator))
    (hcells : st.store.Grants argument.length) :
    ∃ l t, captureArgument context st = .ok (l, separator) t ∧ t.store.Chain l argument ∧
      st.store.NewList t.store l ∧ t.store.slots = st.store.slots ∧
      Taken st (argument ++ [separatorToken separator]) t := by
  have htakeRun := h.takeRun_append (fun _ => .endInArgument) rest
  rw [List.append_assoc] at htakeRun
  obtain ⟨taken, cursor, -, -, hconsume⟩ := consume_of_takeRun context hs hc htakeRun
  obtain ⟨l, s, hstored, -, hnew⟩ := Store.ofList_of_grants hs hcells
  have hbuilt : ofStoreM (Store.ofList argument) context { st with cursor } =
      .ok l ⟨s, cursor, st.depth⟩ := by
    simp only [ofStoreM, hstored]
  have hcapture : captureArgument context st = .ok (l, separator) ⟨s, cursor, st.depth⟩ := by
    unfold captureArgument
    rw [reader_bind_of_ok hconsume]
    exact reader_bind_of_ok hbuilt
  have hchain := Store.chain_of_ofList hs hstored
  obtain ⟨argument', -, hchain', htaken⟩ := taken_of_captureArgument ⟨hs, _, hc⟩ hcapture
  rw [hchain'.unique hchain] at htaken
  have hslots := ((Store.leavesSlots_ofList argument).same st.store).1
  rw [hstored] at hslots
  exact ⟨l, _, hcapture, hchain, hnew, hslots, htaken⟩

/-! ## The division of a call -/

/-- What can be the argument for a formal parameter. -/
def Part (formal : Formal) (argument : List Value) (separator : Separator) : Prop :=
  match formal.mode with
  | .eager => Span argument
  | .deferred =>
    IsRun argumentStep {} (argument ++ [separatorToken separator]) (argument, separator)

/-- A parameter is like another one, or deferred instead. -/
def Defers (formal formal' : Formal) : Prop := formal'.mode = formal.mode ∨ formal'.mode = .deferred

theorem separatorToken_injective : Function.Injective separatorToken := by
  intro separator separator' h
  cases separator <;> cases separator' <;> first | rfl | cases h

namespace Part

variable {formal formal' : Formal} {argument argument' rest rest' : List Value}
  {separator separator' : Separator}

/-- What can be an argument that is evaluated is also captured, if it is properly nested. -/
theorem defers (h : Part formal argument separator) (hnested : Nested argument)
    (hdefers : Defers formal formal') : Part formal' argument separator := by
  unfold Part at *
  rcases hdefers with hmode | hmode
  · rwa [hmode]
  · rw [hmode]
    cases hformal : formal.mode with
    | eager =>
      rw [hformal] at h
      exact h.isRun_argument hnested separator
    | deferred => rwa [hformal] at h

/-- The tokens at the cursor have no more than one beginning that can be the argument. -/
theorem unique (h : Part formal argument separator) (h' : Part formal argument' separator')
    (heq : argument ++ [separatorToken separator] ++ rest =
      argument' ++ [separatorToken separator'] ++ rest') :
    argument = argument' ∧ separator = separator' := by
  unfold Part at h h'
  cases hformal : formal.mode with
  | eager =>
    rw [hformal] at h h'
    simp only [List.append_assoc] at heq
    obtain rfl := h.unique h' heq
    have htokens := (List.cons.inj (List.append_cancel_left heq)).1
    exact ⟨rfl, separatorToken_injective htokens⟩
  | deferred =>
    rw [hformal] at h h'
    have hruns := h.takeRun_append (fun _ => .endInArgument) rest
    rw [heq, h'.takeRun_append] at hruns
    cases hruns
    exact ⟨rfl, rfl⟩

end Part

/-- A parameter is bound to one of its possible arguments. -/
theorem part_of_bindActual {formal : Formal} {actual : Actual} {separator : Separator}
    (hst : Ready st)
    (h : bindActual evaluate env formal context st = .ok (actual, separator) st') :
    ∃ argument, Part formal argument separator ∧
      Taken st (argument ++ [separatorToken separator]) st' := by
  obtain ⟨argument, -, hpart, htaken⟩ :=
    taken_of_bindActual (takes_evaluate_span st.depth) hst h
  exact ⟨argument, hpart, htaken⟩

/-- A deferred parameter is bound, whatever its argument means. -/
theorem bindActual_of_part (hs : st.store.Layout) {formal : Formal} {argument rest : List Value}
    {separator : Separator}
    (hc : st.store.Chain st.cursor (argument ++ separatorToken separator :: rest))
    (h : Part formal argument separator) (hmode : formal.mode = .deferred)
    (hcells : st.store.Grants argument.length)
    (hindex : st.store.slots.size < Store.indexCount) :
    ∃ actual t, bindActual evaluate env formal context st = .ok (actual, separator) t ∧
      Taken st (argument ++ [separatorToken separator]) t := by
  have hrun : IsRun argumentStep {} (argument ++ [separatorToken separator])
      (argument, separator) := by
    unfold Part at h
    rwa [hmode] at h
  obtain ⟨l, t, hcapture, -, -, hslots, htaken⟩ :=
    captureArgument_of_isRun context hs hc hrun hcells
  rw [← hslots] at hindex
  have hslot : ∃ slot s, ofStoreM (Store.newSlot formal.name l) context t = .ok slot s := by
    unfold ofStoreM
    simp only [Store.newSlot_eq, Store.indexFault?_eq_none_iff.mpr hindex]
    exact ⟨_, _, rfl⟩
  obtain ⟨slot, s, hslot⟩ := hslot
  have hnew := (takes_ofStoreM (Store.keeps_newSlot formal.name l)).taken_nil htaken.ready hslot
  refine ⟨.captured slot, s, ?_, by simpa using htaken.trans ⟨hs, _, hc⟩ hnew⟩
  unfold bindActual
  rw [hmode]
  exact (reader_bind_of_ok hcapture).trans (reader_bind_of_ok hslot)

/-- The parameters divide what stands at the cursor into these arguments, with these separators
behind them, one for each parameter. -/
inductive Divides (context : EvalContext) (env : Environment) :
    List Formal → EvalState → List (List Value × Separator) → EvalState → Prop
  | nil {st : EvalState} : Divides context env [] st [] st
  | cons {formal : Formal} {formals : List Formal} {st t st' : EvalState} {actual : Actual}
    {argument : List Value} {separator : Separator} {parts : List (List Value × Separator)} :
    bindActual evaluate env formal context st = .ok (actual, separator) t →
    st.store.Reads st.cursor (argument ++ [separatorToken separator]) t.cursor →
    Divides context env formals t parts st' →
    Divides context env (formal :: formals) st ((argument, separator) :: parts) st'

/-- The tokens of arguments with the separators behind them. -/
def tokensOf (parts : List (List Value × Separator)) : List Value :=
  parts.flatMap fun part => part.1 ++ [separatorToken part.2]

theorem tokensOf_cons (part : List Value × Separator) (parts : List (List Value × Separator)) :
    tokensOf (part :: parts) = part.1 ++ [separatorToken part.2] ++ tokensOf parts := rfl

theorem tokensOf_append (parts parts' : List (List Value × Separator)) :
    tokensOf (parts ++ parts') = tokensOf parts ++ tokensOf parts' := List.flatMap_append

/-- What stands at the cursor has no more than one division into arguments for some parameters. -/
theorem eq_of_forall₂_part {formals : List Formal} {parts parts' : List (List Value × Separator)}
    (h : List.Forall₂ (fun formal part => Part formal part.1 part.2) formals parts)
    (h' : List.Forall₂ (fun formal part => Part formal part.1 part.2) formals parts')
    {rest rest' : List Value} (heq : tokensOf parts ++ rest = tokensOf parts' ++ rest') :
    parts = parts' := by
  induction h generalizing parts' with
  | nil =>
    cases h'
    rfl
  | @cons formal part formals parts hpart _ ih =>
    cases h' with
    | @cons _ part' _ parts' hpart' hparts' =>
      rw [tokensOf_cons, tokensOf_cons, List.append_assoc (part.1 ++ _),
        List.append_assoc (part'.1 ++ _)] at heq
      obtain rfl : part = part' := Prod.ext_iff.mpr (hpart.unique hpart' heq)
      rw [ih hparts' (List.append_cancel_left heq)]

theorem forall₂_part_defers {formals formals' : List Formal}
    {parts : List (List Value × Separator)}
    (h : List.Forall₂ (fun formal part => Part formal part.1 part.2) formals parts)
    (hnested : ∀ part ∈ parts, Nested part.1) (hdefers : List.Forall₂ Defers formals formals') :
    List.Forall₂ (fun formal part => Part formal part.1 part.2) formals' parts := by
  induction h generalizing formals' with
  | nil =>
    cases hdefers
    exact .nil
  | cons hpart _ ih =>
    rw [List.forall_mem_cons] at hnested
    cases hdefers with
    | cons hdefer hdefers =>
      exact .cons (hpart.defers hnested.1 hdefer) (ih hnested.2 hdefers)

namespace Divides

variable {formals front back : List Formal} {parts found : List (List Value × Separator)}

theorem taken (hst : Ready st) (h : Divides context env formals st parts st') :
    List.Forall₂ (fun formal part => Part formal part.1 part.2) formals parts ∧
      Taken st (tokensOf parts) st' := by
  induction h with
  | nil => exact ⟨.nil, .nil, .refl _, hst, rfl⟩
  | @cons _ _ st _ _ _ argument _ _ hactual hreads _ ih =>
    obtain ⟨argument', hpart, htaken⟩ := part_of_bindActual hst hactual
    obtain ⟨hparts, htaken'⟩ := ih htaken.ready
    obtain ⟨all, hall⟩ := hst.finite
    have hargument : argument' = argument :=
      List.append_cancel_right (htaken.reads.values_unique hreads hall)
    subst hargument
    exact ⟨.cons hpart hparts, htaken.trans hst htaken'⟩

/-- The parameters of a call divide what stands at the cursor. -/
theorem of_bindActuals {actuals : List (TextRef × Actual)} (hst : Ready st)
    (h : bindActuals evaluate env formals context st = .ok actuals st') :
    ∃ parts, Divides context env formals st parts st' := by
  induction formals generalizing st actuals with
  | nil =>
    cases h
    exact ⟨[], .nil⟩
  | cons formal formals ih =>
    obtain ⟨⟨actual, separator⟩, t, hactual, h⟩ := reader_bind_eq_ok_iff.mp h
    obtain ⟨u, v, hcheck, h⟩ := reader_bind_eq_ok_iff.mp h
    obtain ⟨rest, w, hrest, hpure⟩ := reader_bind_eq_ok_iff.mp h
    cases hpure
    obtain ⟨-, rfl⟩ := eq_of_checkSeparator hcheck
    obtain ⟨argument, -, htaken⟩ := part_of_bindActual hst hactual
    obtain ⟨parts, hparts⟩ := ih htaken.ready hrest
    exact ⟨_, .cons hactual htaken.reads hparts⟩

/-- As far as the parameters get when some of them are deferred, the division is the same, and what
comes next can be the next argument. -/
theorem defers (hst : Ready st) (h : Divides context env formals st parts st')
    (hnested : ∀ part ∈ parts, Nested part.1)
    (hdefers : List.Forall₂ Defers formals (front ++ back)) {t : EvalState}
    (h' : Divides context env front st found t) :
    ∃ behind rest, parts = found ++ behind ∧
      List.Forall₂ (fun formal part => Part formal part.1 part.2) back behind ∧
      t.store.Chain t.cursor (tokensOf behind ++ rest) := by
  obtain ⟨hparts, htaken⟩ := h.taken hst
  obtain ⟨hfound, htaken'⟩ := h'.taken hst
  obtain ⟨all, hall⟩ := hst.finite
  obtain ⟨rest, rfl, -⟩ := htaken.reads.split_of_chain hall
  obtain ⟨rest', hsplit, hrest'⟩ := htaken'.reads.split_of_chain hall
  have hboth := forall₂_part_defers hparts hnested hdefers
  have hfront := List.forall₂_take front.length hboth
  have hback := List.forall₂_drop front.length hboth
  rw [List.take_left] at hfront
  rw [List.drop_left] at hback
  have htokens : tokensOf parts =
      tokensOf (parts.take front.length) ++ tokensOf (parts.drop front.length) := by
    rw [← tokensOf_append, List.take_append_drop]
  rw [htokens, List.append_assoc] at hsplit
  have heq := eq_of_forall₂_part hfront hfound hsplit
  rw [heq] at hsplit
  refine ⟨parts.drop front.length, rest, ?_, hback, ?_⟩
  · rw [← heq, List.take_append_drop]
  · rw [List.append_cancel_left hsplit]
    exact hrest'.mono htaken'.grown

end Divides

end EvalM

section Capturing

open EvalM

/-- A term that can be evaluated and is properly nested is captured up to the separator behind it,
in a list of its own. So a call is divided into its arguments in the same way when some of its
parameters are deferred, however far it gets with the evaluation of the others, and the deferred
ones are bound when their cells and their slots are granted. -/
theorem captureArgument_divides_as_evaluate (context : EvalContext) (env : Environment) :
    (∀ st st' v argument rest separator, st.store.Layout →
      st.store.Chain st.cursor (argument ++ separatorToken separator :: rest) →
      evaluate env context st = .ok v st' → st.store.Reads st.cursor argument st'.cursor →
      Nested argument → st.store.Grants argument.length →
      ∃ l t, captureArgument context st = .ok (l, separator) t ∧ t.store.Chain l argument ∧
        st.store.NewList t.store l ∧
        st.store.Reads st.cursor (argument ++ [separatorToken separator]) t.cursor) ∧
    (∀ formals st st' actuals, Ready st →
      bindActuals evaluate env formals context st = .ok actuals st' →
      ∃ parts, Divides context env formals st parts st') ∧
    ∀ formals st st' parts, Ready st → Divides context env formals st parts st' →
      (∀ part ∈ parts, Nested part.1) →
      ∀ formals', List.Forall₂ Defers formals formals' →
        (∀ found t, Divides context env formals' st found t →
          found = parts ∧ t.cursor = st'.cursor) ∧
        ∀ front formal back found t, formals' = front ++ formal :: back →
          Divides context env front st found t →
          ∃ argument separator behind, parts = found ++ (argument, separator) :: behind ∧
            (formal.mode = .deferred → t.store.Grants argument.length →
              t.store.slots.size < Store.indexCount →
              ∃ actual u, bindActual evaluate env formal context t = .ok (actual, separator) u ∧
                t.store.Reads t.cursor (argument ++ [separatorToken separator]) u.cursor) := by
  refine ⟨?_, fun formals st st' actuals => Divides.of_bindActuals, ?_⟩
  · intro st st' v argument rest separator hs hc heval hreads hnested hcells
    obtain ⟨argument', hspan, htaken⟩ :=
      takes_evaluate_span st.depth env ⟨hs, _, hc⟩ rfl heval
    obtain rfl := htaken.reads.values_unique hreads hc
    obtain ⟨l, t, hcapture, hchain, hnew, -, htaken'⟩ :=
      captureArgument_of_isRun context hs hc (Span.isRun_argument hspan hnested separator) hcells
    exact ⟨l, t, hcapture, hchain, hnew, htaken'.reads⟩
  · intro formals st st' parts hst h hnested formals' hdefers
    constructor
    · intro found t h'
      rw [← List.append_nil formals'] at hdefers
      obtain ⟨behind, rest, hparts, hbehind, -⟩ := h.defers hst hnested hdefers h'
      cases hbehind
      rw [List.append_nil] at hparts
      subst hparts
      exact ⟨rfl, (h'.taken hst).2.reads.target_unique (h.taken hst).2.reads⟩
    · rintro front formal back found t rfl h'
      obtain ⟨behind, rest, hparts, hbehind, hc⟩ := h.defers hst hnested hdefers h'
      cases hbehind with
      | @cons _ part _ behind hpart _ =>
        obtain ⟨argument, separator⟩ := part
        refine ⟨argument, separator, behind, hparts, fun hmode hcells hindex => ?_⟩
        rw [tokensOf_cons, List.append_assoc, List.append_assoc] at hc
        obtain ⟨actual, u, hbound, htaken⟩ :=
          bindActual_of_part (h'.taken hst).2.ready.layout hc hpart hmode hcells hindex
        exact ⟨actual, u, hbound, htaken.reads⟩

/-- A condition in front of a comma, whose untaken branch is a group that holds a comma. -/
theorem captureArgument_divides_behind_group :
    let argument : List Value := [.keyword .cond, .number 1, .string ⟨0, 0⟩, .delimiter '(',
      .delimiter ',', .delimiter ')']
    let context : EvalContext := ⟨{ entries := #["a"] }, 4⟩
    Nested argument ∧ ∃ st, st.store.Layout ∧
      st.store.Chain st.cursor (argument ++ separatorToken .comma :: [.string ⟨0, 0⟩]) ∧
      st.store.Grants argument.length ∧
      (∃ v st', evaluate {} context st = .ok v st' ∧
        st.store.Reads st.cursor argument st'.cursor ∧
        ∃ l t, captureArgument context st = .ok (l, .comma) t ∧ t.store.Chain l argument) ∧
      ∃ st', Divides context {} [⟨.eager, ⟨0, 0⟩⟩] st [(argument, .comma)] st' ∧
        ∃ actual t, bindActual evaluate {} ⟨.deferred, ⟨0, 0⟩⟩ context st =
          .ok (actual, .comma) t := by
  intro argument context
  let tokens := argument ++ separatorToken .comma :: [.string ⟨0, 0⟩]
  let start (result : EStateM.Result StoreError Store ListRef) : EvalState :=
    ⟨stateOf result, .chain ⟨7, 0⟩, 0⟩
  generalize hresult : Store.ofList tokens (Store.new 8 none) = result
  have hlist : resultOf? result = some (.chain ⟨7, 0⟩) := by
    rw [← hresult]
    decide +kernel
  have hlimits : (start result).store.maxCells = none ∧ (start result).store.chunkSize = 8 ∧
      (start result).store.reserves 8 = true ∧ (start result).store.used = 8 ∧
      (start result).store.slots.size = 0 := by
    rw [← hresult]
    decide +kernel
  have hevaluates : succeeded (evaluate {} context (start result)) = true := by
    rw [← hresult]
    decide +kernel
  have hbinds :
      succeeded (bindActual evaluate {} ⟨.eager, ⟨0, 0⟩⟩ context (start result)) = true := by
    rw [← hresult]
    decide +kernel
  have hnew := Store.layout_new 8 none fitsBlock
  have hstored := hresult.trans (eq_ok_of_resultOf? hlist)
  have hs : (start result).store.Layout := Store.layout_of_ofList hnew hstored
  have hc : (start result).store.Chain (start result).cursor tokens :=
    Store.chain_of_ofList hnew hstored
  generalize start result = st at hlimits hevaluates hbinds hs hc
  have hst : Ready st := ⟨hs, _, hc⟩
  obtain ⟨hmaxCells, hchunkSize, hreserves, hused, hslots⟩ := hlimits
  have hcells : st.store.Grants argument.length := by
    intro i hi
    have hroom : 8 + i < Store.indexCount := Nat.lt_trans (Nat.add_lt_add_left hi 8) (by decide)
    rw [Store.refusalAt?, hmaxCells, hchunkSize, hused]
    exact Store.refusal?_eq_none_iff.mpr ⟨nofun, hroom, hreserves⟩
  have hindex : st.store.slots.size < Store.indexCount := by
    rw [hslots]
    decide
  have hnested : Nested argument := by decide
  let operands : List (List Value) :=
    [[.number 1], [.string ⟨0, 0⟩], [.delimiter '(', .delimiter ',', .delimiter ')']]
  have hspan : Span (.keyword .cond :: operands.flatten) := by
    refine .keyword rfl ?_
    simp only [operands, List.forall_mem_cons, List.not_mem_nil, false_implies, implies_true,
      and_true]
    exact ⟨.number, .string, .group rfl (.more rfl (.done rfl))⟩
  obtain ⟨hcapture, -, hdefers⟩ := captureArgument_divides_as_evaluate context {}
  refine ⟨hnested, st, hs, hc, hcells, ?_, ?_⟩
  · obtain ⟨v, st', heval⟩ := exists_of_succeeded hevaluates
    obtain ⟨argument', hspan', htaken⟩ := takes_evaluate_span st.depth {} hst rfl heval
    obtain ⟨rest, hsplit, -⟩ := htaken.reads.split_of_chain hc
    obtain rfl := Span.unique hspan hspan' hsplit
    obtain ⟨l, t, ht, hl, -, -⟩ :=
      hcapture st st' v argument _ .comma hs hc heval htaken.reads hnested hcells
    exact ⟨v, st', heval, htaken.reads, l, t, ht, hl⟩
  · obtain ⟨⟨actual, separator⟩, st', hactual⟩ := exists_of_succeeded hbinds
    obtain ⟨argument', hpart, htaken⟩ := part_of_bindActual hst hactual
    obtain ⟨rest, hsplit, -⟩ := htaken.reads.split_of_chain hc
    have hcomma : Part ⟨.eager, ⟨0, 0⟩⟩ argument .comma := hspan
    have heq : argument ++ [separatorToken .comma] ++ [.string ⟨0, 0⟩] =
        argument' ++ [separatorToken separator] ++ rest := hsplit
    obtain ⟨rfl, rfl⟩ := hcomma.unique hpart heq
    have hdivides : Divides context {} [⟨.eager, ⟨0, 0⟩⟩] st [(argument, .comma)] st' :=
      .cons hactual htaken.reads .nil
    have hboth : List.Forall₂ Defers [⟨.eager, ⟨0, 0⟩⟩] [⟨.deferred, ⟨0, 0⟩⟩] :=
      .cons (Or.inr rfl) .nil
    obtain ⟨-, hbound⟩ :=
      hdefers _ st st' _ hst hdivides (by simpa using hnested) _ hboth
    obtain ⟨argument', separator', behind, hparts, hcaptured⟩ :=
      hbound [] ⟨.deferred, ⟨0, 0⟩⟩ [] [] st rfl .nil
    cases hparts
    obtain ⟨deferred, t, ht, -⟩ := hcaptured rfl hcells hindex
    exact ⟨st', hdivides, deferred, t, ht⟩

end Capturing

end BraceLang
