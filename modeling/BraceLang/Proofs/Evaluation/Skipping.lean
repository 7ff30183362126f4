import BraceLang.Proofs.Evaluation.Taking

/-!
# Skipping and evaluating

Evaluation finds the end of a term by evaluating it, skipping by following a stack of closing
delimiters. Where an evaluation succeeds and the delimiters of the tokens that it took are properly
nested, skipping takes the same tokens, with the same levels of depth. Where they are not, skipping
fails for the form of the program, and not for want of levels.

* `EvalM.skips_skipWithin`: what skipping does on an extent.
* `skipTerm_agrees_with_evaluate`: the statement for terms and for the operands of keywords.
-/

namespace BraceLang

namespace EvalM

variable {context : EvalContext} {st : EvalState}

/-- The action passes the tokens if they are properly nested, and fails for the form of the program
if they stop every skipping. -/
def Skips (m : EvalM Unit) (context : EvalContext) (st : EvalState) (tokens : List Value) : Prop :=
  (Nested tokens ∧ ∃ cursor, st.store.Reads st.cursor tokens cursor ∧
      m context st = .ok () { st with cursor }) ∨
    (Clashes tokens ∧ ∃ fault st', m context st = .error (.badSyntax fault) st')

theorem Skips.nil : Skips (pure ()) context st [] := Or.inl ⟨.nil, st.cursor, .nil, rfl⟩

/-- Two actions one after the other. -/
theorem Skips.bind {m m' : EvalM Unit} {tokens tokens' : List Value}
    (hm : Skips m context st tokens)
    (hm' : ∀ cursor, st.store.Reads st.cursor tokens cursor →
      Skips m' context { st with cursor } tokens') :
    Skips (m >>= fun _ => m') context st (tokens ++ tokens') := by
  rcases hm with ⟨hnested, cursor, hreads, hok⟩ | ⟨hclash, fault, st', herror⟩
  · rcases hm' cursor hreads with ⟨hnested', cursor', hreads', hok'⟩ | ⟨hclash', fault, st', herror⟩
    · refine Or.inl ⟨hnested.append hnested', cursor', hreads.append hreads', ?_⟩
      rw [reader_bind_of_ok hok]
      exact hok'
    · refine Or.inr ⟨Clashes.append_right hnested hclash', fault, st', ?_⟩
      rw [reader_bind_of_ok hok]
      exact herror
  · exact Or.inr ⟨hclash.append_left _, fault, st', reader_bind_of_error herror⟩

theorem Skips.nested {m : EvalM Unit} {tokens : List Value} (hdepth : st.depth < context.maxDepth)
    (hm : Skips m context { st with depth := st.depth + 1 } tokens) :
    Skips (EvalM.nested m) context st tokens := by
  obtain ⟨store, cursor, depth⟩ := st
  have hlevel : ¬ context.maxDepth ≤ depth := Nat.not_le.mpr hdepth
  rcases hm with ⟨hnested, cursor', hreads, hok⟩ | ⟨hclash, fault, st', herror⟩
  · refine Or.inl ⟨hnested, cursor', hreads, ?_⟩
    simp only at hok
    simp only [EvalM.nested, if_neg hlevel, hok, Nat.add_sub_cancel]
  · refine Or.inr ⟨hclash, fault, { st' with depth := st'.depth - 1 }, ?_⟩
    simp only at herror
    simp only [EvalM.nested, if_neg hlevel, herror]

/-- Terms in a row. -/
theorem Skips.times {skip : EvalM Unit} {parts : List (List Value)} {rest : List Value}
    (hc : st.store.Chain st.cursor (parts.flatten ++ rest))
    (h : ∀ part ∈ parts, ∀ cursor rest, st.store.Chain cursor (part ++ rest) →
      Skips skip context { st with cursor } part) :
    Skips (EvalM.times parts.length skip) context st parts.flatten := by
  induction parts generalizing st with
  | nil => exact Skips.nil
  | cons part parts ih =>
    rw [List.flatten_cons, List.append_assoc] at hc
    have hpart := h part List.mem_cons_self st.cursor _ hc
    rw [List.flatten_cons]
    refine Skips.bind hpart fun cursor hreads => ?_
    have hrest : ({ st with cursor } : EvalState).store.Chain
        ({ st with cursor } : EvalState).cursor (parts.flatten ++ rest) := hreads.chain_append hc
    exact ih hrest fun p hp => h p (List.mem_cons_of_mem _ hp)

/-- The same for the tokens behind another one, which has been taken before. -/
def SkipsBehind (first : Value) (m : EvalM Unit) (context : EvalContext) (st : EvalState)
    (tokens : List Value) : Prop :=
  (Nested (first :: tokens) ∧ ∃ cursor, st.store.Reads st.cursor tokens cursor ∧
      m context st = .ok () { st with cursor }) ∨
    (Clashes (first :: tokens) ∧ ∃ fault st', m context st = .error (.badSyntax fault) st')

theorem Skips.behind {m : EvalM Unit} {tokens : List Value} {first : Value}
    (hfirst : first.role = .plain) (h : Skips m context st tokens) :
    SkipsBehind first m context st tokens := by
  have hnested : Nested [first] := Nested.of_plain (by simp [hfirst])
  rcases h with ⟨hn, hok⟩ | ⟨hc, herror⟩
  · exact Or.inl ⟨hnested.append hn, hok⟩
  · exact Or.inr ⟨Clashes.append_right hnested hc, herror⟩

theorem Skips.of_next {atEnd : SyntaxFault} {f : Value → EvalM Unit} {first : Value}
    {tokens rest : List Value} (hc : st.store.Chain st.cursor (first :: tokens ++ rest))
    (h : ∀ cursor, st.store.Chain cursor (tokens ++ rest) →
      SkipsBehind first (f first) context { st with cursor } tokens) :
    Skips (next atEnd >>= f) context st (first :: tokens) := by
  obtain ⟨cursor, hnext, hreads⟩ := next_of_cons context hc atEnd
  rcases h cursor (hreads.chain_of_cons hc) with
    ⟨hn, cursor', hreads', hok⟩ | ⟨hclash, fault, st', herror⟩
  · refine Or.inl ⟨hn, cursor', hreads.append hreads', ?_⟩
    rw [reader_bind_of_ok hnext]
    exact hok
  · refine Or.inr ⟨hclash, fault, st', ?_⟩
    rw [reader_bind_of_ok hnext]
    exact herror

/-- A group behind its opening delimiter. -/
theorem skipsBehind_of_closes {opening : Value} {closer : Char} {tokens rest : List Value}
    (hs : st.store.Layout) (hopening : opening.role = .opens closer)
    (hc : st.store.Chain st.cursor (tokens ++ rest)) (hcloses : Closes tokens [closer]) :
    SkipsBehind opening (consume (fun run => .closerExpected run.closer) groupStep { closer })
      context st tokens := by
  have hrun : takeRun (fun run : GroupRun => .closerExpected run.closer) groupStep { closer }
      (tokens ++ rest) = closeGroups (tokens ++ rest) [closer] := rfl
  rcases hcloses with ⟨hfold, hpass⟩ | hfault
  · have hok := hrun.trans (hpass [] rest)
    obtain ⟨taken, cursor, hsplit, hreads, hconsume⟩ := consume_of_takeRun context hs hc hok
    cases List.append_cancel_right hsplit
    exact Or.inl ⟨Nested.of_opens hopening hfold, cursor, hreads, hconsume⟩
  · obtain ⟨fault, herror⟩ := hfault [] rest
    obtain ⟨cursor, hconsume⟩ := consume_of_takeRun_error context hs hc (hrun.trans herror)
    exact Or.inr ⟨Clashes.of_opens hopening hfault, fault, _, hconsume⟩

/-- Skipping on an extent. -/
theorem skips_skipWithin {levels : Nat} {tokens rest : List Value} (hextent : Extent levels tokens)
    (hs : st.store.Layout) (hc : st.store.Chain st.cursor (tokens ++ rest))
    (hlevels : levels ≤ context.maxDepth - st.depth) :
    Skips (skipWithin levels) context st tokens := by
  induction hextent generalizing st rest with
  | number =>
    refine Skips.nested (by omega) (Skips.of_next hc fun cursor _ => ?_)
    exact Skips.behind rfl Skips.nil
  | string =>
    refine Skips.nested (by omega) (Skips.of_next hc fun cursor _ => ?_)
    exact Skips.behind rfl Skips.nil
  | atom =>
    refine Skips.nested (by omega) (Skips.of_next hc fun cursor _ => ?_)
    exact Skips.behind rfl Skips.nil
  | @keyword levels op operands hlength _ ih =>
    refine Skips.nested (by omega) (Skips.of_next hc fun cursor hchain => Skips.behind rfl ?_)
    show Skips (EvalM.times op.arity (skipWithin levels)) context _ operands.flatten
    rw [← hlength]
    refine Skips.times hchain fun operand hmem cursor' rest' hc' => ?_
    exact ih operand hmem hs hc' (by simp only; omega)
  | @group levels opening closer tokens hopening hcloses =>
    refine Skips.nested (by omega) (Skips.of_next hc fun cursor hchain => ?_)
    rcases eq_of_role_opens hopening with ⟨rfl, rfl⟩ | ⟨rfl, rfl⟩
    · exact skipsBehind_of_closes hs rfl hchain hcloses
    · exact skipsBehind_of_closes hs rfl hchain hcloses

end EvalM

/-! ## Terms and operands -/

section Agreement

open EvalM

variable {context : EvalContext} {st : EvalState} {depth : Nat}

theorem takes_evaluate (env : Environment) :
    Takes context depth (evaluate env) (extents (context.maxDepth - depth)) := by
  rintro st st' value hst rfl h
  exact takes_evaluateWithin _ _ env hst rfl h

theorem takes_skipTerm : Takes context depth skipTerm (extents (context.maxDepth - depth)) := by
  rintro st st' value hst rfl h
  exact takes_skipWithin _ _ hst rfl h

/-- The action passes the tokens up to the cursor if they are properly nested, and otherwise fails
for the form of the program. -/
def PassesTo (skip : EvalM Unit) (context : EvalContext) (st : EvalState) (cursor : ListRef) :
    Prop :=
  ∃ tokens, st.store.Reads st.cursor tokens cursor ∧
    (Nested tokens → skip context st = .ok () { st with cursor }) ∧
    (¬ Nested tokens → ∃ fault st', skip context st = .error (.badSyntax fault) st')

theorem passesTo_of_skips {skip : EvalM Unit} {tokens : List Value} {cursor : ListRef}
    (hreads : st.store.Reads st.cursor tokens cursor) (h : Skips skip context st tokens) :
    PassesTo skip context st cursor := by
  refine ⟨tokens, hreads, fun hnested => ?_, fun hnot => ?_⟩
  · rcases h with ⟨-, cursor', hreads', hok⟩ | ⟨hclash, -⟩
    · rwa [hreads.target_unique hreads']
    · exact absurd hnested hclash.not_nested
  · rcases h with ⟨hnested, -⟩ | ⟨-, herror⟩
    · exact absurd hnested hnot
    · exact herror

/-- Skipping agrees with evaluating: a term that is evaluated with success can be skipped in front
of it to the same place, at the same depth, exactly if its delimiters are properly nested. The
operands of a keyword are as many terms as its arity, and are skipped as such. -/
theorem skipTerm_agrees_with_evaluate (hs : st.store.Layout)
    (hc : ∃ tokens, st.store.Chain st.cursor tokens) :
    (∀ env value st', evaluate env context st = .ok value st' →
      PassesTo skipTerm context st st'.cursor) ∧
    ∀ op env value st', invoke op env context st = .ok value st' →
      PassesTo (times op.arity skipTerm) context st st'.cursor ∧
      ∃ operands : List (List Value), operands.length = op.arity ∧
        (∀ operand ∈ operands, Extent (context.maxDepth - st.depth) operand) ∧
        st.store.Reads st.cursor operands.flatten st'.cursor := by
  have hst : Ready st := ⟨hs, hc⟩
  constructor
  · intro env value st' h
    obtain ⟨tokens, hextent, htaken⟩ := takes_evaluate env hst rfl h
    obtain ⟨all, hall⟩ := hc
    obtain ⟨rest, rfl, -⟩ := htaken.reads.split_of_chain hall
    refine passesTo_of_skips htaken.reads ?_
    exact skips_skipWithin hextent hs hall (Nat.le_refl _)
  · intro op env value st' h
    obtain ⟨tokens, hmem, htaken⟩ :=
      takes_applyKeyword (takes_evaluate env) takes_skipTerm op hst rfl h
    obtain ⟨parts, rfl, hlength, hparts⟩ := Language.mem_pow.mp hmem
    obtain ⟨all, hall⟩ := hc
    obtain ⟨rest, rfl, -⟩ := htaken.reads.split_of_chain hall
    refine ⟨passesTo_of_skips htaken.reads ?_, parts, hlength, hparts, htaken.reads⟩
    rw [← hlength]
    refine Skips.times hall fun part hpart cursor rest' hcursor => ?_
    exact skips_skipWithin (hparts part hpart) hs hcursor (Nat.le_refl _)

/-- A closure with an open parenthesis in its body is evaluated, but cannot be skipped. -/
theorem skipTerm_agrees_on_open_body :
    let tokens : List Value := [.delimiter '{', .delimiter ':', .delimiter '(', .delimiter '}']
    let st : EvalState := ⟨stateOf (Store.ofList tokens (Store.new 8 none)), .chain ⟨3, 0⟩, 0⟩
    (∃ value st', evaluate {} ⟨{}, 2⟩ st = .ok value st' ∧
      PassesTo skipTerm ⟨{}, 2⟩ st st'.cursor) ∧ ¬ Nested tokens := by
  intro tokens st
  have hnew := Store.layout_new 8 none fitsBlock
  have hstored : Store.ofList tokens (Store.new 8 none) = .ok (.chain ⟨3, 0⟩) st.store := rfl
  have hs : st.store.Layout := Store.layout_of_ofList hnew hstored
  have hc : st.store.Chain st.cursor tokens := Store.chain_of_ofList hnew hstored
  have hok : succeeded (evaluate {} ⟨{}, 2⟩ st) = true := by decide +kernel
  obtain ⟨value, st', heval⟩ := exists_of_succeeded hok
  refine ⟨⟨value, st', heval, ?_⟩, by decide⟩
  exact (skipTerm_agrees_with_evaluate hs ⟨tokens, hc⟩).1 {} value st' heval

end Agreement

end BraceLang
