import BraceLang.Proofs.Plain.Slots

/-!
# Evaluations with other tokens behind the term

An evaluation that succeeds does the same in front of other tokens: it takes the tokens of its term
and looks at no other ones. Apart from these tokens and the scope, its value depends on the slots
alone. The cells that are in use and the limits only decide whether it succeeds, so that the same
holds where there is room for as many cells and levels.

* `Limits.Room`: limits that let a number of cells be taken.
* `Plain.Carries`: what two actions have in common, the first of which succeeds.
* `Plain.carries_evaluateWithin`: evaluations carry over to other tokens and limits.
* `Plain.evaluate_append`: evaluating a term in front of other tokens.
-/

namespace BraceLang

/-- The number of levels that are left. -/
def Limits.levels (limits : Limits) : Nat := limits.maxDepth - limits.depth

/-- Where there are as many levels, one of them can be entered too, and as many are left in it. -/
theorem Limits.enter {limits limits' : Limits} (hlevels : limits.levels ≤ limits'.levels)
    (h : ¬ limits.maxDepth ≤ limits.depth) :
    ¬ limits'.maxDepth ≤ limits'.depth ∧ limits.deeper.levels ≤ limits'.deeper.levels := by
  unfold Limits.levels at *
  unfold Limits.deeper
  dsimp only
  omega

/-- So many cells can be taken when that many are in use. -/
def Limits.Room (limits : Limits) (used cells : Nat) : Prop :=
  ∀ i, i < cells → limits.refusal (used + i) = none

theorem Limits.Room.left {limits : Limits} {used cells cells' : Nat}
    (h : limits.Room used (cells + cells')) : limits.Room used cells := fun i hi => h i (by omega)

theorem Limits.Room.right {limits : Limits} {used cells cells' : Nat}
    (h : limits.Room used (cells + cells')) : limits.Room (used + cells) cells' := by
  intro i hi
  rw [Nat.add_assoc]
  exact h (cells + i) (by omega)

namespace CoreM

variable {α γ β : Type}

/-- When the first action succeeds, the second one has the same result and fills the slots in the
same way, with the same number of cells, wherever there is room for them and for as many levels. -/
def Carries (action action' : CoreM β α) : Prop :=
  ∀ ⦃limits core a core₁⦄, action limits core = .ok a core₁ →
    ∃ cells, core₁.used = core.used + cells ∧
      ∀ ⦃limits' used⦄, limits.levels ≤ limits'.levels → limits'.Room used cells →
        action' limits' ⟨used, core.slots⟩ = .ok a ⟨used + cells, core₁.slots⟩

namespace Carries

variable {action action' : CoreM β α}

theorem pure (a : α) : Carries (Pure.pure a : CoreM β α) (Pure.pure a) := by
  intro limits core a core₁ h
  cases h
  exact ⟨0, rfl, fun _ _ _ _ => rfl⟩

theorem throw (fault : Fault) : Carries (MonadExcept.throw fault : CoreM β α) action := by
  intro limits core a core₁ h
  cases h

theorem bind {f f' : α → CoreM β γ} (h : Carries action action')
    (hf : ∀ a, Carries (f a) (f' a)) : Carries (action >>= f) (action' >>= f') := by
  intro limits core b core₂ hrun
  obtain ⟨a, core₁, haction, hrest⟩ := reader_bind_eq_ok_iff.mp hrun
  obtain ⟨cells, hused, hcarry⟩ := h haction
  obtain ⟨cells', hused', hcarry'⟩ := hf a hrest
  refine ⟨cells + cells', by omega, fun limits' used hlevels hroom => ?_⟩
  rw [reader_bind_of_ok (hcarry hlevels hroom.left), hcarry' hlevels hroom.right, Nat.add_assoc]

theorem slots {f : Slots β → CoreM β α} (hf : ∀ slots, Carries (f slots) (f slots)) :
    Carries (MonadState.get >>= fun core : Core β => f core.slots)
      (MonadState.get >>= fun core : Core β => f core.slots) :=
  fun _ core _ _ hrun => hf core.slots hrun

theorem alloc : Carries (CoreM.alloc : CoreM β Unit) CoreM.alloc := by
  intro limits core a core₁ h
  unfold CoreM.alloc at h
  split at h
  · cases h
  · cases h
    refine ⟨1, rfl, fun limits' used _ hroom => ?_⟩
    have hgranted : limits'.refusal used = none := hroom 0 Nat.one_pos
    simp only [CoreM.alloc, hgranted]

theorem newSlot : Carries (CoreM.newSlot : CoreM β Nat) CoreM.newSlot := by
  intro limits core a core₁ h
  obtain ⟨hindex, rfl, rfl⟩ := newSlot_eq_ok_iff.mp h
  exact ⟨0, rfl, fun _ _ _ _ => newSlot_eq_ok_iff.mpr ⟨hindex, rfl, rfl⟩⟩

theorem fill (index : Nat) (value : Datum β) :
    Carries (CoreM.fill index value) (CoreM.fill index value) := by
  intro limits core a core₁ h
  cases h
  exact ⟨0, rfl, fun _ _ _ _ => rfl⟩

theorem of_basic (h : Basic action) : Carries action action := by
  induction h with
  | pure a => exact pure a
  | throw fault => exact throw fault
  | slots _ ih => exact slots ih
  | alloc => exact alloc
  | newSlot => exact newSlot
  | bind _ _ ih ihf => exact ih.bind ihf

end Carries

end CoreM

namespace Plain

open BraceLang.CoreM

/-! ## Parts of a token list -/

/-- What the part is does not depend on the tokens behind it. -/
def Cuts {α : Type} (part : Tokens → Except FormFault (α × Tokens)) : Prop :=
  ∀ ⦃tokens a rest⦄, part tokens = .ok (a, rest) →
    ∃ taken, tokens = taken ++ rest ∧ ∀ rest', part (taken ++ rest') = .ok (a, rest')

/-- A part that begins with a token, given what is done with the tokens behind it. -/
theorem Cuts.cons {α γ : Type} {part : Tokens → Except FormFault (α × Tokens)}
    {behind : Tokens → Except FormFault (γ × Tokens)} {f : γ → α} {token : Lexeme}
    {tokens rest : Tokens} {a : α}
    (hpart : ∀ rest, part (token :: rest) = behind rest >>= fun p => pure (f p.1, p.2))
    (ih : ∀ ⦃c : γ⦄, behind tokens = .ok (c, rest) →
      ∃ taken, tokens = taken ++ rest ∧ ∀ rest', behind (taken ++ rest') = .ok (c, rest'))
    (h : part (token :: tokens) = .ok (a, rest)) :
    ∃ taken, token :: tokens = taken ++ rest ∧ ∀ rest', part (taken ++ rest') = .ok (a, rest') := by
  rw [hpart] at h
  cases hbehind : behind tokens with
  | error fault =>
    rw [hbehind] at h
    cases h
  | ok p =>
    obtain ⟨c, left⟩ := p
    rw [hbehind] at h
    cases h
    obtain ⟨taken, rfl, htaken⟩ := ih hbehind
    refine ⟨token :: taken, rfl, fun rest' => ?_⟩
    rw [List.cons_append, hpart, htaken]
    rfl

theorem cuts_splitFormals (marked : Bool) : Cuts (splitFormals marked) := by
  intro tokens a rest h
  fun_induction splitFormals marked tokens generalizing a with
  | case1 => cases h
  | case2 =>
    cases h
    exact ⟨[.delimiter ':'], rfl, fun _ => rfl⟩
  | case3 behind ih =>
    obtain ⟨taken, rfl, htaken⟩ := ih h
    exact ⟨.delimiter '!' :: taken, rfl, htaken⟩
  | case4 marked name behind ih =>
    have hpart : ∀ rest, splitFormals marked (.atom name :: rest) =
        splitFormals false rest >>= fun p =>
          pure (⟨if marked then .deferred else .eager, name⟩ :: p.1, p.2) := by
      intro rest
      cases marked <;> rfl
    exact Cuts.cons hpart ih h
  | case5 => cases h

theorem cuts_splitBody (braces : Nat) : Cuts (splitBody braces) := by
  intro tokens a rest h
  fun_induction splitBody braces tokens generalizing a with
  | case1 => cases h
  | case2 =>
    cases h
    exact ⟨[.delimiter '\x7d'], rfl, fun _ => rfl⟩
  | case3 braces behind ih => exact Cuts.cons (fun rest => rfl) ih h
  | case4 braces behind ih => exact Cuts.cons (fun rest => rfl) ih h
  | case5 braces token behind hend hclose hopen ih =>
    have hpart : ∀ rest, splitBody braces (token :: rest) =
        splitBody braces rest >>= fun p => pure (token :: p.1, p.2) := by
      intro rest
      rw [splitBody]
      · exact hopen
      · exact hend
      · exact hclose
    exact Cuts.cons hpart ih ((hpart behind).trans h)

/-- A token ends a deferred argument, or the argument goes on behind it. -/
theorem splitOpen_cons (parens braces : Nat) (token : Lexeme) :
    (∃ separator, ∀ rest,
      splitOpen parens braces (token :: rest) = .ok (([], separator), rest)) ∨
    ∀ rest, splitOpen parens braces (token :: rest) =
      countOpen token parens braces >>= fun counts =>
        splitOpen counts.1 counts.2 rest >>= fun p => pure ((token :: p.1.1, p.1.2), p.2) := by
  by_cases hend : (separator? token).isSome ∧ parens = 0 ∧ braces = 0
  · obtain ⟨hsome, rfl, rfl⟩ := hend
    obtain ⟨separator, hseparator⟩ := Option.isSome_iff_exists.mp hsome
    exact .inl ⟨separator, fun rest => by simp [splitOpen, hseparator]⟩
  · refine .inr fun rest => ?_
    rw [splitOpen]
    rintro separator hseparator rfl rfl
    exact hend ⟨Option.isSome_of_eq_some hseparator, rfl, rfl⟩

theorem cuts_splitOpen (parens braces : Nat) : Cuts (splitOpen parens braces) := by
  intro tokens a rest h
  induction tokens generalizing parens braces a with
  | nil => cases h
  | cons token behind ih =>
    rcases splitOpen_cons parens braces token with ⟨separator, hend⟩ | hinside
    · rw [hend] at h
      cases h
      exact ⟨[token], rfl, hend⟩
    · cases hcount : countOpen token parens braces with
      | error fault =>
        rw [hinside, hcount] at h
        cases h
      | ok counts =>
        have hpart : ∀ rest, splitOpen parens braces (token :: rest) =
            splitOpen counts.1 counts.2 rest >>= fun p =>
              pure ((token :: p.1.1, p.1.2), p.2) := by
          intro rest
          rw [hinside, hcount]
          rfl
        exact Cuts.cons (f := fun argument => (token :: argument.1, argument.2)) hpart
          (fun a h => ih counts.1 counts.2 h) h

theorem cuts_splitArgument : Cuts splitArgument := by
  have hsome : ∀ {tokens first argument separator rest},
      splitArgument tokens = .ok ((first :: argument, separator), rest) ↔
        splitOpen 0 0 tokens = .ok ((first :: argument, separator), rest) := by
    intro tokens first argument separator rest
    unfold splitArgument
    split
    · rename_i hnone
      simp [hnone]
    · rfl
  intro tokens a rest h
  obtain ⟨argument, separator⟩ := a
  cases argument with
  | nil =>
    unfold splitArgument at h
    split at h
    · cases h
    · rename_i hne
      exact absurd h (hne _ _)
  | cons first argument =>
    obtain ⟨taken, rfl, htaken⟩ := cuts_splitOpen 0 0 (hsome.mp h)
    exact ⟨taken, rfl, fun rest' => hsome.mpr (htaken rest')⟩

theorem cuts_splitGroups (due : List Char) : Cuts (splitGroups due) := by
  have hskip : ∀ {due due' : List Char} {token : Lexeme} {behind rest : Tokens} {u : Unit},
      (∀ rest, splitGroups due (token :: rest) = splitGroups due' rest) →
      (∃ taken, behind = taken ++ rest ∧
        ∀ rest', splitGroups due' (taken ++ rest') = .ok (u, rest')) →
      ∃ taken, token :: behind = taken ++ rest ∧
        ∀ rest', splitGroups due (taken ++ rest') = .ok (u, rest') := by
    rintro due due' token behind rest u hstep ⟨taken, rfl, htaken⟩
    exact ⟨token :: taken, rfl, fun rest' => (hstep _).trans (htaken rest')⟩
  intro tokens u rest h
  fun_induction splitGroups due tokens with
  | case1 =>
    cases h
    exact ⟨[], rfl, fun rest' => by simp [splitGroups]⟩
  | case2 => cases h
  | case3 closer outer behind ih => exact hskip (fun _ => rfl) (ih h)
  | case4 closer outer behind ih => exact hskip (fun _ => rfl) (ih h)
  | case5 outer behind ih => exact hskip (fun _ => rfl) (ih h)
  | case6 => cases h
  | case7 outer behind ih => exact hskip (fun _ => rfl) (ih h)
  | case8 => cases h
  | case9 closer outer token behind hparenthesis hbrace hclose hclosebrace ih =>
    refine hskip (fun rest => ?_) (ih h)
    rw [splitGroups]
    · exact hparenthesis
    · exact hbrace
    · exact hclose
    · exact hclosebrace

/-! ## Actions on tokens -/

variable {α γ : Type}

/-- When the first action succeeds, it takes so many tokens or more, and the second one has the
same result on the same tokens with others behind them, wherever there is room for it. -/
def Carries (least : Nat) (action action' : TokenM α) : Prop :=
  ∀ ⦃tokens limits core a rest core₁⦄, action tokens limits core = .ok (a, rest) core₁ →
    ∃ taken cells, tokens = taken ++ rest ∧ least ≤ taken.length ∧
      core₁.used = core.used + cells ∧
      ∀ ⦃rest' limits' used⦄, limits.levels ≤ limits'.levels → limits'.Room used cells →
        action' (taken ++ rest') limits' ⟨used, core.slots⟩ =
          .ok (a, rest') ⟨used + cells, core₁.slots⟩

namespace Carries

variable {action action' : TokenM α} {n k : Nat}

theorem mono (h : Carries n action action') (hle : k ≤ n) : Carries k action action' := by
  intro tokens limits core a rest core₁ hrun
  obtain ⟨taken, cells, htokens, hlength, hrest⟩ := h hrun
  exact ⟨taken, cells, htokens, Nat.le_trans hle hlength, hrest⟩

theorem lift {action action' : CoreM Tokens α} (h : CoreM.Carries action action') :
    Carries 0 action.lift action'.lift := by
  intro tokens limits core a rest core₁ hrun
  obtain ⟨haction, rfl⟩ := ReadM.lift_eq_ok_iff.mp hrun
  obtain ⟨cells, hused, hcarry⟩ := h haction
  exact ⟨[], cells, rfl, Nat.le_refl 0, hused, fun rest' limits' used hlevels hroom =>
    ReadM.lift_eq_ok_iff.mpr ⟨hcarry hlevels hroom, rfl⟩⟩

theorem bind {f f' : α → TokenM γ} (h : Carries n action action')
    (hf : ∀ a, Carries k (f a) (f' a)) : Carries (n + k) (action >>= f) (action' >>= f') := by
  intro tokens limits core c rest core₂ hrun
  obtain ⟨a, behind, core₁, haction, hrest⟩ := ReadM.bind_eq_ok_iff.mp hrun
  obtain ⟨taken, cells, rfl, hlength, hused, hcarry⟩ := h haction
  obtain ⟨taken', cells', rfl, hlength', hused', hcarry'⟩ := hf a hrest
  refine ⟨taken ++ taken', cells + cells', (List.append_assoc _ _ _).symm, ?_, by omega, ?_⟩
  · rw [List.length_append]
    omega
  · intro rest' limits' used hlevels hroom
    rw [List.append_assoc, ← Nat.add_assoc]
    exact ReadM.bind_eq_ok_iff.mpr ⟨a, _, _, hcarry hlevels hroom.left,
      hcarry' hlevels hroom.right⟩

theorem bind_then {f f' : α → TokenM γ} (h : Carries n action action')
    (hf : ∀ a, Carries 0 (f a) (f' a)) : Carries n (action >>= f) (action' >>= f') := h.bind hf

theorem split {part : Tokens → Except FormFault (α × Tokens)} (h : Cuts part) :
    Carries 0 (Plain.split part) (Plain.split part) := by
  intro tokens limits core a rest core₁ hrun
  unfold Plain.split at hrun
  cases hpart : part tokens with
  | error fault =>
    rw [hpart] at hrun
    cases hrun
  | ok result =>
    rw [hpart] at hrun
    cases hrun
    obtain ⟨taken, rfl, htaken⟩ := h hpart
    refine ⟨taken, 0, rfl, Nat.zero_le _, rfl, fun rest' limits' used _ _ => ?_⟩
    unfold Plain.split
    rw [htaken]
    rfl

theorem next (atEnd : FormFault) : Carries 1 (Plain.next atEnd) (Plain.next atEnd) := by
  intro tokens limits core token rest core₁ hrun
  cases tokens with
  | nil => cases hrun
  | cons first behind =>
    cases hrun
    exact ⟨[token], 0, rfl, Nat.le_refl 1, rfl, fun _ _ _ _ _ => rfl⟩

theorem expect (delimiter : Char) :
    Carries 1 (Plain.expect delimiter) (Plain.expect delimiter) := by
  intro tokens limits core u rest core₁ hrun
  cases tokens with
  | nil => cases hrun
  | cons first behind =>
    cases hfirst : first.isDelimiter delimiter with
    | false =>
      simp only [Plain.expect, hfirst] at hrun
      cases hrun
    | true =>
      simp only [Plain.expect, hfirst] at hrun
      cases hrun
      refine ⟨[first], 0, rfl, Nat.le_refl 1, rfl, fun _ _ _ _ _ => ?_⟩
      simp only [List.cons_append, Plain.expect, hfirst]
      rfl

theorem separator : Carries 1 Plain.separator Plain.separator := by
  intro tokens limits core found rest core₁ hrun
  cases tokens with
  | nil => cases hrun
  | cons first behind =>
    cases hfirst : separator? first with
    | none =>
      simp only [Plain.separator, hfirst] at hrun
      cases hrun
    | some separator =>
      simp only [Plain.separator, hfirst] at hrun
      cases hrun
      refine ⟨[first], 0, rfl, Nat.le_refl 1, rfl, fun _ _ _ _ _ => ?_⟩
      simp only [List.cons_append, Plain.separator, hfirst]
      rfl

theorem of_step (h : Step action) : Carries 0 action action := by
  induction h with
  | lift h => exact lift (.of_basic h)
  | next atEnd => exact (next atEnd).mono (Nat.zero_le 1)
  | expect delimiter => exact (expect delimiter).mono (Nat.zero_le 1)
  | separator => exact separator.mono (Nat.zero_le 1)
  | formals => exact split (cuts_splitFormals false)
  | body => exact split (cuts_splitBody 0)
  | argument => exact split cuts_splitArgument
  | groups due => exact split (cuts_splitGroups due)
  | bind _ _ ih ihf => exact ih.bind ihf

/-- Without any level left there is nothing to carry over. -/
theorem tooDeep (action : TokenM α) : Carries n CoreM.tooDeep.lift action := by
  intro tokens limits core a rest core₁ hrun
  cases hrun

theorem nested (h : Carries n action action') :
    Carries n (ReadM.nested action) (ReadM.nested action') := by
  intro tokens limits core a rest core₁ hrun
  unfold ReadM.nested CoreM.nested at hrun
  by_cases hdeep : limits.maxDepth ≤ limits.depth
  · rw [if_pos hdeep] at hrun
    cases hrun
  · rw [if_neg hdeep] at hrun
    obtain ⟨taken, cells, htokens, hlength, hused, hcarry⟩ := h hrun
    refine ⟨taken, cells, htokens, hlength, hused, fun rest' limits' used hlevels hroom => ?_⟩
    obtain ⟨hdeep', hdeeper⟩ := Limits.enter hlevels hdeep
    unfold ReadM.nested CoreM.nested
    rw [if_neg hdeep']
    exact hcarry hdeeper hroom

theorem congruence : Congruence fun action action' => Carries 0 action action' where
  step := of_step
  bind := bind

end Carries

/-! ## Calls -/

theorem sequential_carries : Sequential CoreM.Carries where
  basic := .of_basic
  bind := .bind

section Calls

variable {eval eval' : Scope Tokens → TokenM (Datum Tokens)}
  (he : ∀ scope, Carries 1 (eval scope) (eval' scope))
include he

/-- Tokens of their own are taken as they are. -/
theorem related_carries (scope : Scope Tokens) :
    Related CoreM.Carries (eval scope) (eval' scope) := by
  intro tokens limits core result core₁ hrun
  obtain ⟨taken, cells, rfl, -, hused, hcarry⟩ := he scope hrun
  exact ⟨cells, hused, fun limits' used hlevels hroom => hcarry hlevels hroom⟩

theorem carries_call (scope : Scope Tokens) (params : List Param) (body : Tokens)
    (defining : Scope Tokens) :
    Carries 0 (call eval scope params body defining) (call eval' scope params body defining) := by
  have hR := sequential_carries
  have hrelated := related_carries he
  have hterms : ∀ scope, Carries 0 (eval scope) (eval' scope) := fun scope =>
    (he scope).mono (Nat.zero_le 1)
  unfold call
  split
  · exact (Carries.of_step (.expect _)).bind_then fun _ =>
      .lift (hR.runBody hrelated defining body)
  · refine (Carries.congruence.bindActuals hterms scope params).bind_then fun actuals => ?_
    refine (Carries.of_step (.lift (basic_extend defining actuals))).bind_then fun inner => ?_
    exact (Carries.lift (hR.settleAll hrelated .fill inner actuals)).bind_then fun _ =>
      .lift (hR.runBody hrelated inner body)

/-- The function is a term, so that a call takes a token or more. -/
theorem carries_function (scope : Scope Tokens) :
    Carries 1 (application.function eval scope) (application.function eval' scope) := by
  refine (he scope).bind_then fun value => ?_
  cases value with
  | closure params body defining => exact carries_call he scope params body defining
  | number x => exact .of_step (.notAFunction _)
  | string text => exact .of_step (.notAFunction _)
  | list items => exact .of_step (.notAFunction _)

/-! ## Terms -/

omit he in
theorem application_eq_function {skip : TokenM Unit} {scope : Scope Tokens} {token : Lexeme}
    (h : ∀ op, token ≠ .keyword op) (rest : Tokens) :
    application eval skip scope (token :: rest) =
      application.function eval scope (token :: rest) := by
  cases token with
  | keyword op => exact absurd rfl (h op)
  | _ => rfl

variable {skip skip' : TokenM Unit}

/-- A call looks at a token before it takes one, but the token belongs to the function. -/
theorem carries_application (hs : Carries 0 skip skip') (scope : Scope Tokens) :
    Carries 0 (application eval skip scope) (application eval' skip' scope) := by
  intro tokens limits core value rest core₁ hrun
  cases tokens with
  | nil => cases hrun
  | cons token behind =>
    by_cases hkeyword : ∃ op, token = .keyword op
    · obtain ⟨op, rfl⟩ := hkeyword
      have hoperand : Carries 0 (eval scope) (eval' scope) := (he scope).mono (Nat.zero_le 1)
      have hoperation : Carries 0 (application.operation eval skip scope op)
          (application.operation eval' skip' scope op) :=
        (Carries.congruence.applyKeyword hoperand hs op).nested.bind_then fun value =>
          .of_step ((Step.expect _).bind fun _ => .pure value)
      obtain ⟨taken, cells, rfl, -, hcarry⟩ := hoperation hrun
      exact ⟨.keyword op :: taken, cells, rfl, Nat.zero_le _, hcarry⟩
    · have hfunction : ∀ op, token ≠ .keyword op := fun op hop => hkeyword ⟨op, hop⟩
      rw [application_eq_function hfunction] at hrun
      obtain ⟨taken, cells, htokens, hlength, hused, hcarry⟩ := carries_function he scope hrun
      cases taken with
      | nil => cases hlength
      | cons first taken =>
        obtain ⟨rfl, rfl⟩ := List.cons.inj htokens
        refine ⟨token :: taken, cells, rfl, Nat.zero_le _, hused, ?_⟩
        intro rest' limits' used hlevels hroom
        rw [List.cons_append, application_eq_function hfunction]
        exact hcarry hlevels hroom

theorem carries_termWith (hs : Carries 0 skip skip') (scope : Scope Tokens) :
    Carries 1 (termWith eval skip scope) (termWith eval' skip' scope) := by
  have hoperand : Carries 0 (eval scope) (eval' scope) := (he scope).mono (Nat.zero_le 1)
  refine (Carries.next _).bind_then fun token => ?_
  split
  · exact .of_step (.pure _)
  · exact .of_step (.pure _)
  · exact .of_step (.lift (basic_lookupName _ _))
  · exact Carries.congruence.applyKeyword hoperand hs _
  · exact .of_step (.closure scope)
  · exact carries_application he hs scope
  · exact .of_step (.unexpected _)

end Calls

theorem carries_skipWithin {levels levels' : Nat} (h : levels ≤ levels') :
    Carries 0 (skipWithin levels) (skipWithin levels') := by
  induction levels generalizing levels' with
  | zero => exact .tooDeep _
  | succ levels ih =>
    obtain ⟨levels', rfl⟩ := Nat.exists_eq_add_one_of_ne_zero (by omega : levels' ≠ 0)
    exact (Carries.congruence.skipWith (ih (by omega))).nested

theorem carries_evaluateWithin {levels levels' : Nat} (h : levels ≤ levels')
    (scope : Scope Tokens) :
    Carries 1 (evaluateWithin levels scope) (evaluateWithin levels' scope) := by
  induction levels generalizing levels' scope with
  | zero => exact .tooDeep _
  | succ levels ih =>
    obtain ⟨levels', rfl⟩ := Nat.exists_eq_add_one_of_ne_zero (by omega : levels' ≠ 0)
    have hlevels : levels ≤ levels' := by omega
    exact (carries_termWith (ih hlevels) (carries_skipWithin hlevels) scope).nested

/-- A term has the same value in front of other tokens, where there is room for its cells and
levels. -/
theorem evaluate_append {scope : Scope Tokens} {tokens rest : Tokens} {limits : Limits}
    {core core₁ : Core Tokens} {value : Datum Tokens}
    (h : evaluate scope tokens limits core = .ok (value, rest) core₁) :
    ∃ taken cells, tokens = taken ++ rest ∧ core₁.used = core.used + cells ∧
      ∀ ⦃rest' limits' used⦄, limits.levels ≤ limits'.levels → limits'.Room used cells →
        evaluate scope (taken ++ rest') limits' ⟨used, core.slots⟩ =
          .ok (value, rest') ⟨used + cells, core₁.slots⟩ := by
  obtain ⟨taken, cells, htokens, -, hused, -⟩ :=
    carries_evaluateWithin (Nat.le_refl limits.levels) scope h
  refine ⟨taken, cells, htokens, hused, fun rest' limits' used hlevels hroom => ?_⟩
  obtain ⟨taken', cells', htokens', -, hused', hcarry⟩ :=
    carries_evaluateWithin hlevels scope h
  obtain rfl := List.append_cancel_right (htokens.symm.trans htokens')
  obtain rfl : cells = cells' := by omega
  exact hcarry hlevels hroom

end Plain

end BraceLang
