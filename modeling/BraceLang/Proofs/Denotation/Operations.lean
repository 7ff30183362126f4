import BraceLang.Proofs.Denotation.Splitting

/-!
# Simulation of single tokens and keywords

An operand is read on the memory as on data when it is so from every state of a memory that has
everything an earlier one had, `SimulatesFrom`. Then the operation of a keyword is too.

* `simulates_next`, `simulates_expect`, `simulates_separator`: single tokens.
* `simulates_applyKeyword`: the operations of keywords.
-/

namespace BraceLang

open Plain

/-! ## Kinds of values -/

namespace Memory

variable {m : Memory} {v : Value} {d : Datum Tokens}

theorem Denotes.cases (h : m.Denotes v d) : m.DenotesWith (m.DenotesWithin m.store.used) v d := h

theorem Denotes.number?_eq (h : m.Denotes v d) : v.number? = d.number? := by
  cases h.cases <;> rfl

theorem Denotes.typeName_eq (h : m.Denotes v d) : v.typeName = d.typeName := by
  cases h.cases <;> rfl

theorem denotes_ofBool (m : Memory) (flag : Bool) : m.Denotes (.ofBool flag) (.ofBool flag) :=
  .number

/-- A list that stands for the items. -/
def DenotesList (m : Memory) (l : ListRef) (items : List (Datum Tokens)) : Prop :=
  m.Denotes (.list l) (.list items)

theorem denotesList_iff {l : ListRef} {items : List (Datum Tokens)} :
    m.DenotesList l items ↔ ∃ values, m.store.Chain l values ∧
      List.Forall₂ (m.DenotesWithin m.store.used) values items := by
  constructor
  · intro h
    cases Denotes.cases h with
    | list hchain hitems => exact ⟨_, hchain, hitems⟩
  · rintro ⟨values, hchain, hitems⟩
    exact .list hchain hitems

theorem DenotesWithin.denotes {depth : Nat} (h : m.DenotesWithin depth v d)
    (hdepth : depth ≤ m.store.used + 1) : m.Denotes v d :=
  h.mono (.refl m) hdepth

end Memory

/-- From every state of a memory that has everything `m` has, the outcomes of the two actions belong
together. -/
def SimulatesFrom {α β : Type} (context : EvalContext) (m : Memory) (c : EvalM α)
    (a : ReadM Tokens Tokens β) (R : Memory → α → β → Prop) : Prop :=
  ∀ limits st tokens core, Models context limits st tokens core → m.Extends (st.memory context) →
    Simulates context limits st tokens core c a R

theorem SimulatesFrom.mono {α β : Type} {context : EvalContext} {m m' : Memory} {c : EvalM α}
    {a : ReadM Tokens Tokens β} {R : Memory → α → β → Prop} (h : SimulatesFrom context m c a R)
    (hext : m.Extends m') : SimulatesFrom context m' c a R :=
  fun limits st tokens core hmodels hm => h limits st tokens core hmodels (hext.trans hm)

section Tokens

variable {α β : Type} {context : EvalContext} {limits : Limits} {st : EvalState} {tokens : Tokens}
  {core : Core Tokens} {R : Memory → α → β → Prop}

/-! ## Single tokens -/

theorem simulates_next (h : Models context limits st tokens core) (atEnd : FormFault) :
    Simulates context limits st tokens core (EvalM.next atEnd.val) (next atEnd)
      (fun _ v token => context.texts.DenotesToken v token) := by
  cases tokens with
  | nil =>
    refine Simulates.bind_left h.look?_nil ?_
    exact Agrees.error atEnd.toFault h.used
  | cons token tokens =>
    obtain ⟨v, rest, hlook, hv, hrest⟩ := h.look?_cons
    refine Simulates.bind_left hlook ?_
    exact Agrees.ok hrest (.refl _) hv

theorem simulates_unexpected (h : Models context limits st tokens core) {v : Value} {token : Lexeme}
    (hv : context.texts.DenotesToken v token) :
    Simulates context limits st tokens core (EvalM.unexpected v) (unexpected token) R := by
  have hrender : EvalM.askMemory (·.render v) context st = .ok (String.ofList token.text) st :=
    askMemory_of_ok (Memory.renderToken_eq hv)
  exact Simulates.bind_left hrender (Simulates.fail h (.notExpected (String.ofList token.text)))

theorem simulates_expect (h : Models context limits st tokens core) (delimiter : Char) :
    Simulates context limits st tokens core (EvalM.expect delimiter) (expect delimiter)
      (fun _ _ _ => True) := by
  cases tokens with
  | nil =>
    refine Simulates.bind_left h.look?_nil ?_
    exact Simulates.fail h (.closerExpected delimiter)
  | cons token tokens =>
    obtain ⟨v, rest, hlook, hv, hrest⟩ := h.look?_cons
    refine Simulates.bind_left hlook ?_
    simp only [Memory.isDelimiter_eq hv]
    unfold Simulates expect
    by_cases hd : token.isDelimiter delimiter
    · simp only [hd, if_true]
      exact Agrees.ok hrest (.refl _) trivial
    · simp only [hd]
      exact Agrees.error (FormFault.toFault (.closerExpected delimiter)) h.used

theorem simulates_separator (h : Models context limits st tokens core) :
    Simulates context limits st tokens core EvalM.separator separator
      (fun _ found found' => found = found') := by
  cases tokens with
  | nil =>
    refine Simulates.bind_left h.look?_nil ?_
    exact Simulates.fail h ⟨.separatorExpected, rfl⟩
  | cons token tokens =>
    obtain ⟨v, rest, hlook, hv, hrest⟩ := h.look?_cons
    refine Simulates.bind_left hlook ?_
    simp only [separator?_eq hv]
    unfold Simulates separator
    cases hfound : separator? token with
    | some found =>
      simp only [hfound]
      exact Agrees.ok hrest (.refl _) rfl
    | none =>
      simp only [hfound]
      exact Agrees.error (FormFault.toFault ⟨.separatorExpected, rfl⟩) h.used

theorem simulates_mismatch (h : Models context limits st tokens core) (op : Keyword)
    (expected : Expectation) (found : String) :
    Simulates context limits st tokens core (EvalM.mismatch op expected found)
      (CoreM.mismatch op expected found).lift R :=
  Agrees.error ⟨.typeMismatch op expected found, rfl⟩ h.used

theorem simulates_checkSeparator (h : Models context limits st tokens core) (last : Bool)
    (found : Separator) :
    Simulates context limits st tokens core (EvalM.checkSeparator last found)
      (CoreM.checkSeparator last found).lift (fun _ _ _ => True) := by
  cases found <;> cases last
  · exact Simulates.pure h trivial
  · exact Simulates.fail h .tooManyArguments
  · exact Simulates.fail h .tooFewArguments
  · exact Simulates.pure h trivial

end Tokens

/-! ## Keywords -/

section Operations

variable {context : EvalContext} {limits : Limits} {st : EvalState} {tokens : Tokens}
  {core : Core Tokens} {operand : EvalM Value} {operand' : TokenM (Datum Tokens)}

theorem simulates_numberOperand (h : Models context limits st tokens core)
    (ho : SimulatesFrom context (st.memory context) operand operand' Memory.Denotes)
    (op : Keyword) :
    Simulates context limits st tokens core (EvalM.numberOperand operand op)
      (numberOperand operand' op) (fun _ x y => x = y) := by
  refine (ho _ _ _ _ h (.refl _)).bind fun v d st' tokens' core' _ hmodels _ hv => ?_
  rw [hv.number?_eq, hv.typeName_eq]
  cases d.number? with
  | some x => exact Simulates.pure hmodels rfl
  | none => exact simulates_mismatch hmodels _ _ _

theorem simulates_listOperand (h : Models context limits st tokens core)
    (ho : SimulatesFrom context (st.memory context) operand operand' Memory.Denotes)
    (op : Keyword) :
    Simulates context limits st tokens core (EvalM.listOperand operand op)
      (listOperand operand' op) Memory.DenotesList := by
  refine (ho _ _ _ _ h (.refl _)).bind fun v d st' tokens' core' _ hmodels _ hv => ?_
  have htype := hv.typeName_eq
  cases hv.cases with
  | list hchain hitems => exact Simulates.pure hmodels hv
  | number => exact simulates_mismatch hmodels _ _ _
  | string _ => exact simulates_mismatch hmodels _ _ _
  | closure _ _ _ _ _ => exact simulates_mismatch hmodels _ _ _

/-- Values that cannot be compared are refused for what they are. -/
theorem simulates_incomparable (h : Models context limits st tokens core) {v w : Value}
    {d e : Datum Tokens} (hv : (st.memory context).Denotes v d)
    (hw : (st.memory context).Denotes w e) (op : Keyword) {R : Memory → Bool → Bool → Prop} :
    Simulates context limits st tokens core
      (if v.typeName = w.typeName then EvalM.mismatch op .comparable v.typeName
        else EvalM.mismatch op .sameType s!"{v.typeName} and {w.typeName}")
      (if d.typeName = e.typeName then (CoreM.mismatch op .comparable d.typeName).lift
        else (CoreM.mismatch op .sameType s!"{d.typeName} and {e.typeName}").lift) R := by
  rw [hv.typeName_eq, hw.typeName_eq]
  by_cases htype : d.typeName = e.typeName
  · rw [if_pos htype, if_pos htype]
    exact simulates_mismatch h _ _ _
  · rw [if_neg htype, if_neg htype]
    exact simulates_mismatch h _ _ _

theorem simulates_equalOperands (h : Models context limits st tokens core)
    (ho : SimulatesFrom context (st.memory context) operand operand' Memory.Denotes)
    (op : Keyword) :
    Simulates context limits st tokens core (EvalM.equalOperands operand op)
      (equalOperands operand' op) (fun _ x y => x = y) := by
  refine (ho _ _ _ _ h (.refl _)).bind fun v d st₁ tokens₁ core₁ _ hmodels₁ hext₁ hv => ?_
  refine (ho _ _ _ _ hmodels₁ hext₁).bind fun w e st₂ tokens₂ core₂ _ hmodels₂ hext₂ hw => ?_
  have hrefuse := simulates_incomparable hmodels₂ (hv.mono hext₂) hw op
    (R := fun _ x y => x = y)
  cases (hv.mono hext₂).cases with
  | number =>
    cases hw.cases with
    | number => exact Simulates.pure hmodels₂ rfl
    | _ => exact hrefuse
  | string hname =>
    cases hw.cases with
    | string hname' =>
      exact Simulates.pure hmodels₂ (hname.beq_eq hmodels₂.distinct hname')
    | _ => exact hrefuse
  | list _ _ => cases hw.cases <;> exact hrefuse
  | closure _ _ _ _ _ => cases hw.cases <;> exact hrefuse

variable {skip : EvalM Unit} {skip' : TokenM Unit}

theorem simulates_condition (h : Models context limits st tokens core)
    (ho : SimulatesFrom context (st.memory context) operand operand' Memory.Denotes)
    (hs : SimulatesFrom context (st.memory context) skip skip' (fun _ _ _ => True)) :
    Simulates context limits st tokens core (EvalM.condition operand skip)
      (condition operand' skip') Memory.Denotes := by
  refine (simulates_numberOperand h ho _).bind fun x y st₁ tokens₁ core₁ _ hmodels₁ hext₁ hxy => ?_
  subst hxy
  by_cases hzero : (x == 0) = true
  · simp only [hzero, if_true]
    refine (hs _ _ _ _ hmodels₁ hext₁).bind fun _ _ st₂ tokens₂ core₂ _ hmodels₂ hext₂ _ => ?_
    exact ho _ _ _ _ hmodels₂ (hext₁.trans hext₂)
  · simp only [hzero]
    refine (ho _ _ _ _ hmodels₁ hext₁).bind fun v d st₂ tokens₂ core₂ _ hmodels₂ hext₂ hv => ?_
    refine (hs _ _ _ _ hmodels₂ (hext₁.trans hext₂)).bind
      fun _ _ st₃ tokens₃ core₃ _ hmodels₃ hext₃ _ => ?_
    exact Simulates.pure hmodels₃ (hv.mono hext₃)

theorem EvalM.ofStoreM_map {γ δ : Type} (f : γ → δ) (x : StoreM γ) :
    EvalM.ofStoreM (f <$> x) = f <$> EvalM.ofStoreM x := by
  rw [← bind_pure_comp, EvalM.ofStoreM_bind, ← bind_pure_comp]
  rfl

/-- Putting a value in front of a list. -/
theorem simulates_pushOperand (h : Models context limits st tokens core) {v : Value}
    {d : Datum Tokens}
    {l : ListRef} {items : List (Datum Tokens)} (hv : (st.memory context).Denotes v d)
    (hl : (st.memory context).DenotesList l items) :
    Simulates context limits st tokens core (Value.list <$> EvalM.ofStoreM (Store.push l v))
      ((CoreM.charge 1).lift >>= fun _ => pure (.list (d :: items))) Memory.Denotes := by
  obtain ⟨values, hchain, hitems⟩ := Memory.denotesList_iff.mp hl
  have hcharge : (CoreM.charge 1 : CoreM Tokens Unit) = CoreM.alloc := by simp [CoreM.charge]
  rw [hcharge, ← bind_pure_comp]
  refine (simulates_push h hchain v).bind fun l' _ st' tokens' core' _ hmodels hext hl' => ?_
  obtain ⟨hchain', hused⟩ := hl'
  have hle : (st.memory context).store.used + 1 ≤ (st'.memory context).store.used :=
    Nat.le_of_eq hused.symm
  refine Simulates.pure hmodels (Memory.denotesList_iff.mpr ⟨v :: values, hchain', .cons ?_ ?_⟩)
  · exact Memory.DenotesWithin.mono hv hext hle
  · exact hitems.imp fun _ _ h => h.mono hext (Nat.le_of_succ_le hle)

theorem simulates_applyKeyword (h : Models context limits st tokens core)
    (ho : SimulatesFrom context (st.memory context) operand operand' Memory.Denotes)
    (hs : SimulatesFrom context (st.memory context) skip skip' (fun _ _ _ => True)) (op : Keyword) :
    Simulates context limits st tokens core (EvalM.applyKeyword operand skip op)
      (applyKeyword operand' skip' op) Memory.Denotes := by
  unfold EvalM.applyKeyword applyKeyword
  rw [numeric?_eq_numberOf?]
  cases hnumeric : numberOf? op with
  | some f =>
    refine (simulates_numberOperand h ho _).bind
      fun x x' st₁ tokens₁ core₁ _ hmodels₁ hext₁ hx => ?_
    refine (simulates_numberOperand hmodels₁ (ho.mono hext₁) _).bind
      fun y y' st₂ tokens₂ core₂ _ hmodels₂ _ hy => ?_
    subst hx hy
    exact Simulates.pure hmodels₂ .number
  | none =>
    cases op with
    | eq => exact (simulates_equalOperands h ho _).map fun m x y hxy => hxy ▸ m.denotes_ofBool x
    | ne => exact (simulates_equalOperands h ho _).map fun m x y hxy => hxy ▸ m.denotes_ofBool !x
    | cond => exact simulates_condition h ho hs
    | nil => exact Simulates.pure h (.list .nil .nil)
    | push =>
      refine (ho _ _ _ _ h (.refl _)).bind fun v d st₁ tokens₁ core₁ _ hmodels₁ hext₁ hv => ?_
      refine (simulates_listOperand hmodels₁ (ho.mono hext₁) _).bind
        fun l items st₂ tokens₂ core₂ _ hmodels₂ hext₂ hl => ?_
      exact simulates_pushOperand hmodels₂ (hv.mono hext₂) hl
    | tos =>
      refine (simulates_listOperand h ho _).bind fun l items st₁ tokens₁ core₁ _ hmodels₁ _ hl => ?_
      obtain ⟨values, hchain, hitems⟩ := Memory.denotesList_iff.mp hl
      refine Simulates.bind_left (EvalM.ask_of_ok context hchain.head?_eq) ?_
      cases hitems with
      | nil => exact simulates_mismatch hmodels₁ _ _ _
      | cons hv _ => exact Simulates.pure hmodels₁ (hv.denotes (Nat.le_succ _))
    | bos =>
      refine (simulates_listOperand h ho _).bind fun l items st₁ tokens₁ core₁ _ hmodels₁ _ hl => ?_
      obtain ⟨values, hchain, hitems⟩ := Memory.denotesList_iff.mp hl
      obtain ⟨rest, htail, hrest⟩ := hchain.tail_eq
      rw [← bind_pure_comp]
      refine Simulates.bind_left (EvalM.ask_of_ok context htail) ?_
      refine Simulates.pure hmodels₁ (Memory.denotesList_iff.mpr ⟨values.tail, hrest, ?_⟩)
      cases hitems with
      | nil => exact .nil
      | cons _ hitems => exact hitems
    | isNil =>
      refine (ho _ _ _ _ h (.refl _)).bind fun v d st₁ tokens₁ core₁ _ hmodels₁ _ hv => ?_
      cases hv.cases with
      | @list l values items hchain hitems =>
        refine Simulates.pure hmodels₁ ?_
        rw [Memory.isEmpty_eq hchain hitems]
        exact Memory.denotes_ofBool _ _
      | number => exact Simulates.pure hmodels₁ (Memory.denotes_ofBool _ _)
      | string _ => exact Simulates.pure hmodels₁ (Memory.denotes_ofBool _ _)
      | closure _ _ _ _ _ => exact Simulates.pure hmodels₁ (Memory.denotes_ofBool _ _)
    | _ => cases hnumeric

end Operations

end BraceLang
