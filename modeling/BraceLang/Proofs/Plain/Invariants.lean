import BraceLang.Proofs.Plain.Locality

/-!
# Invariants of values

Strings and closures come from the tokens of the program: a string is a token, and a closure has its
parameters and its body from a token list. What holds of all of them where they come from holds of
every value that an evaluation gives. What is said of a closure may mention the number of cells in
use, as that number only grows.

* `Invariant`: what is said of strings, closures and token lists.
* `Invariant.Holds`: a value with such strings and closures only.
* `Invariant.Lawful`: the cases in which a string or a closure comes from tokens.
* `Invariant.keeps_evaluateWithin`: values have the invariant when they come from tokens that do.
* `Invariant.holds_of_evaluate`: so does the value of a text.
-/

namespace BraceLang

/-- What is said of strings, of closures when a number of cells is in use, and of token lists. -/
structure Invariant where
  string : List Char → Prop
  closure : Nat → List Param → Tokens → Prop
  tokens : Tokens → Prop

namespace Invariant

/-- A value that has such strings and closures only. -/
inductive Holds (I : Invariant) (used : Nat) : Datum Tokens → Prop
  | number {x : Float} : Holds I used (.number x)
  | string {text : List Char} : I.string text → Holds I used (.string text)
  | list {items : List (Datum Tokens)} : (∀ item ∈ items, Holds I used item) →
    Holds I used (.list items)
  | closure {params : List Param} {body : Tokens} {scope : Scope Tokens} :
    I.closure used params body → I.tokens body →
    (∀ frame ∈ scope, ∀ entry ∈ frame, ∀ d, entry.2 = .value d → Holds I used d) →
    Holds I used (.closure params body scope)

variable (I : Invariant)

/-- The values that names are bound to. -/
def HoldsIn (used : Nat) (scope : Scope Tokens) : Prop :=
  ∀ frame ∈ scope, ∀ entry ∈ frame, ∀ d, entry.2 = .value d → I.Holds used d

/-- The values in the slots. -/
def HoldsAt (core : Core Tokens) : Prop :=
  ∀ index d, core.slots.value? index = some d → I.Holds core.used d

/-- Where strings and closures come from. A closure is made when its cells have been taken. -/
structure Lawful (least : Nat) : Prop where
  mono : ∀ {used used' params body}, used ≤ used' → I.closure used params body →
    I.closure used' params body
  suffix : ∀ {front rest}, I.tokens (front ++ rest) → I.tokens rest
  string : ∀ {text rest}, I.tokens (.string text :: rest) → I.string text
  argument : ∀ {tokens argument separator rest}, I.tokens tokens →
    Plain.splitArgument tokens = .ok ((argument, separator), rest) → I.tokens argument
  closure : ∀ {tokens params behind body rest used}, I.tokens (.delimiter '{' :: tokens) →
    Plain.splitFormals false tokens = .ok (params, behind) →
    Plain.splitBody 0 behind = .ok (body, rest) → least ≤ used →
    I.closure (used + (2 * params.length + body.length + 3)) params body ∧ I.tokens body

variable {I} {least used used' : Nat}

theorem Lawful.tail (hI : I.Lawful least) {token : Lexeme} {rest : Tokens}
    (h : I.tokens (token :: rest)) : I.tokens rest := by
  rw [← List.singleton_append] at h
  exact hI.suffix h

/-! ## Growth of the memory -/

theorem Holds.mono (hI : I.Lawful least) {d : Datum Tokens} (h : I.Holds used d)
    (hle : used ≤ used') : I.Holds used' d := by
  induction h with
  | number => exact .number
  | string hs => exact .string hs
  | list _ ih => exact .list ih
  | closure hc hbody _ ih => exact .closure (hI.mono hle hc) hbody ih

theorem HoldsIn.mono (hI : I.Lawful least) {scope : Scope Tokens} (h : I.HoldsIn used scope)
    (hle : used ≤ used') : I.HoldsIn used' scope := fun frame hframe entry hentry d hd =>
  (h frame hframe entry hentry d hd).mono hI hle

theorem HoldsAt.of_slots_eq (hI : I.Lawful least) {core core' : Core Tokens} (h : I.HoldsAt core)
    (hslots : core'.slots = core.slots) (hle : core.used ≤ core'.used) : I.HoldsAt core' := by
  intro index d hd
  rw [hslots] at hd
  exact (h index d hd).mono hI hle

theorem HoldsAt.push {slots : Slots Tokens} (h : I.HoldsAt ⟨used, slots⟩) :
    I.HoldsAt ⟨used, slots.push none⟩ := by
  intro index d hd
  refine h index d ?_
  simp only [Slots.value?, Array.getElem?_push] at hd ⊢
  split at hd
  · cases hd
  · exact hd

theorem HoldsAt.set {slots : Slots Tokens} (h : I.HoldsAt ⟨used, slots⟩) {value : Datum Tokens}
    (hvalue : I.Holds used value) (position : Nat) :
    I.HoldsAt ⟨used, slots.setIfInBounds position (some value)⟩ := by
  intro index d hd
  simp only [Slots.value?, Array.getElem?_setIfInBounds] at hd
  split at hd
  · split at hd
    · cases hd
      exact hvalue
    · cases hd
  · exact h index d hd

theorem HoldsIn.lookup {scope : Scope Tokens} (h : I.HoldsIn used scope) {name : List Char}
    {d : Datum Tokens} (hlookup : scope.lookup name = some (.value d)) : I.Holds used d := by
  obtain ⟨frame, hframe, hentry⟩ := List.exists_of_findSome?_eq_some hlookup
  obtain ⟨before, behind, rfl, -⟩ := List.lookup_eq_some_iff.mp hentry
  exact h _ hframe (name, .value d) (by simp) d rfl

/-! ## Actions -/

variable (I) in
/-- When so many cells are in use and the action succeeds, the slots keep the invariant and the
result has the property. -/
def CoreKeeps {α : Type} (used : Nat) (Q : Nat → α → Prop) (action : CoreM Tokens α) : Prop :=
  ∀ ⦃limits slots a core'⦄, I.HoldsAt ⟨used, slots⟩ →
    action limits ⟨used, slots⟩ = .ok a core' →
    used ≤ core'.used ∧ I.HoldsAt core' ∧ Q core'.used a

variable (I) in
/-- The same for an action on tokens, which leaves tokens that have the invariant. -/
def Keeps {α : Type} (used : Nat) (Q : Nat → α → Prop) (action : Plain.TokenM α) : Prop :=
  ∀ ⦃tokens⦄, I.tokens tokens →
    I.CoreKeeps used (fun used p => Q used p.1 ∧ I.tokens p.2) (action tokens)

/-! ### Actions that read nothing -/

namespace CoreKeeps

variable {α γ : Type} {Q : Nat → α → Prop} {R : Nat → γ → Prop} {action : CoreM Tokens α}

theorem pure {a : α} (h : Q used a) : I.CoreKeeps used Q (Pure.pure a) := by
  intro limits slots b core' hslots hrun
  cases hrun
  exact ⟨Nat.le_refl _, hslots, h⟩

theorem throw (fault : Fault) : I.CoreKeeps used Q (MonadExcept.throw fault) := by
  intro limits slots a core' _ hrun
  cases hrun

theorem bind {f : α → CoreM Tokens γ} (h : I.CoreKeeps used Q action)
    (hf : ∀ a used', used ≤ used' → Q used' a → I.CoreKeeps used' R (f a)) :
    I.CoreKeeps used R (action >>= f) := by
  intro limits slots c core₂ hslots hrun
  obtain ⟨a, core₁, haction, hrest⟩ := reader_bind_eq_ok_iff.mp hrun
  obtain ⟨hle, hslots₁, hQ⟩ := h hslots haction
  obtain ⟨hle', hslots₂, hR⟩ := hf a core₁.used hle hQ hslots₁ hrest
  exact ⟨Nat.le_trans hle hle', hslots₂, hR⟩

theorem imp {Q' : Nat → α → Prop} (h : I.CoreKeeps used Q action)
    (hQ : ∀ used a, Q used a → Q' used a) : I.CoreKeeps used Q' action := by
  intro limits slots a core' hslots hrun
  obtain ⟨hle, hslots', hQ'⟩ := h hslots hrun
  exact ⟨hle, hslots', hQ _ _ hQ'⟩

theorem lift (h : I.CoreKeeps used Q action) (tokens : Tokens) :
    I.CoreKeeps used (fun used p => Q used p.1 ∧ p.2 = tokens) (action.lift tokens) :=
  h.bind fun _ _ _ hQ => .pure ⟨hQ, rfl⟩

theorem nested (h : I.CoreKeeps used Q action) : I.CoreKeeps used Q (CoreM.nested action) := by
  intro limits slots a core' hslots hrun
  unfold CoreM.nested at hrun
  split at hrun
  · cases hrun
  · exact h hslots hrun

theorem alloc (hI : I.Lawful least) :
    I.CoreKeeps used (fun used' _ => used' = used + 1) CoreM.alloc := by
  intro limits slots u core' hslots hrun
  unfold CoreM.alloc at hrun
  split at hrun
  · cases hrun
  · cases hrun
    exact ⟨Nat.le_succ _, hslots.of_slots_eq hI rfl (Nat.le_succ _), rfl⟩

theorem charge (hI : I.Lawful least) (cells : Nat) :
    I.CoreKeeps used (fun used' _ => used' = used + cells) (CoreM.charge cells) := by
  induction cells generalizing used with
  | zero => exact pure rfl
  | succ cells ih =>
    refine (alloc hI).bind fun _ used' _ hused => ih.imp fun used'' _ hused' => ?_
    omega

theorem newSlot : I.CoreKeeps used (fun _ _ => True) CoreM.newSlot := by
  intro limits slots index core' hslots hrun
  obtain ⟨-, -, rfl⟩ := CoreM.newSlot_eq_ok_iff.mp hrun
  exact ⟨Nat.le_refl _, hslots.push, trivial⟩

theorem fill {value : Datum Tokens} (hvalue : I.Holds used value) (index : Nat) :
    I.CoreKeeps used (fun _ _ => True) (CoreM.fill index value) := by
  intro limits slots u core' hslots hrun
  cases hrun
  exact ⟨Nat.le_refl _, hslots.set hvalue index, trivial⟩

theorem of_basic (hI : I.Lawful least) (h : CoreM.Basic action) :
    I.CoreKeeps used (fun _ _ => True) action := by
  induction h generalizing used with
  | pure a => exact pure trivial
  | throw fault => exact throw fault
  | slots _ ih => exact fun limits slots a core' hslots hrun => ih slots hslots hrun
  | alloc => exact (alloc hI).imp fun _ _ _ => trivial
  | newSlot => exact newSlot
  | bind _ _ ih ihf => exact ih.bind fun a _ _ _ => ihf a

theorem lookupName {scope : Scope Tokens} (hscope : I.HoldsIn used scope) (name : List Char) :
    I.CoreKeeps used I.Holds (CoreM.lookupName name scope) := by
  intro limits slots d core' hslots hrun
  unfold CoreM.lookupName at hrun
  cases hlookup : scope.lookup name with
  | none =>
    rw [hlookup] at hrun
    cases hrun
  | some bound =>
    rw [hlookup] at hrun
    cases bound with
    | value datum =>
      cases hrun
      exact ⟨Nat.le_refl _, hslots, hscope.lookup hlookup⟩
    | slot index =>
      obtain ⟨_, _, hget, hrest⟩ := reader_bind_eq_ok_iff.mp hrun
      cases hget
      cases hvalue : slots.value? index with
      | none =>
        simp only [hvalue] at hrest
        cases hrest
      | some datum =>
        simp only [hvalue] at hrest
        cases hrest
        exact ⟨Nat.le_refl _, hslots, hslots index _ hvalue⟩

end CoreKeeps

/-! ### Actions on tokens -/

namespace Keeps

variable {α γ : Type} {Q : Nat → α → Prop} {R : Nat → γ → Prop} {action : Plain.TokenM α}

theorem bind {f : α → Plain.TokenM γ} (h : I.Keeps used Q action)
    (hf : ∀ a used', used ≤ used' → Q used' a → I.Keeps used' R (f a)) :
    I.Keeps used R (action >>= f) := fun _ htokens =>
  (h htokens).bind fun p used' hle hp => hf p.1 used' hle hp.1 hp.2

theorem lift {action : CoreM Tokens α} (h : I.CoreKeeps used Q action) :
    I.Keeps used Q action.lift := fun tokens htokens =>
  (h.lift tokens).imp fun _ _ hp => ⟨hp.1, hp.2.symm ▸ htokens⟩

theorem pure {a : α} (h : Q used a) : I.Keeps used Q (Pure.pure a) := fun _ htokens =>
  CoreKeeps.pure ⟨h, htokens⟩

theorem map {f : α → γ} (h : I.Keeps used Q action) (hf : ∀ used a, Q used a → R used (f a)) :
    I.Keeps used R (f <$> action) := by
  rw [← bind_pure_comp]
  exact h.bind fun a used' _ hQ => .pure (hf used' a hQ)

theorem nested (h : I.Keeps used Q action) : I.Keeps used Q (ReadM.nested action) :=
  fun _ htokens => (h htokens).nested

/-- A step leaves tokens from the end of those that it was given. -/
theorem of_step (hI : I.Lawful least) (h : Plain.Step action) :
    I.Keeps used (fun _ _ => True) action := by
  intro tokens htokens limits slots p core' hslots hrun
  obtain ⟨a, rest⟩ := p
  obtain ⟨hle, hslots', -⟩ := CoreKeeps.of_basic hI (h.basic tokens) hslots hrun
  obtain ⟨taken, _, rfl, -⟩ := Plain.Carries.of_step h hrun
  exact ⟨hle, hslots', trivial, hI.suffix htokens⟩

theorem tooDeep : I.Keeps used Q CoreM.tooDeep.lift := by
  intro tokens _ limits slots p core' _ hrun
  cases hrun

theorem mismatch (op : Keyword) (expected : Expectation) (found : String) :
    I.Keeps used Q (CoreM.mismatch op expected found).lift := lift (.throw _)

/-- Steps on tokens whose results do not matter. -/
theorem congruence (hI : I.Lawful least) :
    Plain.Congruence fun action _ => ∀ used, I.Keeps used (fun _ _ => True) action where
  step := fun h _ => of_step hI h
  bind := fun h hf used => (h used).bind fun a used' _ _ => hf a used'

end Keeps

theorem keeps_skipWith (hI : I.Lawful least) {skip : Plain.TokenM Unit}
    (hs : ∀ used, I.Keeps used (fun _ _ => True) skip) :
    ∀ used, I.Keeps used (fun _ _ => True) (Plain.skipWith skip) :=
  @Plain.Congruence.skipWith _ (Keeps.congruence hI) skip skip hs

/-! ## Operations of keywords -/

section Operations

variable {operand : Plain.TokenM (Datum Tokens)} {skip : Plain.TokenM Unit}

theorem keeps_numberOperand (ho : I.Keeps used I.Holds operand) (op : Keyword) :
    I.Keeps used (fun _ _ => True) (Plain.numberOperand operand op) := by
  refine ho.bind fun value used' _ _ => ?_
  cases value.number? with
  | some x => exact .pure trivial
  | none => exact .mismatch _ _ _

theorem keeps_listOperand (ho : I.Keeps used I.Holds operand) (op : Keyword) :
    I.Keeps used (fun used items => ∀ item ∈ items, I.Holds used item)
      (Plain.listOperand operand op) := by
  refine ho.bind fun value used' _ hvalue => ?_
  cases hvalue with
  | list hitems => exact .pure hitems
  | number => exact .mismatch _ _ _
  | string _ => exact .mismatch _ _ _
  | closure _ _ _ => exact .mismatch _ _ _

variable (ho : ∀ used', used ≤ used' → I.Keeps used' I.Holds operand)
  (hs : ∀ used', I.Keeps used' (fun _ _ => True) skip)
include ho

theorem keeps_equalOperands (op : Keyword) :
    I.Keeps used (fun _ _ => True) (Plain.equalOperands operand op) := by
  refine (ho used (Nat.le_refl _)).bind fun x used₁ hle _ => (ho used₁ hle).bind fun y _ _ _ => ?_
  split
  · exact .pure trivial
  · exact .pure trivial
  · split
    · exact .mismatch _ _ _
    · exact .mismatch _ _ _

include hs

theorem keeps_condition (hI : I.Lawful least) :
    I.Keeps used I.Holds (Plain.condition operand skip) := by
  refine (keeps_numberOperand (ho used (Nat.le_refl _)) _).bind fun flag used₁ hle _ => ?_
  split
  · exact (hs used₁).bind fun _ used₂ hle' _ => ho used₂ (Nat.le_trans hle hle')
  · refine (ho used₁ hle).bind fun value used₂ _ hvalue => ?_
    exact (hs used₂).bind fun _ used₃ hle' _ => .pure (hvalue.mono hI hle')

theorem keeps_applyKeyword (hI : I.Lawful least) (op : Keyword) :
    I.Keeps used I.Holds (Plain.applyKeyword operand skip op) := by
  have hfirst := ho used (Nat.le_refl _)
  have htruth : ∀ used (flag : Bool), True → I.Holds used (Datum.ofBool flag) :=
    fun _ _ _ => .number
  unfold Plain.applyKeyword
  split
  · refine (keeps_numberOperand hfirst _).bind fun x used₁ hle _ => ?_
    exact (keeps_numberOperand (ho used₁ hle) _).bind fun y used₂ _ _ => .pure .number
  · exact (keeps_equalOperands ho _).map htruth
  · exact (keeps_equalOperands ho _).map fun used equal => htruth used !equal
  · exact keeps_condition ho hs hI
  · refine hfirst.bind fun item used₁ hle hitem => ?_
    refine (keeps_listOperand (ho used₁ hle) _).bind fun items used₂ hle' hitems => ?_
    refine (Keeps.lift (.charge hI 1)).bind fun _ used₃ hle'' _ => .pure (.list ?_)
    intro other hother
    rcases List.mem_cons.mp hother with rfl | hother
    · exact hitem.mono hI (Nat.le_trans hle' hle'')
    · exact (hitems other hother).mono hI hle''
  · refine (keeps_listOperand hfirst _).bind fun items used₁ _ hitems => ?_
    cases items with
    | nil => exact .mismatch _ _ _
    | cons head rest => exact .pure (hitems head List.mem_cons_self)
  · refine (keeps_listOperand hfirst _).bind fun items used₁ _ hitems => .pure (.list ?_)
    exact fun item hitem => hitems item (List.mem_of_mem_tail hitem)
  · refine hfirst.bind fun value used₁ _ _ => ?_
    cases value <;> exact .pure .number
  · exact .pure (.list fun item hitem => nomatch hitem)

end Operations

/-! ## Closures and calls -/

theorem CoreKeeps.split {α : Type} (part : Tokens → Except FormFault (α × Tokens))
    (tokens : Tokens) :
    I.CoreKeeps used (fun used' p => used' = used ∧ part tokens = .ok p)
      (Plain.split part tokens) := by
  unfold Plain.split
  cases hpart : part tokens with
  | ok p => exact .pure ⟨rfl, rfl⟩
  | error fault => exact .throw _

/-- A closure has its parameters and its body from the tokens behind its brace. -/
theorem keeps_closure (hI : I.Lawful least) (hleast : least ≤ used) {scope : Scope Tokens}
    (hscope : I.HoldsIn used scope) {tokens : Tokens}
    (htokens : I.tokens (.delimiter '{' :: tokens)) :
    I.CoreKeeps used (fun used p => I.Holds used p.1 ∧ I.tokens p.2)
      (Plain.closure scope tokens) := by
  have hvalue : I.CoreKeeps used (fun used p => I.Holds used p.1) (Plain.closure scope tokens) := by
    refine (CoreKeeps.split (Plain.splitFormals false) tokens).bind fun p used₁ _ hformals => ?_
    refine (CoreKeeps.split (Plain.splitBody 0) p.2).bind fun q used₂ _ hbody => ?_
    refine ((CoreKeeps.charge hI _).lift _).bind fun _ used₃ _ hused₃ => ?_
    refine ((CoreKeeps.charge hI _).lift _).bind fun _ used₄ _ hused₄ => ?_
    refine ((CoreKeeps.charge hI _).lift _).bind fun _ used₅ _ hused₅ => .pure ?_
    obtain ⟨hclosure, hinside⟩ := hI.closure htokens hformals.2 hbody.2 hleast
    have hused : used₅ = used + (2 * p.1.length + q.1.length + 3) := by omega
    exact .closure (hused ▸ hclosure) hinside (hscope.mono hI (by omega))
  intro limits slots p core' hslots hrun
  obtain ⟨hle, hslots', hholds⟩ := hvalue hslots hrun
  have hrest := Keeps.of_step hI (.closure scope) (hI.tail htokens) hslots hrun
  exact ⟨hle, hslots', hholds, hrest.2.2.2⟩

/-- An actual parameter is a value or the tokens of one. -/
def HoldsFor (I : Invariant) (used : Nat) : Plain.Actual Tokens → Prop
  | .evaluated value => I.Holds used value
  | .captured _ argument => I.tokens argument

theorem HoldsFor.mono (hI : I.Lawful least) {actual : Plain.Actual Tokens}
    (h : I.HoldsFor used actual) (hle : used ≤ used') : I.HoldsFor used' actual := by
  cases actual with
  | evaluated value => exact Holds.mono hI h hle
  | captured slot argument => exact h

theorem keeps_captureArgument (hI : I.Lawful least) :
    I.Keeps used (fun _ captured => I.tokens captured.1) Plain.captureArgument := by
  intro tokens htokens limits slots p core' hslots hrun
  have hargument : I.CoreKeeps used (fun _ p => I.tokens p.1.1) (Plain.captureArgument tokens) := by
    refine (CoreKeeps.split Plain.splitArgument tokens).bind fun q used₁ _ hsplit => ?_
    exact ((CoreKeeps.charge hI _).lift _).bind
      fun _ used₂ _ _ => .pure (hI.argument htokens hsplit.2)
  obtain ⟨hle, hslots', hcaptured⟩ := hargument hslots hrun
  have hrest := Keeps.of_step hI .captureArgument htokens hslots hrun
  exact ⟨hle, hslots', hcaptured, hrest.2.2.2⟩

theorem holdsIn_extend {defining : Scope Tokens} (hdefining : I.HoldsIn used defining)
    {actuals : List (List Char × Plain.Actual Tokens)}
    (hactuals : ∀ entry ∈ actuals, I.HoldsFor used entry.2) :
    I.HoldsIn used ((actuals.map fun entry => (entry.1, entry.2.bound)) :: defining) := by
  intro frame hframe entry hentry d hd
  rcases List.mem_cons.mp hframe with rfl | hframe
  · obtain ⟨⟨name, actual⟩, hmem, rfl⟩ := List.mem_map.mp hentry
    have hactual := hactuals _ hmem
    cases actual with
    | evaluated value =>
      cases hd
      exact hactual
    | captured slot argument => cases hd
  · exact hdefining frame hframe entry hentry d hd

theorem keeps_extend (hI : I.Lawful least) {defining : Scope Tokens}
    (hdefining : I.HoldsIn used defining) {actuals : List (List Char × Plain.Actual Tokens)}
    (hactuals : ∀ entry ∈ actuals, I.HoldsFor used entry.2) :
    I.CoreKeeps used I.HoldsIn (Plain.extend defining actuals) := by
  rw [Plain.extend_eq]
  refine (CoreKeeps.charge hI _).bind fun _ used₁ hle _ =>
    (CoreKeeps.charge hI _).bind fun _ used₂ hle' _ => .pure ?_
  have hle₂ := Nat.le_trans hle hle'
  exact holdsIn_extend (hdefining.mono hI hle₂) fun entry hentry =>
    (hactuals entry hentry).mono hI hle₂

section Calls

variable {eval : Scope Tokens → Plain.TokenM (Datum Tokens)} (hI : I.Lawful least)
  (he : ∀ {used scope}, least ≤ used → I.HoldsIn used scope → I.Keeps used I.Holds (eval scope))
include hI he

theorem keeps_bindActual (hleast : least ≤ used) {scope : Scope Tokens}
    (hscope : I.HoldsIn used scope) (param : Param) :
    I.Keeps used (fun used bound => I.HoldsFor used bound.1)
      (Plain.bindActual eval scope param) := by
  unfold Plain.bindActual
  split
  · refine (he hleast hscope).bind fun value used₁ _ hvalue => ?_
    refine (Keeps.of_step hI .separator).bind fun found used₂ hle _ => .pure ?_
    exact hvalue.mono hI hle
  · refine (keeps_captureArgument hI).bind fun captured used₁ _ hcaptured => ?_
    exact (Keeps.lift .newSlot).bind fun slot used₂ _ _ => .pure hcaptured

theorem keeps_bindActuals (hleast : least ≤ used) {scope : Scope Tokens}
    (hscope : I.HoldsIn used scope) (params : List Param) :
    I.Keeps used (fun used actuals => ∀ entry ∈ actuals, I.HoldsFor used entry.2)
      (Plain.bindActuals eval scope params) := by
  induction params generalizing used with
  | nil => exact .pure fun entry hentry => nomatch hentry
  | cons param params ih =>
    refine (keeps_bindActual hI he hleast hscope param).bind fun bound used₁ hle hbound => ?_
    refine (Keeps.lift (.of_basic hI (CoreM.basic_checkSeparator _ _))).bind
      fun _ used₂ hle₁ _ => ?_
    have hle₂ := Nat.le_trans hle hle₁
    refine (ih (Nat.le_trans hleast hle₂) (hscope.mono hI hle₂)).bind
      fun actuals used₃ hle₃ hactuals => .pure ?_
    intro entry hentry
    rcases List.mem_cons.mp hentry with rfl | hentry
    · exact HoldsFor.mono hI hbound (Nat.le_trans hle₁ hle₃)
    · exact hactuals entry hentry

omit hI in
theorem keeps_settle (hleast : least ≤ used) {scope : Scope Tokens}
    (hscope : I.HoldsIn used scope) (name : List Char) {actual : Plain.Actual Tokens}
    (hactual : I.HoldsFor used actual) :
    I.CoreKeeps used (fun _ _ => True) (Plain.settle eval scope name actual) := by
  cases actual with
  | evaluated value => exact .pure trivial
  | captured slot argument =>
    refine (he hleast hscope hactual).bind fun result used₁ _ hresult => ?_
    obtain ⟨value, left⟩ := result
    cases left with
    | nil => exact .fill hresult.1 slot
    | cons token left => exact .throw _

theorem keeps_settleAll (hleast : least ≤ used) {scope : Scope Tokens}
    (hscope : I.HoldsIn used scope) {actuals : List (List Char × Plain.Actual Tokens)}
    (hactuals : ∀ entry ∈ actuals, I.HoldsFor used entry.2) :
    I.CoreKeeps used (fun _ _ => True) (Plain.settleAll eval scope actuals) := by
  induction actuals generalizing used with
  | nil => exact .pure trivial
  | cons entry actuals ih =>
    have hentry := hactuals entry List.mem_cons_self
    refine (keeps_settle he hleast hscope entry.1 hentry).bind fun _ used₁ hle _ => ?_
    exact ih (Nat.le_trans hleast hle) (hscope.mono hI hle) fun other hother =>
      (hactuals other (List.mem_cons_of_mem _ hother)).mono hI hle

omit hI in
theorem keeps_runBody (hleast : least ≤ used) {scope : Scope Tokens}
    (hscope : I.HoldsIn used scope) {body : Tokens} (hbody : I.tokens body) :
    I.CoreKeeps used I.Holds (Plain.runBody eval scope body) := by
  refine (he hleast hscope hbody).bind fun result used₁ _ hresult => ?_
  obtain ⟨value, left⟩ := result
  cases left with
  | nil => exact .pure hresult.1
  | cons token left => exact .throw _

theorem keeps_call (hleast : least ≤ used) {scope defining : Scope Tokens}
    (hscope : I.HoldsIn used scope) (params : List Param) {body : Tokens} (hbody : I.tokens body)
    (hdefining : I.HoldsIn used defining) :
    I.Keeps used I.Holds (Plain.call eval scope params body defining) := by
  unfold Plain.call
  split
  · refine (Keeps.of_step hI (.expect _)).bind fun _ used₁ hle _ => ?_
    exact .lift (keeps_runBody he (Nat.le_trans hleast hle) (hdefining.mono hI hle) hbody)
  · refine (keeps_bindActuals hI he hleast hscope params).bind fun actuals used₁ hle hactuals => ?_
    refine (Keeps.lift (keeps_extend hI (hdefining.mono hI hle) hactuals)).bind
      fun inner used₂ hle₂ hinner => ?_
    have hleast₂ : least ≤ used₂ := by omega
    have hactuals₂ : ∀ entry ∈ actuals, I.HoldsFor used₂ entry.2 := fun entry hentry =>
      (hactuals entry hentry).mono hI hle₂
    refine (Keeps.lift (keeps_settleAll hI he hleast₂ hinner hactuals₂)).bind
      fun _ used₃ hle₃ _ => .lift ?_
    exact keeps_runBody he (Nat.le_trans hleast₂ hle₃) (hinner.mono hI hle₃) hbody

theorem keeps_function (hleast : least ≤ used) {scope : Scope Tokens}
    (hscope : I.HoldsIn used scope) :
    I.Keeps used I.Holds (Plain.application.function eval scope) := by
  have hother : ∀ used (value : Datum Tokens), I.Keeps used I.Holds (do
      throw (.notAFunction (← (Plain.render value).lift)) : Plain.TokenM (Datum Tokens)) :=
    fun used value => (Keeps.lift (.of_basic hI (Plain.basic_render value))).bind
      fun _ _ _ _ _ _ => .throw _
  refine (he hleast hscope).bind fun value used₁ hle hvalue => ?_
  cases hvalue with
  | closure _ hbody hdefining =>
    exact keeps_call hI he (Nat.le_trans hleast hle) (hscope.mono hI hle) _ hbody hdefining
  | number => exact hother _ _
  | string _ => exact hother _ _
  | list _ => exact hother _ _

/-! ## Terms -/

variable {skip : Plain.TokenM Unit} (hs : ∀ used, I.Keeps used (fun _ _ => True) skip)
include hs

theorem keeps_operands (hleast : least ≤ used) {scope : Scope Tokens}
    (hscope : I.HoldsIn used scope) (op : Keyword) :
    I.Keeps used I.Holds (Plain.applyKeyword (eval scope) skip op) :=
  keeps_applyKeyword (fun _ hle => he (Nat.le_trans hleast hle) (hscope.mono hI hle)) hs hI op

theorem keeps_application (hleast : least ≤ used) {scope : Scope Tokens}
    (hscope : I.HoldsIn used scope) :
    I.Keeps used I.Holds (Plain.application eval skip scope) := by
  intro tokens htokens
  cases tokens with
  | nil => exact .throw _
  | cons token rest =>
    have hrest : I.tokens rest := hI.tail htokens
    cases token with
    | keyword op =>
      have hoperation : I.Keeps used I.Holds (Plain.application.operation eval skip scope op) :=
        (keeps_operands hI he hs hleast hscope op).nested.bind fun value used₁ _ hvalue =>
          (Keeps.of_step hI (.expect _)).bind fun _ used₂ hle _ => .pure (hvalue.mono hI hle)
      exact hoperation hrest
    | delimiter c => exact keeps_function hI he hleast hscope htokens
    | string text => exact keeps_function hI he hleast hscope htokens
    | number x => exact keeps_function hI he hleast hscope htokens
    | atom name => exact keeps_function hI he hleast hscope htokens

theorem keeps_termWith (hleast : least ≤ used) {scope : Scope Tokens}
    (hscope : I.HoldsIn used scope) : I.Keeps used I.Holds (Plain.termWith eval skip scope) := by
  intro tokens htokens
  have hnext : I.CoreKeeps used (fun used' p => used' = used ∧ p.1 :: p.2 = tokens)
      (Plain.next .endOfText tokens) := by
    cases tokens with
    | nil => exact .throw _
    | cons token rest => exact .pure ⟨rfl, rfl⟩
  refine hnext.bind fun p used' _ hp => ?_
  obtain ⟨token, rest⟩ := p
  obtain ⟨rfl, rfl⟩ := hp
  have hrest : I.tokens rest := hI.tail htokens
  dsimp only
  split
  · exact .pure ⟨.number, hrest⟩
  · exact .pure ⟨.string (hI.string htokens), hrest⟩
  · exact Keeps.lift (.lookupName hscope _) hrest
  · exact keeps_operands hI he hs hleast hscope _ hrest
  · exact keeps_closure hI hleast hscope htokens
  · exact keeps_application hI he hs hleast hscope hrest
  · exact .throw _

end Calls

theorem keeps_skipWithin (hI : I.Lawful least) (levels : Nat) (used : Nat) :
    I.Keeps used (fun _ _ => True) (Plain.skipWithin levels) := by
  induction levels generalizing used with
  | zero => exact .tooDeep
  | succ levels ih => exact (keeps_skipWith hI ih used).nested

/-- The value of a term has the invariant when the tokens, the scope and the slots do. -/
theorem keeps_evaluateWithin (hI : I.Lawful least) (levels : Nat) (hleast : least ≤ used)
    {scope : Scope Tokens} (hscope : I.HoldsIn used scope) :
    I.Keeps used I.Holds (Plain.evaluateWithin levels scope) := by
  induction levels generalizing used scope with
  | zero => exact .tooDeep
  | succ levels ih =>
    exact (keeps_termWith hI (fun hle hscope => ih hle hscope) (keeps_skipWithin hI levels)
      hleast hscope).nested

/-- Where nothing is bound and there are no slots, a value comes from the tokens alone. -/
theorem holds_of_evaluate (hI : I.Lawful least) (hleast : least ≤ used) {tokens rest : Tokens}
    {limits : Limits} {core : Core Tokens} {d : Datum Tokens} (htokens : I.tokens tokens)
    (h : Plain.evaluate [] tokens limits ⟨used, #[]⟩ = .ok (d, rest) core) :
    I.Holds core.used d := by
  have hscope : I.HoldsIn used [] := fun frame hframe => nomatch hframe
  have hslots : I.HoldsAt ⟨used, #[]⟩ := by
    intro index d hd
    simp [Slots.value?] at hd
  exact (keeps_evaluateWithin hI limits.levels hleast hscope htokens hslots h).2.2.1

end Invariant

end BraceLang
