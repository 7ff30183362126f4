import BraceLang.Proofs.Effects
import BraceLang.Proofs.Plain.Compositional

/-!
# Slots that an evaluation leaves alone

The slots that are there before a term is evaluated are the same afterwards: an evaluation gives
values only to the slots that it adds. So a slot has no value when it takes one.

* `Plain.keepsBelow_evaluateWithin`: the old slots are kept.
* `Plain.fresh_bindActuals`: the slots of captured arguments are new, different and empty.
* `Plain.Fresh.settle`: the slots of the other arguments stay so when an argument is evaluated.
-/

namespace BraceLang

/-- The first slots are the same. -/
structure Core.SameBelow {β : Type} (n : Nat) (core core' : Core β) : Prop where
  size_le : n ≤ core'.slots.size
  slot : ∀ i, i < n → core'.slots[i]? = core.slots[i]?

namespace Core.SameBelow

variable {β : Type} {n : Nat} {core core' core'' : Core β}

theorem refl (h : n ≤ core.slots.size) : core.SameBelow n core := ⟨h, fun _ _ => rfl⟩

theorem trans (h : core.SameBelow n core') (h' : core'.SameBelow n core'') :
    core.SameBelow n core'' :=
  ⟨h'.size_le, fun i hi => (h'.slot i hi).trans (h.slot i hi)⟩

theorem of_slots_eq (h : n ≤ core.slots.size) (hslots : core'.slots = core.slots) :
    core.SameBelow n core' :=
  ⟨by rwa [hslots], fun _ _ => by rw [hslots]⟩

end Core.SameBelow

/-- When the action succeeds, the first slots are as they were. -/
def CoreM.KeepsBelow {α β : Type} (n : Nat) (action : CoreM β α) : Prop :=
  ∀ limits core a core', n ≤ core.slots.size → action limits core = .ok a core' →
    core.SameBelow n core'

/-- When the action succeeds, the first slots are as they were. -/
def ReadM.KeepsBelow {σ α β : Type} (n : Nat) (action : ReadM σ β α) : Prop :=
  ∀ s, CoreM.KeepsBelow n (action s)

namespace CoreM

variable {α γ β : Type} {n : Nat}

namespace KeepsBelow

variable {action : CoreM β α}

theorem pure (a : α) : KeepsBelow n (Pure.pure a : CoreM β α) := by
  intro limits core b core' hn h
  cases h
  exact .refl hn

theorem bind_of_run {f : α → CoreM β γ} (h : KeepsBelow n action)
    (hf : ∀ limits core a core', n ≤ core.slots.size → action limits core = .ok a core' →
      KeepsBelow n (f a)) : KeepsBelow n (action >>= f) := by
  intro limits core b core' hn hrun
  obtain ⟨a, core₁, haction, hrest⟩ := reader_bind_eq_ok_iff.mp hrun
  have hfirst := h limits core a core₁ hn haction
  exact hfirst.trans (hf limits core a core₁ hn haction limits core₁ b core' hfirst.size_le hrest)

theorem bind {f : α → CoreM β γ} (h : KeepsBelow n action) (hf : ∀ a, KeepsBelow n (f a)) :
    KeepsBelow n (action >>= f) :=
  h.bind_of_run fun _ _ a _ _ _ => hf a

theorem nested (h : KeepsBelow n action) : KeepsBelow n (CoreM.nested action) := by
  intro limits core a core' hn hrun
  unfold CoreM.nested at hrun
  split at hrun
  · cases hrun
  · exact h _ _ _ _ hn hrun

theorem of_basic (h : CoreM.Basic action) : KeepsBelow n action := by
  induction h with
  | pure a => exact pure a
  | throw fault =>
    intro limits core a core' hn hrun
    cases hrun
  | slots _ ih => exact fun limits core a core' hn hrun => ih core.slots limits core a core' hn hrun
  | alloc =>
    intro limits core a core' hn hrun
    unfold alloc at hrun
    split at hrun
    · cases hrun
    · cases hrun
      exact .of_slots_eq hn rfl
  | newSlot =>
    intro limits core a core' hn hrun
    obtain ⟨-, rfl, rfl⟩ := newSlot_eq_ok_iff.mp hrun
    refine ⟨by simp only [Array.size_push]; omega, fun i hi => ?_⟩
    rw [Array.getElem?_push, if_neg (by omega)]
  | bind _ _ ih ihf => exact ih.bind ihf

end KeepsBelow

theorem keepsBelow_fill {index : Nat} (h : n ≤ index) (value : Datum β) :
    KeepsBelow n (fill index value) := by
  intro limits core a core' hn hrun
  cases hrun
  refine ⟨by simpa using hn, fun i hi => ?_⟩
  rw [Array.getElem?_setIfInBounds, if_neg (by omega)]

theorem keepsBelow_tooDeep : KeepsBelow n (tooDeep : CoreM β α) := by
  intro limits core a core' hn hrun
  cases hrun

end CoreM

namespace ReadM

variable {σ α γ β : Type} {n : Nat}

theorem bind_eq_ok_iff {action : ReadM σ β α} {f : α → ReadM σ β γ} {s s' : σ} {limits : Limits}
    {core core' : Core β} {b : γ} :
    (action >>= f) s limits core = .ok (b, s') core' ↔ ∃ a s₁ core₁,
      action s limits core = .ok (a, s₁) core₁ ∧ f a s₁ limits core₁ = .ok (b, s') core' := by
  have hplain : (action >>= f) s limits core = (action s >>= fun p => f p.1 p.2) limits core := rfl
  rw [hplain, reader_bind_eq_ok_iff]
  constructor
  · rintro ⟨⟨a, s₁⟩, core₁, haction, hrest⟩
    exact ⟨a, s₁, core₁, haction, hrest⟩
  · rintro ⟨a, s₁, core₁, haction, hrest⟩
    exact ⟨(a, s₁), core₁, haction, hrest⟩

theorem lift_eq_ok_iff {action : CoreM β α} {s s' : σ} {limits : Limits} {core core' : Core β}
    {a : α} :
    (action.lift : ReadM σ β α) s limits core = .ok (a, s') core' ↔
      action limits core = .ok a core' ∧ s' = s := by
  unfold CoreM.lift
  rw [reader_bind_eq_ok_iff]
  constructor
  · rintro ⟨a', core₁, haction, hrest⟩
    cases hrest
    exact ⟨haction, rfl⟩
  · rintro ⟨haction, rfl⟩
    exact ⟨a, core', haction, rfl⟩

namespace KeepsBelow

variable {action : ReadM σ β α}

theorem lift {action : CoreM β α} (h : CoreM.KeepsBelow n action) :
    KeepsBelow n (action.lift : ReadM σ β α) :=
  fun _ => CoreM.KeepsBelow.bind h fun _ => CoreM.KeepsBelow.pure _

theorem bind {f : α → ReadM σ β γ} (h : KeepsBelow n action) (hf : ∀ a, KeepsBelow n (f a)) :
    KeepsBelow n (action >>= f) :=
  fun s => CoreM.KeepsBelow.bind (h s) fun p => hf p.1 p.2

end KeepsBelow

end ReadM

namespace Plain

open BraceLang.CoreM

variable {n : Nat}

/-! ## Calls -/

theorem sequential_keepsBelow : Sequential fun action _ => ∀ n, CoreM.KeepsBelow n action where
  basic := fun h _ => .of_basic h
  bind := fun h hf n => (h n).bind fun a => hf a n

theorem Step.keepsBelow {α : Type} {action : TokenM α} (h : Step action) :
    ReadM.KeepsBelow n action :=
  fun tokens => CoreM.KeepsBelow.of_basic (h.basic tokens)

theorem related_of_keepsBelow {σ α : Type} {action : ReadM σ Tokens α}
    (h : ∀ n, ReadM.KeepsBelow n action) :
    Related (fun action _ => ∀ n, CoreM.KeepsBelow n action) action action :=
  fun s n => h n s

theorem keepsBelow_extend {β : Type} (scope : Scope β) (actuals : List (List Char × Actual β)) :
    CoreM.KeepsBelow n (extend scope actuals) :=
  .of_basic (basic_extend scope actuals)

/-- The slot of a captured argument. -/
def Actual.slot? {β : Type} : Actual β → Option Nat
  | evaluated _ => none
  | captured slot _ => some slot

/-- The slots of actual parameters. -/
def slotsOf {β : Type} (actuals : List (List Char × Actual β)) : List Nat :=
  actuals.filterMap (·.2.slot?)

/-- The slots of actual parameters are different ones without a value, from a position on. -/
structure Fresh {β : Type} (start : Nat) (core : Core β) (actuals : List (List Char × Actual β)) :
    Prop where
  nodup : (slotsOf actuals).Nodup
  start_le : ∀ slot ∈ slotsOf actuals, start ≤ slot
  empty : ∀ slot ∈ slotsOf actuals, core.slots[slot]? = some none

namespace Fresh

variable {β : Type} {start : Nat} {core core' : Core β} {entry : List Char × Actual β}
  {actuals : List (List Char × Actual β)}

theorem lt_size (h : Fresh start core actuals) {slot : Nat} (hslot : slot ∈ slotsOf actuals) :
    slot < core.slots.size :=
  (Array.getElem?_eq_some_iff.mp (h.empty slot hslot)).1

theorem nil : Fresh start core [] := ⟨List.nodup_nil, by simp [slotsOf], by simp [slotsOf]⟩

theorem cons (h : Fresh start core [entry]) (hstart : start ≤ core.slots.size)
    (hsame : core.SameBelow core.slots.size core') (h' : Fresh core.slots.size core' actuals) :
    Fresh start core' (entry :: actuals) := by
  obtain ⟨name, actual⟩ := entry
  have hrest : ∀ slot ∈ slotsOf actuals, start ≤ slot := fun slot hslot =>
    Nat.le_trans hstart (h'.start_le slot hslot)
  cases actual with
  | evaluated value => exact ⟨h'.nodup, hrest, h'.empty⟩
  | captured slot argument =>
    have hmem : slot ∈ slotsOf [(name, Actual.captured slot argument)] := List.mem_singleton.mpr rfl
    have hlt := h.lt_size hmem
    refine ⟨List.nodup_cons.mpr ⟨?_, h'.nodup⟩, ?_, ?_⟩
    · intro hin
      have := h'.start_le slot hin
      omega
    · intro other hother
      rcases List.mem_cons.mp hother with rfl | hother
      · exact h.start_le _ hmem
      · exact hrest other hother
    · intro other hother
      rcases List.mem_cons.mp hother with rfl | hother
      · rw [hsame.slot _ hlt]
        exact h.empty _ hmem
      · exact h'.empty other hother

theorem tail (h : Fresh start core (entry :: actuals)) : Fresh start core actuals := by
  obtain ⟨name, actual⟩ := entry
  cases actual with
  | evaluated value => exact ⟨h.nodup, h.start_le, h.empty⟩
  | captured slot argument =>
    exact ⟨(List.nodup_cons.mp h.nodup).2, fun other hother =>
      h.start_le other (List.mem_cons_of_mem _ hother), fun other hother =>
      h.empty other (List.mem_cons_of_mem _ hother)⟩

theorem mono (h : Fresh start core actuals) (hsame : core.SameBelow core.slots.size core') :
    Fresh start core' actuals :=
  ⟨h.nodup, h.start_le, fun slot hslot => (hsame.slot slot (h.lt_size hslot)).trans
    (h.empty slot hslot)⟩

/-- The slots that are left are fresh when one has taken its value. -/
theorem fill {name : List Char} {slot : Nat} {argument : β} {value : Datum β}
    (h : Fresh start core ((name, .captured slot argument) :: actuals)) :
    Fresh start { core with slots := core.slots.setIfInBounds slot (some value) } actuals := by
  refine ⟨h.tail.nodup, h.tail.start_le, fun other hother => ?_⟩
  have hne : slot ≠ other := by
    rintro rfl
    exact (List.nodup_cons.mp h.nodup).1 hother
  rw [Array.getElem?_setIfInBounds, if_neg hne]
  exact h.tail.empty other hother

theorem value?_eq_none {name : List Char} {slot : Nat} {argument : β}
    (h : Fresh start core ((name, .captured slot argument) :: actuals)) :
    core.slots.value? slot = none := by
  unfold Slots.value?
  rw [h.empty slot (List.mem_cons_self ..)]
  rfl

end Fresh

section Calls

variable {eval : Scope Tokens → TokenM (Datum Tokens)}

theorem keepsBelow_bindActual (he : ∀ n scope, ReadM.KeepsBelow n (eval scope))
    (scope : Scope Tokens) (param : Param) : ReadM.KeepsBelow n (bindActual eval scope param) :=
  fun tokens => sequential_keepsBelow.congruence.bindActual
    (fun scope => related_of_keepsBelow fun n => he n scope) scope param tokens n

theorem keepsBelow_bindActuals (he : ∀ n scope, ReadM.KeepsBelow n (eval scope))
    (scope : Scope Tokens) (params : List Param) :
    ReadM.KeepsBelow n (bindActuals eval scope params) :=
  fun tokens => sequential_keepsBelow.congruence.bindActuals
    (fun scope => related_of_keepsBelow fun n => he n scope) scope params tokens n

theorem fresh_bindActual {scope : Scope Tokens} {param : Param} {tokens tokens' : Tokens}
    {limits : Limits} {core core' : Core Tokens} {actual : Actual Tokens} {separator : Separator}
    (h : bindActual eval scope param tokens limits core =
      .ok ((actual, separator), tokens') core') :
    Fresh core.slots.size core' [(param.name, actual)] := by
  unfold bindActual at h
  cases hmode : param.mode with
  | eager =>
    simp only [hmode] at h
    obtain ⟨value, tokens₁, core₁, -, hrest⟩ := ReadM.bind_eq_ok_iff.mp h
    obtain ⟨found, tokens₂, core₂, -, hpure⟩ := ReadM.bind_eq_ok_iff.mp hrest
    cases hpure
    exact ⟨List.nodup_nil, by simp [slotsOf, Actual.slot?], by simp [slotsOf, Actual.slot?]⟩
  | deferred =>
    simp only [hmode] at h
    obtain ⟨⟨argument, found⟩, tokens₁, core₁, hcapture, hrest⟩ := ReadM.bind_eq_ok_iff.mp h
    obtain ⟨slot, tokens₂, core₂, hslot, hpure⟩ := ReadM.bind_eq_ok_iff.mp hrest
    obtain ⟨hnew, rfl⟩ := ReadM.lift_eq_ok_iff.mp hslot
    obtain ⟨-, rfl, rfl⟩ := CoreM.newSlot_eq_ok_iff.mp hnew
    cases hpure
    have hsize := (Step.captureArgument.keepsBelow _ _ _ _ _
      (Nat.le_refl _) hcapture).size_le
    refine ⟨List.nodup_cons.mpr ⟨List.not_mem_nil, List.nodup_nil⟩, ?_, ?_⟩
    · intro other hother
      cases List.mem_singleton.mp hother
      exact hsize
    · intro other hother
      cases List.mem_singleton.mp hother
      simp

theorem fresh_bindActuals (he : ∀ n scope, ReadM.KeepsBelow n (eval scope)) {scope : Scope Tokens}
    {params : List Param} {tokens tokens' : Tokens} {limits : Limits} {core core' : Core Tokens}
    {actuals : List (List Char × Actual Tokens)}
    (h : bindActuals eval scope params tokens limits core = .ok (actuals, tokens') core') :
    Fresh core.slots.size core' actuals := by
  induction params generalizing tokens core actuals with
  | nil =>
    cases h
    exact .nil
  | cons param params ih =>
    obtain ⟨⟨actual, separator⟩, tokens₁, core₁, hfirst, hrest⟩ := ReadM.bind_eq_ok_iff.mp h
    obtain ⟨_, tokens₂, core₂, hcheck, hrest⟩ := ReadM.bind_eq_ok_iff.mp hrest
    obtain ⟨found, tokens₃, core₃, htail, hpure⟩ := ReadM.bind_eq_ok_iff.mp hrest
    cases hpure
    have hkept := keepsBelow_bindActual he scope param _ _ _ _ _ (Nat.le_refl _) hfirst
    have hstart := hkept.size_le
    have hsame₁ := (Step.lift (basic_checkSeparator _ _)).keepsBelow _ _ _ _ _
      (Nat.le_refl core₁.slots.size) hcheck
    have hfresh := (fresh_bindActual hfirst).mono hsame₁
    have hsame₂ := keepsBelow_bindActuals he scope params _ _ _ _ _
      (Nat.le_refl core₂.slots.size) htail
    exact hfresh.cons (Nat.le_trans hstart hsame₁.size_le) hsame₂ (ih htail)

theorem keepsBelow_settle (he : ∀ scope, ReadM.KeepsBelow n (eval scope)) (scope : Scope Tokens)
    (name : List Char) {actual : Actual Tokens} (hslot : ∀ slot ∈ actual.slot?, n ≤ slot) :
    CoreM.KeepsBelow n (settle eval scope name actual) := by
  cases actual with
  | evaluated value => exact CoreM.KeepsBelow.pure _
  | captured slot argument =>
    refine CoreM.KeepsBelow.bind (he scope argument) fun result => ?_
    obtain ⟨value, left⟩ := result
    cases left with
    | nil => exact keepsBelow_fill (hslot slot rfl) _
    | cons token left => exact .of_basic (basic_fail _)

/-- The slots of the other arguments are still fresh when an argument is settled. -/
theorem Fresh.settle (he : ∀ n scope, ReadM.KeepsBelow n (eval scope)) {scope : Scope Tokens}
    {name : List Char} {actual : Actual Tokens} {actuals : List (List Char × Actual Tokens)}
    {start : Nat} {limits : Limits} {core core' : Core Tokens}
    (h : Fresh start core ((name, actual) :: actuals))
    (hrun : Plain.settle eval scope name actual limits core = .ok () core') :
    Fresh start core' actuals := by
  cases actual with
  | evaluated value =>
    cases hrun
    exact h.tail
  | captured slot argument =>
    obtain ⟨⟨value, left⟩, core₁, hvalue, hfill⟩ := reader_bind_eq_ok_iff.mp hrun
    have hsame := he core.slots.size scope argument limits core _ _ (Nat.le_refl _) hvalue
    cases left with
    | nil =>
      cases hfill
      exact (h.mono hsame).fill
    | cons token left => cases hfill

theorem keepsBelow_settleAll (he : ∀ scope, ReadM.KeepsBelow n (eval scope)) (scope : Scope Tokens)
    {actuals : List (List Char × Actual Tokens)} (hslots : ∀ slot ∈ slotsOf actuals, n ≤ slot) :
    CoreM.KeepsBelow n (settleAll eval scope actuals) := by
  induction actuals with
  | nil => exact CoreM.KeepsBelow.pure _
  | cons entry actuals ih =>
    obtain ⟨name, actual⟩ := entry
    have hhead : ∀ slot ∈ actual.slot?, n ≤ slot := fun slot hslot =>
      hslots slot (List.mem_filterMap.mpr ⟨(name, actual), List.mem_cons_self .., hslot⟩)
    have htail : ∀ slot ∈ slotsOf actuals, n ≤ slot := by
      intro slot hslot
      obtain ⟨found, hfound, hsome⟩ := List.mem_filterMap.mp hslot
      exact hslots slot (List.mem_filterMap.mpr ⟨found, List.mem_cons_of_mem _ hfound, hsome⟩)
    exact (keepsBelow_settle he scope name hhead).bind fun _ => ih htail

theorem keepsBelow_runBody (he : ∀ n scope, ReadM.KeepsBelow n (eval scope))
    (scope : Scope Tokens) (body : Tokens) : CoreM.KeepsBelow n (runBody eval scope body) :=
  sequential_keepsBelow.runBody
    (fun scope => related_of_keepsBelow fun n => he n scope) scope body n

theorem keepsBelow_call (he : ∀ n scope, ReadM.KeepsBelow n (eval scope)) (scope : Scope Tokens)
    (params : List Param) (body : Tokens) (defining : Scope Tokens) :
    ReadM.KeepsBelow n (call eval scope params body defining) := by
  unfold call
  split
  · exact (Step.expect _).keepsBelow.bind fun _ =>
      .lift (keepsBelow_runBody he _ _)
  · intro tokens
    refine CoreM.KeepsBelow.bind_of_run (keepsBelow_bindActuals he scope params tokens) ?_
    intro limits core result core' hn hrun
    obtain ⟨actuals, tokens'⟩ := result
    have hfresh := fresh_bindActuals he hrun
    have hslots : ∀ slot ∈ slotsOf actuals, n ≤ slot := fun slot hslot =>
      Nat.le_trans hn (hfresh.start_le slot hslot)
    refine CoreM.KeepsBelow.bind (ReadM.KeepsBelow.lift (keepsBelow_extend _ _) tokens') ?_
    intro inner
    have hsettle := keepsBelow_settleAll (he n) inner.1 hslots
    refine CoreM.KeepsBelow.bind (ReadM.KeepsBelow.lift hsettle _) fun _ => ?_
    exact ReadM.KeepsBelow.lift (keepsBelow_runBody he _ _) _

end Calls

/-! ## Terms -/

theorem compositional_keepsBelow :
    Compositional fun action _ => ∀ n, CoreM.KeepsBelow n action where
  toSequential := sequential_keepsBelow
  nested := fun h n => (h n).nested
  tooDeep := fun _ _ => keepsBelow_tooDeep
  call := fun he scope params body defining tokens _ =>
    keepsBelow_call (fun n scope tokens => he scope tokens n) scope params body defining tokens

theorem keepsBelow_evaluateWithin (levels n : Nat) (scope : Scope Tokens) :
    ReadM.KeepsBelow n (evaluateWithin levels scope) := fun tokens =>
  compositional_keepsBelow.evaluateWithin (Nat.le_refl levels) scope tokens n

end Plain

end BraceLang
