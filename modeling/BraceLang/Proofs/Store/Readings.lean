import BraceLang.Closure
import BraceLang.Environment
import BraceLang.Rendering

/-!
# Why a reading fails

Reading from a memory fails because a handle is stale or because what is found has not the form
that is asked for, and for no other reason. This is so for every memory, also for one whose lists
were put together by hand. In particular no reading fails because a slot has its value or because
no level of depth is left: these failures are left to the operation that fills a slot and to the
terms.

* `FailsWith`: the failure of a computation, if there is one, has a property.
* `Store.failsWith_items`, `Environment.failsWith_lookup`: lists and environments.
* `Closure.failsWith_ofList`, `Memory.failsWith_render`: closures and texts.
-/

namespace BraceLang

/-! ## Failures of computations -/

/-- If the computation fails, then with a failure that has the property. -/
def FailsWith {ε α : Type} (P : ε → Prop) (r : Except ε α) : Prop := ∀ e, r = .error e → P e

namespace FailsWith

variable {ε δ α β : Type} {P : ε → Prop} {Q : δ → Prop} {r : Except ε α}

theorem pure (a : α) : FailsWith P (Pure.pure a) := by
  intro e h
  cases h

theorem throw {e : ε} (h : P e) : FailsWith P (throw e : Except ε α) := by
  intro e' he
  cases he
  exact h

theorem bind {f : α → Except ε β} (h : FailsWith P r) (hf : ∀ a, FailsWith P (f a)) :
    FailsWith P (r >>= f) := by
  intro e he
  cases hr : r with
  | ok a =>
    rw [hr] at he
    exact hf a e he
  | error e' =>
    rw [hr] at he
    cases he
    exact h e hr

theorem map {f : α → β} (h : FailsWith P r) : FailsWith P (r.map f) := by
  intro e he
  cases hr : r with
  | ok a =>
    rw [hr] at he
    cases he
  | error e' =>
    rw [hr] at he
    cases he
    exact h e hr

theorem mapError {f : ε → δ} (h : FailsWith P r) (hf : ∀ e, P e → Q (f e)) :
    FailsWith Q (r.mapError f) := by
  intro e he
  cases hr : r with
  | ok a =>
    rw [hr] at he
    cases he
  | error e' =>
    rw [hr] at he
    cases he
    exact hf e' (h e' hr)

theorem mapM {f : α → Except ε β} {xs : List α} (h : ∀ x ∈ xs, FailsWith P (f x)) :
    FailsWith P (xs.mapM f) := by
  induction xs with
  | nil => exact pure []
  | cons x xs ih =>
    rw [List.mapM_cons]
    have hrest := ih fun y hy => h y (List.mem_cons_of_mem _ hy)
    exact (h x List.mem_cons_self).bind fun _ => hrest.bind fun _ => pure _

end FailsWith

/-! ## The failure of filling a slot -/

/-- Whether the failure is that of a slot which has its value. -/
def StoreError.isRefill : StoreError → Bool
  | slotFilled _ => true
  | _ => false

/-- Whether the failure is that of a slot which has its value. -/
def EvalError.isRefill : EvalError → Bool
  | invalidHandle cause => cause.isRefill
  | _ => false

@[simp] theorem EvalError.isRefill_ofStore (e : StoreError) :
    (EvalError.ofStore e).isRefill = e.isRefill := by
  cases e <;> rfl

/-- Whether the failure is neither that of a slot which has its value nor that of a depth that is
exceeded. -/
def EvalError.isLocal : EvalError → Bool
  | tooDeep _ => false
  | invalidHandle cause => !cause.isRefill
  | _ => true

theorem EvalError.isLocal_ofStore {e : StoreError} (h : e.isRefill = false) :
    (EvalError.ofStore e).isLocal = true := by
  cases e with
  | slotFilled index => cases h
  | _ => rfl

theorem EvalError.isRefill_of_isLocal {e : EvalError} (h : e.isLocal = true) :
    e.isRefill = false := by
  cases e with
  | invalidHandle cause => simpa [isLocal, isRefill] using h
  | _ => rfl

/-- The computation fails neither because a slot has its value nor because the depth is exceeded. -/
abbrev FailsLocally {α : Type} (r : Except EvalError α) : Prop :=
  FailsWith (fun e => e.isLocal = true) r

/-! ## Lists -/

namespace Store

/-- The failure of a reading. -/
def IsStale (e : StoreError) : Prop := ∃ index, e = .staleCell index

theorem isRefill_of_isStale {e : StoreError} (h : IsStale e) : e.isRefill = false := by
  obtain ⟨index, rfl⟩ := h
  rfl

variable (s : Store)

theorem failsWith_cell (ref : CellRef) : FailsWith IsStale (s.cell ref) := by
  intro e h
  unfold cell at h
  split at h
  · split at h
    · cases h
    · cases h
      exact ⟨_, rfl⟩
  · cases h
    exact ⟨_, rfl⟩

theorem failsWith_slot (ref : SlotRef) : FailsWith IsStale (s.slot ref) := by
  intro e h
  unfold slot at h
  split at h
  · split at h
    · cases h
    · cases h
      exact ⟨_, rfl⟩
  · cases h
    exact ⟨_, rfl⟩

theorem failsWith_split (l : ListRef) : FailsWith IsStale (s.split l) := by
  cases l with
  | empty => exact .pure none
  | chain first => exact (s.failsWith_cell first).map

theorem failsWith_head? (l : ListRef) : FailsWith IsStale (s.head? l) := (s.failsWith_split l).map

theorem failsWith_tail (l : ListRef) : FailsWith IsStale (s.tail l) := (s.failsWith_split l).map

theorem failsWith_items (l : ListRef) : ∀ item ∈ s.items l, FailsWith IsStale item := by
  unfold items
  generalize s.maxSteps = steps
  induction steps generalizing l with
  | zero =>
    intro item hitem
    cases hitem
  | succ steps ih =>
    intro item hitem
    unfold itemsWithin at hitem
    cases hsplit : s.split l with
    | error e =>
      rw [hsplit] at hitem
      rw [List.mem_singleton.mp hitem]
      exact .throw (s.failsWith_split l e hsplit)
    | ok parts =>
      rw [hsplit] at hitem
      cases parts with
      | none => cases hitem
      | some parts =>
        rcases List.mem_cons.mp hitem with rfl | hrest
        · exact .pure _
        · exact ih _ item hrest

theorem failsWith_toList (l : ListRef) : FailsWith IsStale (s.toList l) :=
  .mapM (s.failsWith_items l)

end Store

theorem failsLocally_of_stale {α : Type} {r : Except StoreError α}
    (h : FailsWith Store.IsStale r) : FailsLocally (r.mapError EvalError.ofStore) :=
  h.mapError fun _ he => EvalError.isLocal_ofStore (Store.isRefill_of_isStale he)

/-! ## Environments -/

namespace Environment

open Store

theorem failsWith_lookupEntries (name : TextRef) {items : List (Except StoreError Value)}
    (h : ∀ item ∈ items, FailsWith IsStale item) :
    FailsWith IsStale (lookupEntries name items) := by
  induction items using lookupEntries.induct name with
  | case1 => exact .pure none
  | case2 e items =>
    have he := h (.error e) List.mem_cons_self e rfl
    exact .throw he
  | case3 value => exact .pure none
  | case4 key e items =>
    have he := h (.error e) (List.mem_cons_of_mem _ List.mem_cons_self) e rfl
    exact .throw he
  | case5 key value items hsame =>
    unfold lookupEntries
    rw [if_pos hsame]
    exact .pure (some value)
  | case6 key value items hsame ih =>
    unfold lookupEntries
    rw [if_neg hsame]
    exact ih fun item hitem => h item (List.mem_cons_of_mem _ (List.mem_cons_of_mem _ hitem))

theorem failsWith_lookupFrames (s : Store) (name : TextRef) {items : List (Except StoreError Value)}
    (h : ∀ item ∈ items, FailsWith IsStale item) :
    FailsWith IsStale (lookupFrames s name items) := by
  induction items with
  | nil => exact .pure Value.absent
  | cons item items ih =>
    have hrest := ih fun item hitem => h item (List.mem_cons_of_mem _ hitem)
    cases item with
    | error e => exact .throw (h (.error e) List.mem_cons_self e rfl)
    | ok value =>
      cases value with
      | list frame =>
        refine (failsWith_lookupEntries name (s.failsWith_items frame)).bind fun found => ?_
        cases found with
        | none => exact hrest
        | some value => exact .pure value
      | _ => exact hrest

theorem failsWith_lookup (env : Environment) (s : Store) (name : TextRef) :
    FailsWith IsStale (env.lookup s name) :=
  failsWith_lookupFrames s name (s.failsWith_items env.frames)

end Environment

/-! ## Closures -/

namespace Closure

theorem failsWith_ofList (s : Store) (parts : ListRef) : FailsLocally (ofList s parts) := by
  refine (failsLocally_of_stale (s.failsWith_toList parts)).bind fun values => ?_
  split
  · exact .pure _
  · exact .throw rfl

theorem failsWith_formalsOf (values : List Value) : FailsLocally (formalsOf values) := by
  induction values using formalsOf.induct with
  | case1 => exact .pure []
  | case2 mode name rest ih => exact ih.map
  | case3 values hnil hcons =>
    unfold formalsOf
    split
    · exact absurd rfl hnil
    · exact absurd rfl (hcons _ _ _)
    · exact .throw rfl

theorem failsWith_formalList (s : Store) (c : Closure) : FailsLocally (c.formalList s) :=
  (failsLocally_of_stale (s.failsWith_toList c.formals)).bind fun values =>
    failsWith_formalsOf values

end Closure

/-! ## Texts -/

theorem TextTable.failsWith_resolve (t : TextTable) (ref : TextRef) :
    FailsLocally ((t.resolve ref).mapError EvalError.ofStore) := by
  intro e h
  unfold resolve at h
  split at h
  · split at h
    · cases h
    · cases h
      rfl
  · cases h
    rfl

namespace Memory

variable (m : Memory)

theorem failsWith_textOf (ref : TextRef) : FailsLocally (m.textOf ref) := by
  intro e h
  unfold textOf at h
  cases hr : m.texts.resolve ref with
  | ok text =>
    rw [hr] at h
    cases h
  | error e' =>
    rw [hr] at h
    cases h
    refine m.texts.failsWith_resolve ref _ ?_
    rw [hr]
    rfl

theorem failsWith_eachItem {α : Type} {write : Value → Except EvalError α}
    (hw : ∀ v, FailsLocally (write v)) (l : ListRef) : FailsLocally (m.eachItem write l) := by
  refine .mapM fun item hitem => ?_
  exact (failsLocally_of_stale (m.store.failsWith_items l item hitem)).bind hw

section Parts

variable {part : Detail → Value → Except EvalError (List Char)}
  (hp : ∀ detail v, FailsLocally (part detail v))
include hp

theorem failsWith_tokensWith (tokens : ListRef) : FailsLocally (m.tokensWith part tokens) :=
  (m.failsWith_eachItem (fun v => (hp .brief v).map) tokens).map

theorem failsWith_bindingsWith (values : List Value) : FailsLocally (bindingsWith part values) := by
  induction values using bindingsWith.induct with
  | case1 => exact .pure []
  | case2 value => exact .pure [[]]
  | case3 name value rest ih =>
    exact (hp .brief name).bind fun _ => (hp .brief value).bind fun _ => ih.bind fun _ => .pure _

theorem failsWith_frameWith (frame : Value) : FailsLocally (m.frameWith part frame) := by
  cases frame with
  | list l =>
    exact (failsLocally_of_stale (m.store.failsWith_toList l)).bind fun entries =>
      (failsWith_bindingsWith hp entries).bind fun _ => .pure _
  | _ => exact .throw rfl

theorem failsWith_environmentWith (detail : Detail) (env : ListRef) :
    FailsLocally (m.environmentWith part detail env) := by
  unfold environmentWith
  split
  · exact .pure []
  · cases detail with
    | brief => exact .pure _
    | full => exact (m.failsWith_eachItem (m.failsWith_frameWith hp) env).bind fun _ => .pure _

theorem failsWith_closureWith (detail : Detail) (parts : ListRef) :
    FailsLocally (m.closureWith part detail parts) := by
  refine (Closure.failsWith_ofList m.store parts).bind fun c => ?_
  refine (Closure.failsWith_formalList m.store c).bind fun formals => ?_
  have hformal : ∀ f : Formal, FailsLocally (m.formal f) := fun f =>
    (m.failsWith_textOf f.name).bind fun _ => .pure _
  refine (FailsWith.mapM fun f _ => hformal f).bind fun _ => ?_
  refine (m.failsWith_tokensWith hp c.body).bind fun _ => ?_
  exact (m.failsWith_environmentWith hp detail c.env).bind fun _ => .pure _

theorem failsWith_valueWith (detail : Detail) (v : Value) :
    FailsLocally (m.valueWith part detail v) := by
  cases v with
  | string text => exact (m.failsWith_textOf text).map
  | atom name => exact m.failsWith_textOf name
  | mode mode => cases mode <;> exact .pure _
  | list items => exact (m.failsWith_eachItem (hp detail) items).map
  | closure parts => exact m.failsWith_closureWith hp detail parts
  | deferred ref =>
    refine (failsLocally_of_stale (m.store.failsWith_slot ref)).bind fun slot => ?_
    cases slot.value? with
    | some value => exact hp detail value
    | none => exact .pure _
  | _ => exact .pure _

end Parts

theorem failsWith_valueWithin (depth : Nat) (detail : Detail) (v : Value) :
    FailsLocally (m.valueWithin depth detail v) := by
  induction depth generalizing detail v with
  | zero => exact .throw rfl
  | succ depth ih => exact m.failsWith_valueWith ih detail v

theorem failsWith_render (v : Value) : FailsLocally (m.render v) :=
  (m.failsWith_valueWithin m.maxNesting .full v).map

end Memory

end BraceLang
