import BraceLang.Memory
import BraceLang.Proofs.Plain.Datum
import BraceLang.Proofs.Store.Lists
import BraceLang.Proofs.Text.Names

/-!
# What values stand for

A value of an evaluation stands for a datum when its lists can be read to their end and hold what
stands for the parts of the datum. A token stands for a lexeme. Nothing else is a runtime value: the
other values occur only as tokens, in the formal parameters of a closure or in a frame.

The relation is defined by levels, as a value can be nested only as deep as there are cells: every
list and closure has its own cells behind those of its parts. Deferred bindings stand for slots,
whatever is in the slots, so that there are no cycles.

* `Memory.DenotesWithin`: a value that is nested at most to a given depth.
* `Memory.Denotes`: the depth is that of the memory.
* `Memory.DenotesWithin.mono`: what a value stands for does not change while the memory grows.
-/

namespace BraceLang

/-- One memory has everything that the other one had. -/
structure Memory.Extends (m m' : Memory) : Prop where
  store : m.store.Extends m'.store
  texts : ∀ {ref : TextRef} {text : List Char}, m.texts.Names ref text → m'.texts.Names ref text

theorem Memory.Extends.refl (m : Memory) : m.Extends m := ⟨.refl _, id⟩

theorem Memory.Extends.trans {m m' m'' : Memory} (h : m.Extends m') (h' : m'.Extends m'') :
    m.Extends m'' := ⟨h.store.trans h'.store, fun ht => h'.texts (h.texts ht)⟩

/-! ## Tokens -/

/-- The token of a lexeme. -/
inductive TextTable.DenotesToken (t : TextTable) : Value → Lexeme → Prop
  | delimiter {c : Char} : DenotesToken t (.delimiter c) (.delimiter c)
  | string {ref : TextRef} {contents : List Char} :
    t.Names ref contents → DenotesToken t (.string ref) (.string contents)
  | number {n : Float} : DenotesToken t (.number n) (.number n)
  | keyword {k : Keyword} : DenotesToken t (.keyword k) (.keyword k)
  | atom {ref : TextRef} {name : List Char} :
    t.Names ref name → DenotesToken t (.atom ref) (.atom name)

theorem TextTable.DenotesToken.mono {m m' : Memory} {v : Value} {token : Lexeme}
    (h : m.texts.DenotesToken v token) (hext : m.Extends m') : m'.texts.DenotesToken v token := by
  cases h with
  | delimiter => exact .delimiter
  | string hname => exact .string (hext.texts hname)
  | number => exact .number
  | keyword => exact .keyword
  | atom hname => exact .atom (hext.texts hname)

/-- A formal parameter with the reference of its name. -/
structure TextTable.DenotesFormal (t : TextTable) (formal : Formal) (param : Param) : Prop where
  mode : formal.mode = param.mode
  name : t.Names formal.name param.name

namespace Memory

variable (m : Memory)

/-- A list of tokens. -/
def DenotesTokens (l : ListRef) (tokens : Tokens) : Prop :=
  ∃ values, m.store.Chain l values ∧ List.Forall₂ m.texts.DenotesToken values tokens

/-! ## Values -/

section Parts

variable (part : Value → Datum Tokens → Prop)

/-- The value that a frame has for a name. -/
inductive DenotesBound : Value → Bound Tokens → Prop
  | value {v : Value} {d : Datum Tokens} : part v d → DenotesBound v (.value d)
  | slot {ref : SlotRef} : ref.generation = m.store.generation →
      ref.index < m.store.slots.size → DenotesBound (.deferred ref) (.slot ref.index)

/-- A name and its value. -/
structure DenotesBinding (binding : TextRef × Value) (entry : List Char × Bound Tokens) : Prop where
  name : m.texts.Names binding.1 entry.1
  bound : m.DenotesBound part binding.2 entry.2

/-- The entries of a frame. -/
def bindingEntries (binding : TextRef × Value) : List Value := [.atom binding.1, binding.2]

inductive DenotesFrame : Value → Frame Tokens → Prop
  | list {l : ListRef} {bindings : List (TextRef × Value)} {frame : Frame Tokens} :
    m.store.Chain l (bindings.flatMap bindingEntries) →
      List.Forall₂ (m.DenotesBinding part) bindings frame → DenotesFrame (.list l) frame

/-- A list of frames. -/
def DenotesScope (l : ListRef) (scope : Scope Tokens) : Prop :=
  ∃ values, m.store.Chain l values ∧ List.Forall₂ (m.DenotesFrame part) values scope

/-- A value whose parts stand for something in the sense of `part`. -/
inductive DenotesWith : Value → Datum Tokens → Prop
  | number {n : Float} : DenotesWith (.number n) (.number n)
  | string {ref : TextRef} {text : List Char} :
    m.texts.Names ref text → DenotesWith (.string ref) (.string text)
  | list {l : ListRef} {values : List Value} {items : List (Datum Tokens)} :
    m.store.Chain l values → List.Forall₂ part values items → DenotesWith (.list l) (.list items)
  | closure {parts f b e : ListRef} {formals : List Formal} {params : List Param} {body : Tokens}
      {scope : Scope Tokens} :
    m.store.Chain parts [.list f, .list b, .list e] →
      m.store.Chain f (formals.flatMap Closure.entriesOf) →
      List.Forall₂ m.texts.DenotesFormal formals params → m.DenotesTokens b body →
      m.DenotesScope part e scope → DenotesWith (.closure parts) (.closure params body scope)

end Parts

/-- A value that is nested at most to a given depth. -/
def DenotesWithin : Nat → Value → Datum Tokens → Prop
  | 0 => fun _ _ => False
  | depth + 1 => m.DenotesWith (DenotesWithin depth)

/-- What a value of the memory stands for. -/
def Denotes : Value → Datum Tokens → Prop := m.DenotesWithin (m.store.used + 1)

/-- What the environment of an evaluation stands for. -/
def DenotesEnv (env : Environment) (scope : Scope Tokens) : Prop :=
  m.DenotesScope m.Denotes env.frames scope

/-! ## Growth of the memory -/

variable {m} {m' : Memory}

theorem DenotesTokens.mono {l : ListRef} {tokens : Tokens} (h : m.DenotesTokens l tokens)
    (hext : m.Extends m') : m'.DenotesTokens l tokens := by
  obtain ⟨values, hchain, htokens⟩ := h
  exact ⟨values, hchain.mono hext.store, htokens.imp fun _ _ h => h.mono hext⟩

section Parts

variable {part part' : Value → Datum Tokens → Prop}

theorem DenotesBound.mono {v : Value} {b : Bound Tokens} (h : m.DenotesBound part v b)
    (hext : m.Extends m') (hpart : ∀ v d, part v d → part' v d) : m'.DenotesBound part' v b := by
  cases h with
  | value h => exact .value (hpart _ _ h)
  | slot hgeneration hindex =>
    exact .slot (hgeneration.trans hext.store.generation.symm)
      (Nat.lt_of_lt_of_le hindex hext.store.slots_size_le)

theorem DenotesBinding.mono {binding : TextRef × Value} {entry : List Char × Bound Tokens}
    (h : m.DenotesBinding part binding entry) (hext : m.Extends m')
    (hpart : ∀ v d, part v d → part' v d) : m'.DenotesBinding part' binding entry :=
  ⟨hext.texts h.name, h.bound.mono hext hpart⟩

theorem DenotesFrame.mono {v : Value} {frame : Frame Tokens} (h : m.DenotesFrame part v frame)
    (hext : m.Extends m') (hpart : ∀ v d, part v d → part' v d) :
    m'.DenotesFrame part' v frame := by
  cases h with
  | list hchain hbindings =>
    exact .list (hchain.mono hext.store) (hbindings.imp fun _ _ h => h.mono hext hpart)

theorem DenotesScope.mono {l : ListRef} {scope : Scope Tokens} (h : m.DenotesScope part l scope)
    (hext : m.Extends m') (hpart : ∀ v d, part v d → part' v d) :
    m'.DenotesScope part' l scope := by
  obtain ⟨values, hchain, hframes⟩ := h
  exact ⟨values, hchain.mono hext.store, hframes.imp fun _ _ h => h.mono hext hpart⟩

theorem DenotesWith.mono {v : Value} {d : Datum Tokens} (h : m.DenotesWith part v d)
    (hext : m.Extends m') (hpart : ∀ v d, part v d → part' v d) : m'.DenotesWith part' v d := by
  cases h with
  | number => exact .number
  | string hname => exact .string (hext.texts hname)
  | list hchain hitems => exact .list (hchain.mono hext.store) (hitems.imp hpart)
  | closure hparts hformals hparams hbody hscope =>
    exact .closure (hparts.mono hext.store) (hformals.mono hext.store)
      (hparams.imp fun _ _ h => ⟨h.mode, hext.texts h.name⟩) (hbody.mono hext)
      (hscope.mono hext hpart)

end Parts

theorem DenotesWithin.mono {depth depth' : Nat} {v : Value} {d : Datum Tokens}
    (h : m.DenotesWithin depth v d) (hext : m.Extends m') (hdepth : depth ≤ depth') :
    m'.DenotesWithin depth' v d := by
  induction depth generalizing depth' v d with
  | zero => exact h.elim
  | succ depth ih =>
    cases depth' with
    | zero => omega
    | succ depth' =>
      exact DenotesWith.mono h hext fun v d h => ih h (Nat.le_of_succ_le_succ hdepth)

theorem Denotes.mono {v : Value} {d : Datum Tokens} (h : m.Denotes v d) (hext : m.Extends m') :
    m'.Denotes v d :=
  DenotesWithin.mono h hext (Nat.succ_le_succ hext.store.used_le)

theorem DenotesEnv.mono {env : Environment} {scope : Scope Tokens} (h : m.DenotesEnv env scope)
    (hext : m.Extends m') : m'.DenotesEnv env scope :=
  DenotesScope.mono h hext fun _ _ h => h.mono hext

/-! ## Slots -/

/-- The slots hold what stands for these data. -/
structure DenotesSlots (m : Memory) (slots : Slots Tokens) : Prop where
  size : slots.size = m.store.slots.size
  value : ∀ {index : Nat} {slot : Slot}, m.store.slots[index]? = some slot →
    Option.Rel m.Denotes slot.value? (slots.value? index)

theorem rel_mono (hext : m.Extends m') {v? : Option Value} {d? : Option (Datum Tokens)}
    (h : Option.Rel m.Denotes v? d?) : Option.Rel m'.Denotes v? d? := by
  cases h with
  | some h => exact .some (h.mono hext)
  | none => exact .none

namespace DenotesSlots

variable {slots : Slots Tokens}

theorem empty (h : m.store.slots.size = 0) : m.DenotesSlots #[] where
  size := h.symm
  value := by
    intro index slot hslot
    have hlt : index < m.store.slots.size := (Array.getElem?_eq_some_iff.mp hslot).1
    omega

theorem mono (h : m.DenotesSlots slots) (hext : m.Extends m')
    (hslots : m'.store.slots = m.store.slots) : m'.DenotesSlots slots where
  size := by rw [h.size, hslots]
  value := by
    intro index slot hslot
    rw [hslots] at hslot
    exact rel_mono hext (h.value hslot)

/-- An empty slot is added. -/
theorem push (h : m.DenotesSlots slots) (hext : m.Extends m') {slot : Slot}
    (hslots : m'.store.slots = m.store.slots.push slot) (hempty : slot.value? = none) :
    m'.DenotesSlots (slots.push none) where
  size := by simp [h.size, hslots]
  value := by
    intro index found hfound
    rw [hslots, Array.getElem?_push] at hfound
    simp only [Slots.value?, Array.getElem?_push]
    rw [h.size]
    split at hfound
    · cases hfound
      rename_i hindex
      rw [if_pos hindex, hempty]
      exact .none
    · rename_i hindex
      rw [if_neg hindex]
      exact rel_mono hext (h.value hfound)

/-- A slot takes its value. -/
theorem set (h : m.DenotesSlots slots) (hext : m.Extends m') {position : Nat} {slot : Slot}
    {v : Value}
    {d : Datum Tokens} (hslots : m'.store.slots = m.store.slots.setIfInBounds position slot)
    (hvalue : slot.value? = some v) (hv : m.Denotes v d) :
    m'.DenotesSlots (slots.setIfInBounds position (some d)) where
  size := by simp [h.size, hslots]
  value := by
    intro index found hfound
    rw [hslots, Array.getElem?_setIfInBounds] at hfound
    simp only [Slots.value?, Array.getElem?_setIfInBounds]
    rw [h.size]
    split at hfound
    · rename_i hindex
      split at hfound
      · rename_i hlt
        cases hfound
        rw [if_pos hindex, if_pos hlt, hvalue]
        exact .some (hv.mono hext)
      · cases hfound
    · rename_i hindex
      rw [if_neg hindex]
      exact rel_mono hext (h.value hfound)

end DenotesSlots

end Memory

end BraceLang
