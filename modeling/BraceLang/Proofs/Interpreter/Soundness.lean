import BraceLang.Proofs.Interpreter.Independence

/-!
# Soundness of evaluation

All kinds of values share one representation in the memory, but what an evaluation gives is always a
runtime value through and through: no token, no entry of a frame and no reference that cannot be
read is left anywhere in it. An evaluation never finds the memory out of order.

* `Memory.Runtime`: a runtime value, in terms of what can be read from the memory.
* `Interpreter.evalText_sound`: every evaluation gives a runtime value or a failure of the program.
-/

namespace BraceLang

namespace Memory

/-! ## Runtime values -/

/-- The text of the reference can be read. -/
def Readable (m : Memory) (ref : TextRef) : Prop := ∃ text, m.texts.resolve ref = .ok text

/-- A token of a program. -/
def IsToken (m : Memory) : Value → Prop
  | .delimiter _ | .number _ | .keyword _ => True
  | .string ref | .atom ref => m.Readable ref
  | _ => False

/-- A frame with these bindings. -/
def HoldsBindings (m : Memory) (frame : Value) (bindings : List (TextRef × Value)) : Prop :=
  ∃ l, frame = .list l ∧ m.store.toList l = .ok (bindings.flatMap bindingEntries)

mutual

/-- A value that programs can pass around. Closures are made of formal parameters, tokens and
frames, and what a frame binds is a runtime value or a deferred argument. -/
inductive Runtime (m : Memory) : Value → Prop
  | number {n : Float} : Runtime m (.number n)
  | string {ref : TextRef} : m.Readable ref → Runtime m (.string ref)
  | list {l : ListRef} {values : List Value} : m.store.toList l = .ok values →
    (∀ v ∈ values, Runtime m v) → Runtime m (.list l)
  | closure {parts : ListRef} {c : Closure} {formals : List Formal} {tokens frames : List Value}
      {bindings : List (List (TextRef × Value))} :
    Closure.ofList m.store parts = .ok c →
      c.formalList m.store = .ok formals → (∀ f ∈ formals, m.Readable f.name) →
      m.store.toList c.body = .ok tokens → (∀ token ∈ tokens, m.IsToken token) →
      m.store.toList c.env = .ok frames → List.Forall₂ m.HoldsBindings frames bindings →
      (∀ frame ∈ bindings, ∀ binding ∈ frame, RuntimeBinding m binding) →
      Runtime m (.closure parts)

/-- What a frame binds to a name. -/
inductive RuntimeBinding (m : Memory) : TextRef × Value → Prop
  | value {name : TextRef} {v : Value} : m.Readable name → Runtime m v → RuntimeBinding m (name, v)
  | deferred {name : TextRef} {ref : SlotRef} {slot : Slot} : m.Readable name →
    m.store.slot ref = .ok slot → RuntimeBinding m (name, .deferred ref)

end

/-! ## What stands for a datum is a runtime value -/

variable {m : Memory}

theorem exists_of_mem_forall₂ {α β : Type} {R : α → β → Prop} {xs : List α} {ys : List β}
    (h : List.Forall₂ R xs ys) {x : α} (hx : x ∈ xs) : ∃ y, R x y := by
  induction h with
  | nil => cases hx
  | cons hhead _ ih =>
    rcases List.mem_cons.mp hx with rfl | hx
    · exact ⟨_, hhead⟩
    · exact ih hx

theorem readable_of_names {ref : TextRef} {text : List Char} (h : m.texts.Names ref text) :
    m.Readable ref := ⟨_, h⟩

theorem isToken_of_denotes {v : Value} {token : Lexeme} (h : m.texts.DenotesToken v token) :
    m.IsToken v := by
  cases h with
  | delimiter => exact trivial
  | string hname => exact readable_of_names hname
  | number => exact trivial
  | keyword => exact trivial
  | atom hname => exact readable_of_names hname

section Parts

variable {part : Value → Datum Tokens → Prop}

theorem runtimeBinding_of_denotes (hpart : ∀ v d, part v d → m.Runtime v)
    {binding : TextRef × Value} {entry : List Char × Bound Tokens}
    (h : m.DenotesBinding part binding entry) : m.RuntimeBinding binding := by
  obtain ⟨name, v⟩ := binding
  obtain ⟨text, bound⟩ := entry
  obtain ⟨hname, hbound⟩ := h
  cases hbound with
  | value h => exact .value (readable_of_names hname) (hpart _ _ h)
  | slot hgeneration hindex =>
    exact .deferred (readable_of_names hname) (slot_eq hgeneration hindex)

/-- The bindings of the frames of a scope. -/
theorem exists_bindings (hs : m.store.Layout) (hpart : ∀ v d, part v d → m.Runtime v)
    {frames : List Value} {scope : Scope Tokens}
    (h : List.Forall₂ (m.DenotesFrame part) frames scope) :
    ∃ bindings, List.Forall₂ m.HoldsBindings frames bindings ∧
      ∀ frame ∈ bindings, ∀ binding ∈ frame, m.RuntimeBinding binding := by
  induction h with
  | nil => exact ⟨[], .nil, by simp⟩
  | cons hframe _ ih =>
    obtain ⟨rest, hrest, hbound⟩ := ih
    cases hframe with
    | @list l bindings frame hchain hbindings =>
      refine ⟨bindings :: rest, .cons ⟨l, rfl, hchain.toList_eq hs⟩ hrest, ?_⟩
      intro found hfound binding hbinding
      rcases List.mem_cons.mp hfound with rfl | hfound
      · obtain ⟨entry, hentry⟩ := exists_of_mem_forall₂ hbindings hbinding
        exact runtimeBinding_of_denotes hpart hentry
      · exact hbound found hfound binding hbinding

end Parts

theorem runtime_of_denotesWithin (hs : m.store.Layout) {depth : Nat} {v : Value} {d : Datum Tokens}
    (h : m.DenotesWithin depth v d) : m.Runtime v := by
  induction depth generalizing v d with
  | zero => exact h.elim
  | succ depth ih =>
    have hpart : ∀ v d, m.DenotesWithin depth v d → m.Runtime v := fun _ _ h => ih h
    have hcases : m.DenotesWith (m.DenotesWithin depth) v d := h
    cases hcases with
    | number => exact .number
    | string hname => exact .string (readable_of_names hname)
    | list hchain hitems =>
      refine .list (hchain.toList_eq hs) fun v hv => ?_
      obtain ⟨item, hitem⟩ := exists_of_mem_forall₂ hitems hv
      exact ih hitem
    | closure hparts hformals hparams hbody hscope =>
      obtain ⟨tokens, hchain, htokens⟩ := hbody
      obtain ⟨frames, hframes, hscope⟩ := hscope
      obtain ⟨bindings, hbindings, hbound⟩ := exists_bindings hs hpart hscope
      refine .closure (closureOfList_eq hs hparts) (formalList_eq hs hformals) (fun f hf => ?_)
        (hchain.toList_eq hs) (fun token htoken => ?_) (hframes.toList_eq hs) hbindings hbound
      · obtain ⟨param, hparam⟩ := exists_of_mem_forall₂ hparams hf
        exact readable_of_names hparam.name
      · obtain ⟨lexeme, hlexeme⟩ := exists_of_mem_forall₂ htokens htoken
        exact isToken_of_denotes hlexeme

/-- Slots that have a value have a runtime value. -/
theorem runtime_of_denotesSlots (hs : m.store.Layout) {slots : Slots Tokens}
    (h : m.DenotesSlots slots) {slot : Slot} (hslot : slot ∈ m.store.slots) {v : Value}
    (hv : slot.value? = some v) : m.Runtime v := by
  obtain ⟨index, hindex⟩ := Array.mem_iff_getElem?.mp hslot
  have hrel := h.value hindex
  rw [hv] at hrel
  generalize slots.value? index = d? at hrel
  cases hrel with
  | some hdenotes => exact runtime_of_denotesWithin hs hdenotes

end Memory

namespace Interpreter

/-- After any calls, an evaluation gives a runtime value, and runtime values to the deferred
arguments, or it fails because of the program. -/
theorem evalText_sound (config : Config) (calls : List Call) (text : String) :
    match evalText text ((new config).after calls) with
    | .ok v i => i.memory.Runtime v ∧
        ∀ slot ∈ i.memory.store.slots, ∀ w, slot.value? = some w → i.memory.Runtime w
    | .error e _ => e.isInternal = false := by
  have hagrees := agrees_evalText ((ready_new config).after calls) text
  generalize evalText text ((new config).after calls) = result at hagrees
  generalize Plain.evalText config.lexicon text config.limits {} = result' at hagrees
  cases hagrees with
  | ok hfits hv =>
    exact ⟨Memory.runtime_of_denotesWithin hfits.memory.layout hv, fun slot hslot w hw =>
      Memory.runtime_of_denotesSlots hfits.memory.layout hfits.memory.slots hslot hw⟩
  | error fault hused => exact fault.property

end Interpreter

end BraceLang
