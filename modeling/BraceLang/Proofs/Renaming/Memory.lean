import BraceLang.Interpreter
import BraceLang.Proofs.Store.Layout
import BraceLang.Proofs.Store.Lists
import BraceLang.Proofs.Text.Names

/-!
# Names that are replaced

The names in a memory are replaced by others: those of the atoms in its lists, which are the tokens,
formal parameters, bodies and frames, and those of its slots. Strings stay, although they are kept in
the same table. As the renamed memory has a text table of its own, replacing a name is replacing its
reference, and a string gets the reference of the same text.

Everything else about a renamed memory is as it was, so that lists, slots and environments keep
their references.

* `Renaming`: how references are replaced, one to one.
* `Renaming.exists_table`: the names of any table can be replaced one to one.
* `Renaming.items_store`, `Renaming.lookup_store`: reading a renamed store.
* `Renaming.Follows`: an operation on a renamed store that does what another one does on the store.
-/

namespace BraceLang

/-- References to texts of one table are replaced by references to texts of another one: that of an
atom by the reference of the new name, and that of a string by the one of the same text. -/
structure Renaming (rename : String → String) (texts texts' : TextTable) where
  atom : TextRef → TextRef
  string : TextRef → TextRef
  atom_injective : Function.Injective atom
  string_injective : Function.Injective string
  resolve_atom : ∀ ref, texts'.resolve (atom ref) = (texts.resolve ref).map rename
  resolve_string : ∀ ref, texts'.resolve (string ref) = texts.resolve ref

namespace Renaming

/-! ## Tables with other names -/

section Tables

variable {texts texts' : TextTable}

/-- The reference of a text of the first table goes to that of its image, and other references to
ones that are not in use in the second table. -/
def refTo (texts texts' : TextTable) (image : String → String) (ref : TextRef) : TextRef :=
  match texts.resolve ref with
  | .ok text => (texts'.find? (image text)).getD ref
  | .error _ => { ref with symbol := ref.symbol + texts'.size }

theorem resolve_error {ref : TextRef} {e : StoreError} (h : texts.resolve ref = .error e) :
    e = .staleText ref.generation ∧
      (ref.generation = texts.generation → texts.size ≤ ref.symbol) := by
  unfold TextTable.resolve at h
  split at h
  · split at h
    · cases h
    · rename_i hnone
      cases h
      exact ⟨rfl, fun _ => Array.getElem?_eq_none_iff.mp hnone⟩
  · rename_i hgeneration
    cases h
    exact ⟨rfl, fun heq => absurd heq hgeneration⟩

theorem resolve_of_size_le {ref : TextRef} (h : texts.size ≤ ref.symbol) :
    texts.resolve ref = .error (.staleText ref.generation) := by
  have hnone : texts.entries[ref.symbol]? = none := Array.getElem?_eq_none h
  simp only [TextTable.resolve, SymbolTable.resolve?, hnone]
  split <;> rfl

theorem find?_of_mem {text : String} (h : text ∈ texts.entries) :
    ∃ ref, texts.find? text = some ref ∧ texts.resolve ref = .ok text := by
  cases hfind : texts.find? text with
  | some ref => exact ⟨ref, rfl, TextTable.resolve_of_find? hfind⟩
  | none =>
    have hnew := Array.findIdx?_eq_none_iff.mp (Option.map_eq_none_iff.mp hfind)
    simpa using hnew text h

variable {image : String → String} (himage : ∀ text ∈ texts.entries, image text ∈ texts'.entries)
include himage

theorem resolve_refTo (ref : TextRef) :
    texts'.resolve (refTo texts texts' image ref) = (texts.resolve ref).map image := by
  unfold refTo
  cases hresolve : texts.resolve ref with
  | ok text =>
    have hmem := Array.mem_of_getElem? (TextTable.resolve_eq_ok_iff.mp hresolve).2
    obtain ⟨found, hfind, hfound⟩ := find?_of_mem (himage text hmem)
    simp only [hfind, Option.getD_some, hfound]
    rfl
  | error e =>
    rw [(resolve_error hresolve).1]
    exact resolve_of_size_le (Nat.le_add_left _ _)

/-- Different references go to different ones, as the images of different texts are different. -/
theorem refTo_injective (hinjective : Function.Injective image) (hdistinct : texts.Distinct) :
    Function.Injective (refTo texts texts' image) := by
  intro ref ref' heq
  have hresolved := congrArg texts'.resolve heq
  rw [resolve_refTo himage, resolve_refTo himage] at hresolved
  cases hresolve : texts.resolve ref with
  | ok text =>
    cases hresolve' : texts.resolve ref' with
    | ok text' =>
      rw [hresolve, hresolve'] at hresolved
      obtain rfl := hinjective (Except.ok.inj hresolved)
      have hname : texts.Names ref text.toList := by
        rw [TextTable.Names, hresolve, String.ofList_toList]
      have hname' : texts.Names ref' text.toList := by
        rw [TextTable.Names, hresolve', String.ofList_toList]
      exact hname.ref_eq hdistinct hname'
    | error e =>
      rw [hresolve, hresolve'] at hresolved
      cases hresolved
  | error e =>
    cases hresolve' : texts.resolve ref' with
    | ok text' =>
      rw [hresolve, hresolve'] at hresolved
      cases hresolved
    | error e' =>
      simp only [refTo, hresolve, hresolve', TextRef.mk.injEq, Nat.add_right_cancel_iff] at heq
      cases ref
      cases ref'
      simpa using heq

omit himage in
/-- Texts can be added to a table one after the other. -/
theorem exists_interned (texts : TextTable) (hdistinct : texts.Distinct) (more : List String) :
    ∃ texts' : TextTable, texts'.Distinct ∧ (∀ text ∈ texts.entries, text ∈ texts'.entries) ∧
      ∀ text ∈ more, text ∈ texts'.entries := by
  induction more with
  | nil => exact ⟨texts, hdistinct, fun _ => id, by simp⟩
  | cons text more ih =>
    obtain ⟨texts', hdistinct', hkept, hadded⟩ := ih
    have hmem : text ∈ (texts'.intern text).2.entries :=
      Array.mem_of_getElem? (TextTable.resolve_eq_ok_iff.mp (texts'.resolve_intern text)).2
    have hmore : ∀ other ∈ texts'.entries, other ∈ (texts'.intern text).2.entries := by
      intro other hother
      rcases texts'.intern_cases text with ⟨ref, hintern, -⟩ | ⟨-, hintern⟩
      · rwa [hintern]
      · rw [hintern]
        exact Array.mem_push_of_mem _ hother
    refine ⟨(texts'.intern text).2, hdistinct'.intern text,
      fun other hother => hmore other (hkept other hother), fun other hother => ?_⟩
    rcases List.mem_cons.mp hother with rfl | hrest
    · exact hmem
    · exact hmore other (hadded other hrest)

omit himage in
/-- Names can be replaced one to one when the other table has the new names, and all texts as
well. -/
theorem nonempty_of_mem {rename : String → String} (hrename : Function.Injective rename)
    (hdistinct : texts.Distinct) (hkept : ∀ text ∈ texts.entries, text ∈ texts'.entries)
    (hnames : ∀ text ∈ texts.entries, rename text ∈ texts'.entries) :
    Nonempty (Renaming rename texts texts') := by
  have hstrings : ∀ text ∈ texts.entries, id text ∈ texts'.entries := hkept
  refine ⟨{
    atom := refTo texts texts' rename
    string := refTo texts texts' id
    atom_injective := refTo_injective hnames hrename hdistinct
    string_injective := refTo_injective hstrings Function.injective_id hdistinct
    resolve_atom := resolve_refTo hnames
    resolve_string := fun ref => ?_ }⟩
  rw [resolve_refTo hstrings]
  cases texts.resolve ref <;> rfl

omit himage in
/-- The new names can be added to the table. -/
theorem exists_table {rename : String → String} (hrename : Function.Injective rename)
    (hdistinct : texts.Distinct) :
    ∃ texts' : TextTable, texts'.Distinct ∧ Nonempty (Renaming rename texts texts') := by
  obtain ⟨texts', hdistinct', hkept, hadded⟩ :=
    exists_interned texts hdistinct (texts.entries.toList.map rename)
  refine ⟨texts', hdistinct', nonempty_of_mem hrename hdistinct hkept fun text htext => ?_⟩
  exact hadded _ (List.mem_map_of_mem htext.val)

end Tables

/-! ## Renamed memories -/

variable {rename : String → String} {texts texts' : TextTable} (ρ : Renaming rename texts texts')

def value : Value → Value
  | .string text => .string (ρ.string text)
  | .atom name => .atom (ρ.atom name)
  | v => v

def cell (c : Cell) : Cell := { c with value := ρ.value c.value }

def slot (slot : Slot) : Slot :=
  { slot with name := ρ.atom slot.name, value? := slot.value?.map ρ.value }

def store (s : Store) : Store :=
  { s with chunks := s.chunks.map (·.map ρ.cell), slots := s.slots.map ρ.slot }

/-- The memory with its names replaced. -/
def memory (m : Memory) : Memory := ⟨ρ.store m.store, texts'⟩

def interpreter (i : Interpreter) : Interpreter := { i with memory := ρ.memory i.memory }

def state (st : EvalState) : EvalState := { st with store := ρ.store st.store }

def formal (f : Formal) : Formal := { f with name := ρ.atom f.name }

def actual : Actual → Actual
  | .evaluated v => .evaluated (ρ.value v)
  | .captured slot => .captured slot

/-! ## Values -/

section Values

@[simp] theorem typeName_value (v : Value) : (ρ.value v).typeName = v.typeName := by
  cases v <;> rfl

@[simp] theorem number?_value (v : Value) : (ρ.value v).number? = v.number? := by
  cases v <;> rfl

@[simp] theorem list?_value (v : Value) : (ρ.value v).list? = v.list? := by
  cases v <;> rfl

@[simp] theorem isDelimiter_value (c : Char) (v : Value) :
    (ρ.value v).isDelimiter c = v.isDelimiter c := by
  cases v <;> rfl

@[simp] theorem ofToken?_value (v : Value) :
    Separator.ofToken? (ρ.value v) = Separator.ofToken? v := by
  cases v <;> rfl

@[simp] theorem toValue_actual (a : Actual) : (ρ.actual a).toValue = ρ.value a.toValue := by
  cases a <;> rfl

theorem beq_of_injective {f : TextRef → TextRef} (hf : Function.Injective f) (a b : TextRef) :
    (f a == f b) = (a == b) := by
  rw [Bool.eq_iff_iff, beq_iff_eq, beq_iff_eq]
  exact hf.eq_iff

/-- A key of a frame is the name that is looked for, or it is not. -/
theorem same_atom (key : Value) (name : TextRef) :
    (ρ.value key).same (.atom (ρ.atom name)) = key.same (.atom name) := by
  cases key with
  | atom other => exact beq_of_injective ρ.atom_injective other name
  | _ => rfl

end Values

/-! ## Reading a renamed store -/

section Reading

variable (s : Store)

theorem cell_store (ref : CellRef) : (ρ.store s).cell ref = (s.cell ref).map ρ.cell := by
  by_cases hgeneration : ref.generation = s.generation
  · simp only [Store.cell, store, if_pos hgeneration, Array.getElem?_map]
    cases s.chunks[ref.index / s.chunkSize]? with
    | none => rfl
    | some chunk =>
      simp only [Option.map_some, Option.bind_some, Array.getElem?_map]
      cases chunk[ref.index % s.chunkSize]? <;> rfl
  · rw [Store.cell_eq_error_of_generation hgeneration]
    exact Store.cell_eq_error_of_generation (s := ρ.store s) hgeneration

theorem split_store (l : ListRef) :
    (ρ.store s).split l = (s.split l).map (Option.map (Prod.map ρ.value id)) := by
  cases l with
  | empty => rfl
  | chain first =>
    simp only [Store.split, cell_store]
    cases s.cell first <;> rfl

theorem itemsWithin_store (steps : Nat) (l : ListRef) :
    (ρ.store s).itemsWithin steps l = (s.itemsWithin steps l).map (Except.map ρ.value) := by
  induction steps generalizing l with
  | zero => rfl
  | succ steps ih =>
    simp only [Store.itemsWithin, split_store]
    cases s.split l with
    | error e => rfl
    | ok found =>
      cases found with
      | none => rfl
      | some parts =>
        simp only [Except.map, Option.map_some, Prod.map, id, List.map_cons, ih]

/-- A list of a renamed store is the renamed list. -/
theorem items_store (l : ListRef) :
    (ρ.store s).items l = (s.items l).map (Except.map ρ.value) :=
  itemsWithin_store ρ s s.maxSteps l

theorem mapM_id_map {α β : Type} (f : α → β) (items : List (Except StoreError α)) :
    (items.map (Except.map f)).mapM id = (items.mapM id).map (List.map f) := by
  induction items with
  | nil => rfl
  | cons item items ih =>
    rw [List.map_cons, List.mapM_cons, List.mapM_cons, ih]
    cases item with
    | error e => rfl
    | ok value => cases items.mapM id <;> rfl

theorem toList_store (l : ListRef) :
    (ρ.store s).toList l = (s.toList l).map (List.map ρ.value) := by
  simp only [Store.toList, items_store, mapM_id_map]

theorem head?_store (l : ListRef) :
    (ρ.store s).head? l = (s.head? l).map (Option.map ρ.value) := by
  simp only [Store.head?, split_store]
  cases s.split l with
  | error e => rfl
  | ok found => cases found <;> rfl

theorem tail_store (l : ListRef) : (ρ.store s).tail l = s.tail l := by
  simp only [Store.tail, split_store]
  cases s.split l with
  | error e => rfl
  | ok found => cases found <;> rfl

theorem slot_store (ref : SlotRef) : (ρ.store s).slot ref = (s.slot ref).map ρ.slot := by
  by_cases hgeneration : ref.generation = s.generation
  · simp only [Store.slot, store, if_pos hgeneration, Array.getElem?_map]
    cases s.slots[ref.index]? <;> rfl
  · rw [Store.slot_eq_error_of_generation hgeneration]
    exact Store.slot_eq_error_of_generation (s := ρ.store s) hgeneration

/-! ### Names -/

theorem lookupEntries_store (name : TextRef) (entries : List (Except StoreError Value)) :
    Environment.lookupEntries (ρ.atom name) (entries.map (Except.map ρ.value)) =
      (Environment.lookupEntries name entries).map (Option.map ρ.value) := by
  fun_induction Environment.lookupEntries name entries with
  | case1 => rfl
  | case2 => rfl
  | case3 => rfl
  | case4 => rfl
  | case5 key value rest hkey =>
    simp only [List.map_cons, Except.map, Environment.lookupEntries, same_atom, hkey, if_true,
      Option.map_some]
  | case6 key value rest hkey ih =>
    simp only [List.map_cons, Except.map, Environment.lookupEntries, same_atom, hkey]
    exact ih

theorem lookupFrames_store (name : TextRef) (frames : List (Except StoreError Value)) :
    Environment.lookupFrames (ρ.store s) (ρ.atom name) (frames.map (Except.map ρ.value)) =
      (Environment.lookupFrames s name frames).map ρ.value := by
  induction frames with
  | nil => rfl
  | cons frame frames ih =>
    cases frame with
    | error e => rfl
    | ok v =>
      cases v with
      | list entries =>
        simp only [List.map_cons, Except.map, value, Environment.lookupFrames, items_store,
          lookupEntries_store]
        cases Environment.lookupEntries name (s.items entries) with
        | error e => rfl
        | ok found =>
          cases found with
          | none => exact ih
          | some bound => rfl
      | _ => exact ih

/-- A renamed name has the value that the name has. -/
theorem lookup_store (env : Environment) (name : TextRef) :
    env.lookup (ρ.store s) (ρ.atom name) = (env.lookup s name).map ρ.value := by
  simp only [Environment.lookup, items_store, lookupFrames_store]

/-! ### Closures -/

theorem closureOfList_store (parts : ListRef) :
    Closure.ofList (ρ.store s) parts = Closure.ofList s parts := by
  simp only [Closure.ofList, toList_store]
  cases s.toList parts with
  | error e => rfl
  | ok values =>
    simp only [Except.map, Except.mapError, bind, Except.bind]
    rcases values with _ | ⟨a, _ | ⟨b, _ | ⟨c, _ | ⟨d, values⟩⟩⟩⟩
    · rfl
    · cases a <;> rfl
    · cases a <;> cases b <;> rfl
    · cases a <;> cases b <;> cases c <;> rfl
    · cases a <;> cases b <;> cases c <;> rfl

theorem formalsOf_values (entries : List Value) :
    Closure.formalsOf (entries.map ρ.value) =
      (Closure.formalsOf entries).map (List.map ρ.formal) := by
  fun_induction Closure.formalsOf entries with
  | case1 => rfl
  | case2 mode name rest ih =>
    simp only [List.map_cons, value, Closure.formalsOf, ih]
    cases Closure.formalsOf rest <;> rfl
  | case3 entries hnil hpair =>
    rw [Closure.formalsOf]
    · rfl
    · simpa using hnil
    · intro mode name rest heq
      obtain ⟨first, entries, rfl, hfirst, hentries⟩ := List.map_eq_cons_iff.mp heq
      obtain ⟨second, entries, rfl, hsecond, -⟩ := List.map_eq_cons_iff.mp hentries
      cases first <;> cases hfirst
      cases second <;> cases hsecond
      exact hpair _ _ _ rfl

end Reading

/-! ## Working on a renamed store -/

/-- What the first operation does to a store, the second one does to the renamed store, with results
that `f` takes to each other. -/
def Follows {α β : Type} (f : α → β) (action : StoreM α) (action' : StoreM β) : Prop :=
  ∀ s, action' (ρ.store s) =
    match action s with
    | .ok a s' => .ok (f a) (ρ.store s')
    | .error e s' => .error e (ρ.store s')

namespace Follows

variable {α β γ δ : Type} {ρ} {f : α → β} {action : StoreM α} {action' : StoreM β}

theorem pure (a : α) : ρ.Follows f (Pure.pure a) (Pure.pure (f a)) := fun _ => rfl

theorem bind {g : γ → δ} {k : α → StoreM γ} {k' : β → StoreM δ} (h : ρ.Follows f action action')
    (hk : ∀ a, ρ.Follows g (k a) (k' (f a))) : ρ.Follows g (action >>= k) (action' >>= k') := by
  intro s
  have hfirst := h s
  cases hrun : action s with
  | ok a s' =>
    rw [hrun] at hfirst
    rw [bind_of_ok hrun, bind_of_ok hfirst]
    exact hk a s'
  | error e s' =>
    rw [hrun] at hfirst
    rw [bind_of_error hrun, bind_of_error hfirst]

theorem map {g : γ → δ} {k : α → γ} {k' : β → δ} (h : ρ.Follows f action action')
    (hk : ∀ a, k' (f a) = g (k a)) : ρ.Follows g (k <$> action) (k' <$> action') := by
  rw [← bind_pure_comp, ← bind_pure_comp]
  refine h.bind fun a => ?_
  rw [hk]
  exact pure (k a)

theorem read {question : Store → Except StoreError α} {question' : Store → Except StoreError β}
    (h : ∀ s, question' (ρ.store s) = (question s).map f) :
    ρ.Follows f (Store.read question) (Store.read question') := by
  intro s
  simp only [Store.read, h]
  cases question s <;> rfl

end Follows

section Operations

theorem map_modify {α β : Type} (f : α → β) (g : α → α) (g' : β → β)
    (h : ∀ a, f (g a) = g' (f a)) (items : Array α) (i : Nat) :
    (items.modify i g).map f = (items.map f).modify i g' := by
  apply Array.ext_getElem?
  intro j
  rw [Array.getElem?_map, Array.getElem?_modify, Array.getElem?_modify, Array.getElem?_map]
  split
  · cases items[j]? with
    | none => rfl
    | some a => simp only [Option.map_some, h]
  · rfl

theorem roomy_store (s : Store) : (ρ.store s).roomy = s.roomy.map (·.map ρ.cell) := by
  simp only [Store.roomy, store, Array.size_map]
  split
  · rw [Array.map_push, Array.map_empty]
  · rfl

theorem written_store (s : Store) (c : Cell) :
    (ρ.store s).written (ρ.cell c) = ρ.store (s.written c) := by
  have hchunks : (ρ.store s).roomy.modify (s.used / s.chunkSize) (·.push (ρ.cell c)) =
      (s.roomy.modify (s.used / s.chunkSize) (·.push c)).map (·.map ρ.cell) := by
    rw [roomy_store]
    exact (map_modify (fun chunk : Array Cell => chunk.map ρ.cell) (fun chunk => chunk.push c)
      (fun chunk => chunk.push (ρ.cell c)) (fun _ => Array.map_push) s.roomy _).symm
  simp only [Store.written, store] at hchunks ⊢
  rw [hchunks]

theorem follows_alloc (v : Value) (next : ListRef) :
    ρ.Follows id (Store.alloc v next) (Store.alloc (ρ.value v) next) := by
  intro s
  have hlimit : Store.limitReached? (ρ.store s).maxCells (ρ.store s).used =
      Store.limitReached? s.maxCells s.used := rfl
  have hfull : ((ρ.store s).used / (ρ.store s).chunkSize = (ρ.store s).chunks.size ∧
      ¬ (ρ.store s).reserves (ρ.store s).chunkSize) ↔
      (s.used / s.chunkSize = s.chunks.size ∧ ¬ s.reserves s.chunkSize) := by
    have hsize : (ρ.store s).chunks.size = s.chunks.size := Array.size_map
    rw [hsize]
    rfl
  rw [Store.alloc_apply, Store.alloc_apply, hlimit]
  cases Store.limitReached? s.maxCells s.used with
  | some e => rfl
  | none =>
    simp only
    by_cases hroom : s.used / s.chunkSize = s.chunks.size ∧ ¬ s.reserves s.chunkSize
    · rw [if_pos (hfull.mpr hroom), if_pos hroom]
      rfl
    · rw [if_neg (mt hfull.mp hroom), if_neg hroom]
      exact congrArg (EStateM.Result.ok s.nextRef) (ρ.written_store s ⟨v, next⟩)

theorem follows_push (l : ListRef) (v : Value) :
    ρ.Follows id (Store.push l v) (Store.push l (ρ.value v)) :=
  (ρ.follows_alloc v l).map fun _ => rfl

theorem follows_ofList (values : List Value) :
    ρ.Follows id (Store.ofList values) (Store.ofList (values.map ρ.value)) := by
  induction values with
  | nil => exact .pure _
  | cons v values ih =>
    rw [List.map_cons, Store.ofList_cons, Store.ofList_cons]
    exact ih.bind fun l => ρ.follows_push l v

theorem follows_newSlot (name : TextRef) (tokens : ListRef) :
    ρ.Follows id (Store.newSlot name tokens) (Store.newSlot (ρ.atom name) tokens) := by
  intro s
  have hslots : (s.slots.push { name, tokens }).map ρ.slot =
      (s.slots.map ρ.slot).push { name := ρ.atom name, tokens } := by
    rw [Array.map_push]
    rfl
  have hsize : (ρ.store s).slots.size = s.slots.size := Array.size_map
  simp only [Store.newSlot_eq, hsize]
  cases Store.indexFault? s.slots.size with
  | some e => rfl
  | none =>
    simp only [store, hslots]
    rfl

theorem setSlot_store (s : Store) (index : Nat) (slot : Slot) :
    (ρ.store s).setSlot index (ρ.slot slot) = ρ.store (s.setSlot index slot) := by
  simp only [Store.setSlot, store, Array.map_setIfInBounds]

theorem follows_fill (ref : SlotRef) (v : Value) :
    ρ.Follows id (Store.fill ref v) (Store.fill ref (ρ.value v)) := by
  intro s
  simp only [Store.fill, slot_store]
  cases s.slot ref with
  | error e => rfl
  | ok found =>
    cases hvalue : found.value? with
    | some old => simp only [Except.map, slot, hvalue, Option.map_some]
    | none =>
      have hset := ρ.setSlot_store s ref.index { found with value? := some v }
      simp only [Except.map, slot, hvalue, Option.map_none] at hset ⊢
      rw [← hset]
      rfl

theorem follows_build (c : Closure) : ρ.Follows ρ.value c.build c.build :=
  (ρ.follows_ofList [.list c.formals, .list c.body, .list c.env]).map fun _ => rfl

theorem follows_extend (env : Environment) (bindings : List (TextRef × Value)) :
    ρ.Follows id (env.extend bindings)
      (env.extend (bindings.map (Prod.map ρ.atom ρ.value))) := by
  have hentries : ∀ entries : TextRef × Value → List Value,
      (∀ b, entries (Prod.map ρ.atom ρ.value b) = (entries b).map ρ.value) →
      (bindings.map (Prod.map ρ.atom ρ.value)).flatMap entries =
        (bindings.flatMap entries).map ρ.value := by
    intro entries heach
    rw [List.flatMap_map, List.map_flatMap]
    exact congrArg (fun f => bindings.flatMap f) (funext heach)
  unfold Environment.extend
  rw [hentries _ fun _ => rfl]
  refine (ρ.follows_ofList _).bind fun frame => ?_
  exact (ρ.follows_push env.frames (.list frame)).bind fun frames => .pure _

end Operations

end Renaming

end BraceLang
