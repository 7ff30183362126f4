import BraceLang.Error
import BraceLang.Store.Chain

/-!
# Memory

Values refer to cells and slots of a store and to texts of a table. The two together are the
memory that an interpreter works on.

* `Memory.ofStoreM`: an operation of the store is one of the memory. What it wrote stays
  written when it fails.
* `Memory.intern`: texts are added to the table alone.
-/

namespace BraceLang

/-- A store and a text table. -/
structure Memory where
  store : Store
  texts : TextTable := {}

/-- Operations on a memory keep what they wrote when they fail later. -/
abbrev MemoryM := EStateM EvalError Memory

namespace Memory

/-- Work on the store. -/
def ofStoreM {α : Type} (action : StoreM α) : MemoryM α
  | ⟨store, texts⟩ =>
    match action store with
    | .ok a store => .ok a ⟨store, texts⟩
    | .error e store => .error (.ofStore e) ⟨store, texts⟩

/-- The reference of a text. -/
def intern (text : String) : MemoryM TextRef :=
  modifyGet fun m =>
    let (ref, texts) := m.texts.intern text
    (ref, { m with texts })

theorem ofStoreM_ok {α : Type} {action : StoreM α} {m : Memory} {a : α} {store : Store}
    (h : action m.store = .ok a store) : ofStoreM action m = .ok a { m with store } := by
  simp [ofStoreM, h]

theorem ofStoreM_error {α : Type} {action : StoreM α} {m : Memory} {e : StoreError}
    {store : Store} (h : action m.store = .error e store) :
    ofStoreM action m = .error (.ofStore e) { m with store } := by
  simp [ofStoreM, h]

end Memory

end BraceLang
