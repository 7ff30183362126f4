import BraceLang.Interpreter
import BraceLang.Proofs.Denotation.Scanning

/-!
# Simulation of whole runs

An interpreter that is in order gives the outcome of the run on data, whatever texts it has
evaluated before: the run on data knows the text and the settings only.

* `Interpreter.Ready`: an interpreter that is in order. It is so when it is new and stays so,
  however its evaluations end.
* `Interpreter.agrees_evalText`, `Interpreter.agrees_run`: evaluating a text.
-/

namespace BraceLang

/-- What the settings put bounds on. -/
def Config.limits (config : Config) : Limits :=
  ⟨config.maxDepth, 0, Store.refusal? config.reserves config.maxCells (max config.chunkSize 1)⟩

/-! ## What evaluations keep -/

/-- Cells are only added, and so are texts, which stay different. -/
structure Memory.Continues (m m' : Memory) : Prop where
  store : m.store.Grows m'.store
  distinct : m.texts.Distinct → m'.texts.Distinct
  texts : ∀ {ref : TextRef} {text : List Char}, m.texts.Names ref text → m'.texts.Names ref text
  textGeneration : m'.texts.generation = m.texts.generation

namespace Memory

instance : IsPreorder Memory Continues where
  refl := fun m => ⟨Std.Refl.refl m.store, id, id, rfl⟩
  trans := fun _ _ _ h h' =>
    ⟨IsTrans.trans _ _ _ h.store h'.store, fun hd => h'.distinct (h.distinct hd),
      fun hn => h'.texts (h.texts hn), h'.textGeneration.trans h.textGeneration⟩

theorem keeps_ofStoreM {α : Type} {action : StoreM α} (h : Keeps Store.Grows action) :
    Keeps Continues (Memory.ofStoreM action) := by
  intro m
  have hgrows := h m.store
  cases hrun : action m.store with
  | ok a store =>
    rw [ofStoreM_ok hrun]
    rw [hrun] at hgrows
    exact ⟨hgrows, id, id, rfl⟩
  | error e store =>
    rw [ofStoreM_error hrun]
    rw [hrun] at hgrows
    exact ⟨hgrows, id, id, rfl⟩

theorem keeps_intern (text : String) : Keeps Continues (Memory.intern text) :=
  fun m => ⟨Std.Refl.refl m.store, fun h => h.intern text, fun h => h.intern text,
    m.texts.generation_intern text⟩

theorem keeps_toValue (token : Lexeme) : Keeps Continues token.toValue := by
  cases token with
  | delimiter c => exact Keeps.pure _
  | number n => exact Keeps.pure _
  | keyword k => exact Keeps.pure _
  | string text => exact (keeps_intern _).map
  | atom name => exact (keeps_intern _).map

theorem keeps_addAll (tokens : Tokens) (stream : TokenStream) :
    Keeps Continues (tokens.foldlM TokenStream.add stream) := by
  induction tokens generalizing stream with
  | nil => exact Keeps.pure _
  | cons token tokens ih =>
    rw [List.foldlM_cons]
    refine Keeps.bind ?_ fun _ => ih _
    exact (keeps_toValue token).bind fun _ =>
      (keeps_ofStoreM (Store.keeps_push _ _)).bind fun _ => Keeps.pure _

theorem keeps_scan (lx : Lexicon) (text : String) : Keeps Continues (BraceLang.scan lx text) := by
  refine (keeps_addAll _ _).bind fun stream => ?_
  cases (lx.lex (Lexer.ofString text).rest).2 with
  | none => exact Keeps.pure _
  | some quote => exact Keeps.throw _

end Memory

namespace Interpreter

/-- The settings are kept, and the memory continues. -/
structure Continues (i i' : Interpreter) : Prop where
  config : i'.config = i.config
  memory : i.memory.Continues i'.memory

instance : IsPreorder Interpreter Continues where
  refl := fun i => ⟨rfl, Std.Refl.refl i.memory⟩
  trans := fun _ _ _ h h' => ⟨h'.config.trans h.config, IsTrans.trans _ _ _ h.memory h'.memory⟩

theorem keeps_ofMemoryM {α : Type} {action : MemoryM α} (h : Keeps Memory.Continues action) :
    Keeps Continues (Interpreter.ofMemoryM action) := by
  intro i
  obtain ⟨config, m, depth⟩ := i
  have hm := h m
  simp only [Interpreter.ofMemoryM]
  cases hrun : action m with
  | ok a m' =>
    rw [hrun] at hm
    exact ⟨rfl, hm⟩
  | error e m' =>
    rw [hrun] at hm
    exact ⟨rfl, hm⟩

theorem keeps_get : Keeps Continues (get : InterpreterM Interpreter) := fun i => Std.Refl.refl i

theorem keeps_scan (text : String) : Keeps Continues (Interpreter.scan text) :=
  keeps_get.bind fun _ => keeps_ofMemoryM (Memory.keeps_scan _ _)

theorem keeps_steps {α : Type} (tokens : ListRef) {action : EvalM α} (h : action.Grows) :
    Keeps Continues (Interpreter.steps tokens action) := by
  intro i
  obtain ⟨config, ⟨store, texts⟩, depth⟩ := i
  have hgrows := h ⟨texts, config.maxDepth⟩ ⟨store, tokens, depth⟩
  simp only [Interpreter.steps, Interpreter.perform]
  cases hrun : action ⟨texts, config.maxDepth⟩ ⟨store, tokens, depth⟩ with
  | ok a st =>
    rw [hrun] at hgrows
    exact ⟨rfl, hgrows.1, id, id, rfl⟩
  | error e st =>
    rw [hrun] at hgrows
    exact ⟨rfl, hgrows.1, id, id, rfl⟩

theorem ask_of_ok {α : Type} {question : Memory → Except EvalError α} {i : Interpreter} {a : α}
    (h : question i.memory = .ok a) : ask question i = .ok a i := by
  have hask : ask question i =
      (MonadExcept.ofExcept (question i.memory) : InterpreterM α) i := rfl
  rw [hask, h]
  rfl

theorem keeps_ask {α : Type} (question : Memory → Except EvalError α) :
    Keeps Continues (Interpreter.ask question) := by
  refine keeps_get.bind fun i => ?_
  cases question i.memory with
  | ok a => exact Keeps.pure _
  | error e => exact Keeps.throw _

/-! ## Interpreters in order -/

/-- The memory is in order and has the limits that the settings give. -/
structure Ready (config : Config) (i : Interpreter) : Prop where
  settings : i.config = config
  layout : i.memory.store.Layout
  distinct : i.memory.texts.Distinct
  chunkSize : i.memory.store.chunkSize = max config.chunkSize 1
  reserves : i.memory.store.reserves = config.reserves
  maxCells : i.memory.store.maxCells = config.maxCells

variable {config : Config} {i i' : Interpreter}

theorem ready_new (config : Config) : Ready config (new config) where
  settings := rfl
  layout := Store.layout_new _ _ _
  distinct := .empty 0
  chunkSize := rfl
  reserves := rfl
  maxCells := rfl

/-- Cells are refused as the settings say. -/
theorem Ready.refusalAt?_eq (h : Ready config i) :
    i.memory.store.refusalAt? = config.limits.refusal := by
  unfold Store.refusalAt?
  rw [h.reserves, h.maxCells, h.chunkSize]
  rfl

theorem Ready.reset (h : Ready config i) : Ready config i.reset where
  settings := h.settings
  layout := h.layout.reset
  distinct := by
    unfold Interpreter.reset
    by_cases hclear : i.config.resetTexts = true
    · simp only [hclear, if_true]
      exact TextTable.Distinct.clear _
    · simp only [hclear]
      exact h.distinct
  chunkSize := h.chunkSize
  reserves := h.reserves
  maxCells := h.maxCells

theorem Ready.of_continues (h : Ready config i) (hi : i.Continues i') : Ready config i' := by
  have hext := Store.extends_of_grows hi.memory.store
  exact ⟨hi.config.trans h.settings, h.layout.of_grows hi.memory.store,
    hi.memory.distinct h.distinct, hext.chunkSize.trans h.chunkSize,
    hext.reserves.trans h.reserves, hext.maxCells.trans h.maxCells⟩

/-- However an evaluation ends, it has gone on from the interpreter that was reset. -/
theorem continues_evalText (text : String) (i : Interpreter) :
    i.reset.Continues (stateOf (evalText text i)) := by
  have hkeeps : Keeps Continues (do
      let stream ← scan text
      let tokens ← ofMemoryM (Memory.ofStoreM stream.forward)
      let result ← steps tokens (evaluate {})
      if result.2.isEmpty then pure result.1
      else
        let rest ← ask (·.renderTokens result.2)
        throw (.badSyntax (.trailingText rest)) : InterpreterM Value) := by
    refine (keeps_scan text).bind fun stream => ?_
    refine (keeps_ofMemoryM (Memory.keeps_ofStoreM (Store.keeps_reverse _))).bind fun tokens => ?_
    refine (keeps_steps tokens (grows_evaluate {})).bind fun result => ?_
    obtain ⟨value, rest⟩ := result
    cases rest with
    | empty => exact Keeps.pure _
    | chain first => exact (keeps_ask _).bind fun _ => Keeps.throw _
  exact hkeeps i.reset

theorem continues_run (text : String) (i : Interpreter) :
    i.reset.Continues (stateOf (run text i)) := by
  have hvalue := continues_evalText text i
  unfold Interpreter.run
  cases heval : Interpreter.evalText text i with
  | ok v i' =>
    rw [bind_of_ok heval]
    rw [heval] at hvalue
    exact IsTrans.trans _ _ _ hvalue (keeps_ask _ i')
  | error e i' =>
    rw [bind_of_error heval]
    rw [heval] at hvalue
    exact hvalue

/-- However an evaluation ends, the interpreter is in order for the next one. -/
theorem Ready.evalText (h : Ready config i) (text : String) :
    Ready config (stateOf (evalText text i)) := h.reset.of_continues (continues_evalText text i)

theorem Ready.run (h : Ready config i) (text : String) : Ready config (stateOf (run text i)) :=
  h.reset.of_continues (continues_run text i)

/-! ## Runs on data -/

/-- An interpreter between the steps of an evaluation. -/
structure Fits (config : Config) (i : Interpreter) (core : Core Tokens) : Prop where
  settings : i.config = config
  depth : i.depth = 0
  memory : i.memory.Fits config.limits core

/-- The outcomes of an operation on an interpreter and of one on data belong together. -/
inductive Agrees {α β : Type} (config : Config) (R : Memory → α → β → Prop) :
    EStateM.Result EvalError Interpreter α → EStateM.Result Fault (Core Tokens) β → Prop
  | ok {a : α} {b : β} {i : Interpreter} {core : Core Tokens} : i.Fits config core →
    R i.memory a b → Agrees config R (.ok a i) (.ok b core)
  | error (fault : Fault) {i : Interpreter} {core : Core Tokens} :
    core.used = i.memory.store.used → Agrees config R (.error fault.val i) (.error fault core)

section Rules

variable {α α' β β' : Type} {core : Core Tokens} {R : Memory → α → β → Prop}

theorem Agrees.bind {c : InterpreterM α} {a : CoreM Tokens β} {f : α → InterpreterM α'}
    {g : β → CoreM Tokens β'} {Q : Memory → α' → β' → Prop}
    (h : Agrees config R (c i) (a config.limits core))
    (hf : ∀ x y i' core', i'.Fits config core' → R i'.memory x y →
      Agrees config Q (f x i') (g y config.limits core')) :
    Agrees config Q ((c >>= f) i) ((a >>= g) config.limits core) := by
  generalize hc : c i = result at h
  generalize ha : a config.limits core = result' at h
  cases h with
  | ok hfits hR =>
    rw [bind_of_ok hc, reader_bind_of_ok ha]
    exact hf _ _ _ _ hfits hR
  | error fault hused =>
    rw [bind_of_error hc, reader_bind_of_error ha]
    exact .error fault hused

theorem agrees_ofMemoryM (hfits : i.Fits config core) {c : MemoryM α} {a : CoreM Tokens β}
    (h : Memory.Agrees config.limits i.memory R (c i.memory) (a config.limits core)) :
    Agrees config R (ofMemoryM c i) (a config.limits core) := by
  obtain ⟨settings, m, depth⟩ := i
  simp only [ofMemoryM]
  generalize c m = result at h
  generalize a config.limits core = result' at h
  cases h with
  | ok hmemory _ hR => exact .ok ⟨hfits.settings, hfits.depth, hmemory⟩ hR
  | error fault hused => exact .error fault hused

/-- The states at the start of an evaluation belong together. -/
theorem Fits.models (hfits : i.Fits config core) {l : ListRef} {tokens : Tokens}
    (hl : i.memory.DenotesTokens l tokens) :
    Models ⟨i.memory.texts, i.config.maxDepth⟩ config.limits
      ⟨i.memory.store, l, i.depth⟩ tokens core where
  layout := hfits.memory.layout
  distinct := hfits.memory.distinct
  maxDepth := by rw [hfits.settings]; rfl
  depth := by rw [hfits.depth]; rfl
  refusal := hfits.memory.refusal
  used := hfits.memory.used
  slots := hfits.memory.slots
  cursor := hl

theorem agrees_steps (hfits : i.Fits config core) {l : ListRef} {tokens : Tokens} {c : EvalM α}
    {a : ReadM Tokens Tokens β}
    (h : Simulates ⟨i.memory.texts, i.config.maxDepth⟩ config.limits ⟨i.memory.store, l, i.depth⟩
      tokens core c a R) :
    Agrees config (fun m x y => R m x.1 y.1 ∧ m.DenotesTokens x.2 y.2) (steps l c i)
      (a tokens config.limits core) := by
  obtain ⟨settings, ⟨store, texts⟩, depth⟩ := i
  have hsettings : settings = config := hfits.settings
  unfold Simulates at h
  simp only at h
  simp only [steps, perform]
  generalize c ⟨texts, settings.maxDepth⟩ ⟨store, l, depth⟩ = result at h
  generalize a tokens config.limits core = result' at h
  cases h with
  | @ok x y st tokens' core' hmodels hext hR =>
    have hmemory : Memory.Fits ⟨st.store, texts⟩ config.limits core' :=
      ⟨hmodels.layout, hmodels.distinct, hmodels.refusal, hmodels.used, hmodels.slots⟩
    exact .ok ⟨hsettings, hmodels.depth.symm, hmemory⟩ ⟨hR, hmodels.cursor⟩
  | error fault hused => exact .error fault hused

end Rules

theorem agrees_scan (hfits : i.Fits config {}) (text : String) :
    Agrees config Memory.HoldsTokens (scan text i)
      (Plain.scan config.lexicon text config.limits {}) := by
  have hread : scan text i = ofMemoryM (BraceLang.scan config.lexicon text) i := by
    rw [← hfits.settings]
    rfl
  rw [hread]
  refine agrees_ofMemoryM hfits ?_
  have hstart : i.memory.HoldsTokens {} [] := ⟨[], .nil, .nil⟩
  refine (Memory.agrees_addAll hfits.memory hstart _).bind fun stream _ m core hm _ hstream => ?_
  have hlexed : (Lexer.ofString text).rest = text.toList := rfl
  cases hquote : (config.lexicon.lex text.toList).2 with
  | none =>
    simp only [hlexed, hquote]
    exact .ok hm (.refl _) hstream
  | some quote =>
    simp only [hlexed, hquote]
    exact .error ⟨.unterminatedString (text.toList.length - quote.length), rfl⟩ hm.used

/-- Evaluating a text gives the value of the evaluation on data. -/
theorem agrees_evalText (h : Ready config i) (text : String) :
    Agrees config Memory.Denotes (evalText text i)
      (Plain.evalText config.lexicon text config.limits {}) := by
  have hreset := h.reset
  have hfits : i.reset.Fits config {} := by
    refine ⟨hreset.settings, rfl, hreset.layout, hreset.distinct, ?_, rfl, ⟨rfl, ?_⟩⟩
    · exact hreset.refusalAt?_eq.symm
    · intro index slot hslot
      simp [Interpreter.reset, Store.reset] at hslot
  unfold evalText Plain.evalText
  rw [bind_of_ok (rfl : (modify Interpreter.reset : InterpreterM Unit) i = .ok () i.reset)]
  refine (agrees_scan hfits text).bind fun stream tokens i₁ core₁ hfits₁ hstream => ?_
  refine Agrees.bind (agrees_ofMemoryM hfits₁ (Memory.agrees_reverse hfits₁.memory hstream))
    fun l _ i₂ core₂ hfits₂ hl => ?_
  have henv : i₂.memory.DenotesEnv {} [] := ⟨[], .nil, .nil⟩
  have hsteps := agrees_steps hfits₂ (simulates_evaluate (hfits₂.models hl) henv)
  refine Agrees.bind hsteps fun found found' i₃ core₃ hfits₃ hfound => ?_
  obtain ⟨v, rest⟩ := found
  obtain ⟨d, left⟩ := found'
  obtain ⟨hv, hrest⟩ := hfound
  simp only at hv hrest
  simp only [isEmpty_of_denotesTokens hrest]
  cases left with
  | nil => exact .ok hfits₃ hv
  | cons token left =>
    have htext : ask (·.renderTokens rest) i₃ =
        .ok (String.ofList (Lexeme.spaced true (token :: left))) i₃ :=
      ask_of_ok (Memory.renderTokens_eq hfits₃.memory.layout hrest)
    simp only [List.isEmpty_cons, Bool.false_eq_true, if_false]
    rw [bind_of_ok htext]
    exact .error ⟨.badSyntax (.trailingText _), rfl⟩ hfits₃.memory.used

/-- A run writes the text of the run on data. -/
theorem agrees_run (h : Ready config i) (text : String) :
    Agrees config (fun _ x y => x = y) (run text i)
      (Plain.run config.lexicon text config.limits {}) := by
  refine (agrees_evalText h text).bind fun v d i₁ core₁ hfits₁ hv => ?_
  have htext : ask (·.render v) i₁ = .ok (String.ofList (d.full core₁.slots)) i₁ :=
    ask_of_ok (Memory.render_eq hfits₁.memory.layout hfits₁.memory.slots hv)
  rw [htext]
  exact .ok hfits₁ rfl

end Interpreter

end BraceLang
