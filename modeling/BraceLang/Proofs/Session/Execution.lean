import BraceLang.Session.Basic
import BraceLang.Proofs.Effects

/-!
# What sessions do

Every operation of a session is given by one equation: what it does to the interpreter, to the
output and to the nesting, and how it ends. What is true of commands and of files is put together
from their parts, one time for all such properties. Whatever a command does, the nesting behind it
is the one before it, so that the levels that are left for batch files can be read off the session.

* `Session.evalLine_apply`, `Session.executeWith_batch`, `Session.runCommands_cons`: the equations.
* `Session.Lawful`: properties of actions that are kept when actions are put together.
* `Session.ends_execute`: the nesting stays the same, and what is reported does not get out.
* `Session.runFile_apply`: a file is executed as its text is, one level deeper.
-/

namespace BraceLang

namespace SessionError

/-- An evaluation has run out of cells. -/
def IsFatal (e : SessionError) : Prop :=
  ∃ cause line, e = .fatal cause line ∧ cause.isFatal = true

/-- The session cannot go on: its output is full, or an evaluation has run out of cells. -/
def IsFinal (e : SessionError) : Prop := e = .sinkFull ∨ e.IsFatal

theorem IsFinal.not_isReported {e : SessionError} (h : e.IsFinal) : e.isReported = false := by
  rcases h with rfl | ⟨cause, line, rfl, -⟩ <;> rfl

end SessionError

namespace Session

/-! ## Equations -/

theorem writeLine_apply (text : String) (s : Session) :
    writeLine text s =
      let written := s.out.write (text ++ "\n")
      if written.1 then .ok () { s with out := written.2 }
      else .error .sinkFull { s with out := written.2 } := by
  obtain ⟨interpreter, out, nesting⟩ := s
  simp only [writeLine]
  rcases out.write (text ++ "\n") with ⟨whole, sink⟩
  cases whole <;> rfl

theorem tryCatch_apply {α : Type} (action : SessionM α) (handle : SessionError → SessionM α)
    (s : Session) :
    (tryCatch action handle : SessionM α) s =
      match action s with
      | .ok a s => .ok a s
      | .error e s => handle e s := by
  change EStateM.tryCatch action handle s = _
  delta EStateM.tryCatch
  dsimp only
  cases action s <;> rfl

theorem evalLine_apply (text : String) (line : Nat) (s : Session) :
    evalLine text line s =
      match Interpreter.run text s.interpreter with
      | .ok result i => writeLine result { s with interpreter := i }
      | .error e i =>
        if e.isFatal then .error (.fatal e line) { s with interpreter := i }
        else writeLine s!"Error: {e.message} line {line}" { s with interpreter := i } := by
  obtain ⟨interpreter, out, nesting⟩ := s
  have hrun : interpret text ⟨interpreter, out, nesting⟩ =
      match Interpreter.run text interpreter with
      | .ok result i => .ok (.ok result) ⟨i, out, nesting⟩
      | .error e i => .ok (.error e) ⟨i, out, nesting⟩ := rfl
  unfold evalLine
  cases h : Interpreter.run text interpreter with
  | ok result i =>
    rw [h] at hrun
    rw [bind_of_ok hrun]
  | error e i =>
    rw [h] at hrun
    rw [bind_of_ok hrun]
    simp only
    split <;> rfl

section Commands

variable (execute : Command → Nat → SessionM Flow) (runFile : String → SessionM Unit)

theorem executeWith_eval (text : String) (line : Nat) (s : Session) :
    executeWith runFile (.eval text) line s =
      match evalLine text line s with
      | .ok _ s => .ok .continue s
      | .error e s => .error e s := by
  cases h : evalLine text line s with
  | ok _ s' => exact bind_of_ok h
  | error e s' => exact bind_of_error h

/-- A failure that is reported does not end the session, unless the report cannot be written. -/
theorem executeWith_batch (path : String) (line : Nat) (s : Session) :
    executeWith runFile (.batch path) line s =
      match runFile path s with
      | .ok _ s => .ok .continue s
      | .error e s =>
        if e.isReported then
          match writeLine s!"Error: {e.message}" s with
          | .ok _ s => .ok .continue s
          | .error e s => .error e s
        else .error e s := by
  have hcatch := tryCatch_apply (runFile path)
    (fun e => if e.isReported then writeLine s!"Error: {e.message}" else throw e) s
  rw [executeWith]
  cases hfile : runFile path s with
  | ok _ t =>
    rw [hfile] at hcatch
    exact bind_of_ok hcatch
  | error e t =>
    rw [hfile] at hcatch
    dsimp only at hcatch ⊢
    by_cases hreported : e.isReported = true
    · rw [if_pos hreported] at hcatch ⊢
      cases hwrite : writeLine s!"Error: {e.message}" t with
      | ok _ t' => exact bind_of_ok (hcatch.trans hwrite)
      | error e' t' => exact bind_of_error (hcatch.trans hwrite)
    · rw [if_neg hreported] at hcatch ⊢
      exact bind_of_error hcatch

/-- Only `bye` stops. -/
theorem flow_of_executeWith {command : Command} {line : Nat} {s s' : Session} {flow : Flow}
    (h : executeWith runFile command line s = .ok flow s') : flow = .stop ↔ command = .bye := by
  cases command with
  | bye =>
    cases h
    simp
  | eval text =>
    rw [executeWith_eval] at h
    split at h <;> cases h
    simp
  | batch path =>
    rw [executeWith_batch] at h
    split at h
    · cases h
      simp
    · split at h
      · split at h <;> cases h
        simp
      · cases h

theorem runCommands_cons (command : Command) (line : Nat) (rest : List (Command × Nat))
    (s : Session) :
    runCommands execute ((command, line) :: rest) s =
      match execute command line s with
      | .ok .stop s => .ok () s
      | .ok .continue s => runCommands execute rest s
      | .error e s => .error e s := by
  rw [runCommands]
  cases h : execute command line s with
  | ok flow s' =>
    rw [bind_of_ok h]
    cases flow <;> rfl
  | error e s' => exact bind_of_error h

theorem nested_apply (action : SessionM Unit) (s : Session) :
    nested action s =
      match action { s with nesting := s.nesting + 1 } with
      | .ok a s => .ok a { s with nesting := s.nesting - 1 }
      | .error e s => .error e { s with nesting := s.nesting - 1 } := by
  obtain ⟨interpreter, out, nesting⟩ := s
  simp only [nested]
  cases action ⟨interpreter, out, nesting + 1⟩ <;> rfl

end Commands

/-! ## Properties of actions -/

/-- A property of the actions of sessions at a nesting that is kept when actions are put together.
It can tell whether what is reported may get out of an action. -/
structure Lawful (P : Nat → Bool → ∀ {α : Type}, SessionM α → Prop) : Prop where
  pure : ∀ {nesting : Nat} {reports : Bool} {α : Type} (a : α),
    P nesting reports (Pure.pure a : SessionM α)
  bind : ∀ {nesting : Nat} {reports : Bool} {α β : Type} {action : SessionM α}
    {next : α → SessionM β}, P nesting reports action → (∀ a, P nesting reports (next a)) →
    P nesting reports (action >>= next)
  evalLine : ∀ {nesting : Nat} (text : String) (line : Nat),
    P nesting false (Session.evalLine text line)
  refuse : ∀ {nesting : Nat} {e : SessionError}, e.isReported = true →
    P nesting true (throw e : SessionM Unit)
  report : ∀ {nesting : Nat} {action : SessionM Unit}, P nesting true action →
    P nesting false (tryCatch action fun e =>
      if e.isReported then writeLine s!"Error: {e.message}" else throw e)
  nested : ∀ {nesting : Nat} {action : SessionM Unit}, P (nesting + 1) false action →
    P nesting true (Session.nested action)
  congr : ∀ {nesting : Nat} {reports : Bool} {α : Type} {action action' : SessionM α},
    (∀ s : Session, s.nesting = nesting → action s = action' s) → P nesting reports action →
    P nesting reports action'

namespace Lawful

variable {P : Nat → Bool → ∀ {α : Type}, SessionM α → Prop} {nesting : Nat}

theorem executeWith (hP : Lawful P) {runFile : String → SessionM Unit}
    (h : ∀ path, P nesting true (runFile path)) (command : Command) (line : Nat) :
    P nesting false (Session.executeWith runFile command line) := by
  cases command with
  | bye => exact hP.pure _
  | eval text => exact hP.bind (hP.evalLine text line) fun _ => hP.pure _
  | batch path => exact hP.bind (hP.report (h path)) fun _ => hP.pure _

theorem runCommands (hP : Lawful P) {execute : Command → Nat → SessionM Flow}
    (h : ∀ command line, P nesting false (execute command line))
    (commands : List (Command × Nat)) : P nesting false (Session.runCommands execute commands) := by
  induction commands with
  | nil => exact hP.pure _
  | cons first rest ih =>
    refine hP.bind (h first.1 first.2) fun flow => ?_
    cases flow with
    | stop => exact hP.pure _
    | «continue» => exact ih

theorem runFileWithin (hP : Lawful P) (files : Files) (levels nesting : Nat) (path : String) :
    P nesting true (Session.runFileWithin files levels path) := by
  induction levels generalizing nesting path with
  | zero => exact hP.refuse rfl
  | succ levels ih =>
    rw [Session.runFileWithin]
    cases files path with
    | ok text => exact hP.nested (hP.runCommands (hP.executeWith (ih (nesting + 1))) _)
    | error cause => exact hP.refuse rfl

theorem runFile (hP : Lawful P) (files : Files) (nesting : Nat) (path : String) :
    P nesting true (Session.runFile files path) := by
  refine hP.congr ?_ (hP.runFileWithin files (maxNesting - nesting) nesting path)
  rintro s rfl
  rfl

theorem execute (hP : Lawful P) (files : Files) (nesting : Nat) (command : Command) (line : Nat) :
    P nesting false (Session.execute files command line) :=
  hP.executeWith (hP.runFile files nesting) command line

theorem runBatch (hP : Lawful P) (files : Files) (nesting : Nat) (text : String) :
    P nesting false (Session.runBatch files text) :=
  hP.runCommands (hP.execute files nesting) _

end Lawful

/-! ## The nesting, and what gets out of an action -/

/-- Whatever the outcome, the nesting is the one before. Only what ends the session gets out of the
action, and what is reported where that may be. -/
def Ends (nesting : Nat) (reports : Bool) {α : Type} (action : SessionM α) : Prop :=
  ∀ s : Session, s.nesting = nesting → (stateOf (action s)).nesting = nesting ∧
    ∀ e t, action s = .error e t → e.IsFinal ∨ reports = true ∧ e.isReported = true

section Ends

variable {nesting : Nat} {reports : Bool} {α β : Type} {s t : Session} {e : SessionError}

theorem Ends.of_ok {action : SessionM α} {a : α} (h : Ends s.nesting reports action)
    (hrun : action s = .ok a t) : t.nesting = s.nesting := by
  have hnesting := (h s rfl).1
  rwa [hrun] at hnesting

theorem Ends.of_error {action : SessionM α} (h : Ends s.nesting reports action)
    (hrun : action s = .error e t) : t.nesting = s.nesting := by
  have hnesting := (h s rfl).1
  rwa [hrun] at hnesting

theorem Ends.isFinal {action : SessionM α} (h : Ends s.nesting false action)
    (hrun : action s = .error e t) : e.IsFinal :=
  ((h s rfl).2 e t hrun).resolve_right fun hreports => by simp at hreports

theorem nesting_writeLine (text : String) (s : Session) :
    (stateOf (writeLine text s)).nesting = s.nesting := by
  rw [writeLine_apply]
  dsimp only
  split <;> rfl

theorem error_of_writeLine {text : String} (h : writeLine text s = .error e t) :
    e = .sinkFull := by
  rw [writeLine_apply] at h
  dsimp only at h
  split at h <;> cases h
  rfl

theorem ends_writeLine (text : String) : Ends nesting reports (writeLine text) := by
  rintro s rfl
  exact ⟨nesting_writeLine text s, fun e t h => .inl (.inl (error_of_writeLine h))⟩

theorem ends_bind {action : SessionM α} {next : α → SessionM β}
    (h : Ends nesting reports action) (hnext : ∀ a, Ends nesting reports (next a)) :
    Ends nesting reports (action >>= next) := by
  rintro s rfl
  cases hrun : action s with
  | ok a t =>
    rw [bind_of_ok hrun]
    exact hnext a t (h.of_ok hrun)
  | error e t =>
    rw [bind_of_error hrun]
    refine ⟨h.of_error hrun, ?_⟩
    rintro _ _ ⟨rfl, rfl⟩
    exact (h s rfl).2 e t hrun

theorem ends_evalLine (text : String) (line : Nat) : Ends nesting false (evalLine text line) := by
  rintro s rfl
  rw [evalLine_apply]
  cases Interpreter.run text s.interpreter with
  | ok result i => exact ends_writeLine result { s with interpreter := i } rfl
  | error cause i =>
    dsimp only
    by_cases hfatal : cause.isFatal = true
    · rw [if_pos hfatal]
      refine ⟨rfl, ?_⟩
      rintro _ _ ⟨rfl, rfl⟩
      exact .inl (.inr ⟨cause, line, rfl, hfatal⟩)
    · rw [if_neg hfatal]
      exact ends_writeLine _ { s with interpreter := i } rfl

theorem ends_report {action : SessionM Unit} (h : Ends nesting true action) :
    Ends nesting false (tryCatch action fun e =>
      if e.isReported then writeLine s!"Error: {e.message}" else throw e) := by
  rintro s rfl
  rw [tryCatch_apply]
  cases hrun : action s with
  | ok a t =>
    refine ⟨h.of_ok hrun, ?_⟩
    rintro _ _ ⟨⟩
  | error e t =>
    have hnesting := h.of_error hrun
    dsimp only
    by_cases hreported : e.isReported = true
    · rw [if_pos hreported]
      exact ends_writeLine _ t hnesting
    · rw [if_neg hreported]
      refine ⟨hnesting, ?_⟩
      rintro _ _ ⟨rfl, rfl⟩
      exact .inl (((h s rfl).2 e t hrun).resolve_right fun hreports => hreported hreports.2)

theorem ends_nested {action : SessionM Unit} (h : Ends (nesting + 1) false action) :
    Ends nesting true (nested action) := by
  rintro s rfl
  rw [nested_apply]
  have haction := h { s with nesting := s.nesting + 1 } rfl
  cases hrun : action { s with nesting := s.nesting + 1 } with
  | ok a t =>
    rw [hrun] at haction
    refine ⟨Nat.sub_eq_of_eq_add haction.1, ?_⟩
    rintro _ _ ⟨⟩
  | error e t =>
    rw [hrun] at haction
    refine ⟨Nat.sub_eq_of_eq_add haction.1, ?_⟩
    rintro _ _ ⟨rfl, rfl⟩
    exact .inl ((haction.2 e t rfl).resolve_right fun hreports => by simp at hreports)

theorem lawful_ends : Lawful Ends where
  pure := fun a s hs => ⟨hs, fun e t h => by cases h⟩
  bind := ends_bind
  evalLine := ends_evalLine
  refuse := fun hreported s hs =>
    ⟨hs, by rintro _ _ ⟨rfl, rfl⟩; exact .inr ⟨rfl, hreported⟩⟩
  report := ends_report
  nested := ends_nested
  congr := fun hsame h s hs => by
    rw [← hsame s hs]
    exact h s hs

theorem ends_execute (files : Files) (command : Command) (line : Nat) :
    Ends nesting false (execute files command line) :=
  lawful_ends.execute files nesting command line

theorem ends_runBatch (files : Files) (text : String) :
    Ends nesting false (runBatch files text) :=
  lawful_ends.runBatch files nesting text

end Ends

/-! ## Files -/

/-- Ways to execute files that agree on a nesting agree on commands. -/
theorem executeWith_congr {runFile runFile' : String → SessionM Unit} {s : Session}
    (h : ∀ path, runFile path s = runFile' path s) (command : Command) (line : Nat) :
    executeWith runFile command line s = executeWith runFile' command line s := by
  cases command with
  | bye => rfl
  | eval text => rfl
  | batch path => rw [executeWith_batch, executeWith_batch, h]

theorem runCommands_congr {execute execute' : Command → Nat → SessionM Flow} {nesting : Nat}
    (hends : ∀ command line, Ends nesting false (execute command line))
    (h : ∀ s : Session, s.nesting = nesting → ∀ command line,
      execute command line s = execute' command line s)
    (commands : List (Command × Nat)) {s : Session} (hs : s.nesting = nesting) :
    runCommands execute commands s = runCommands execute' commands s := by
  induction commands generalizing s with
  | nil => rfl
  | cons first rest ih =>
    obtain ⟨command, line⟩ := first
    rw [runCommands_cons, runCommands_cons, ← h s hs command line]
    cases hrun : execute command line s with
    | error e s' => rfl
    | ok flow s' =>
      cases flow with
      | stop => rfl
      | «continue» =>
        subst hs
        exact ih ((hends command line).of_ok hrun)

/-- A file is refused if too many are being executed, or if it cannot be read. Otherwise its text is
executed one level deeper. -/
theorem runFile_apply (files : Files) (path : String) (s : Session) :
    runFile files path s =
      if maxNesting ≤ s.nesting then .error (.tooManyBatches maxNesting) s
      else match files path with
        | .ok text => nested (runBatch files text) s
        | .error cause => .error (.unreadable path cause) s := by
  have hfile : runFile files path s = runFileWithin files (maxNesting - s.nesting) path s := rfl
  rw [hfile]
  by_cases hfull : maxNesting ≤ s.nesting
  · rw [if_pos hfull, Nat.sub_eq_zero_of_le hfull]
    rfl
  · obtain ⟨levels, hlevels⟩ : ∃ levels, maxNesting - s.nesting = levels + 1 :=
      ⟨maxNesting - s.nesting - 1, by omega⟩
    rw [if_neg hfull, hlevels, runFileWithin]
    cases files path with
    | error cause => rfl
    | ok text =>
      have hinside : runCommands (executeWith (runFileWithin files levels)) (commandsOf text)
          { s with nesting := s.nesting + 1 } =
          runBatch files text { s with nesting := s.nesting + 1 } := by
        refine runCommands_congr (lawful_ends.executeWith
          (lawful_ends.runFileWithin files levels (s.nesting + 1))) ?_ _ rfl
        intro s' hs' command line
        refine executeWith_congr (fun path => ?_) command line
        have hleft : levels = maxNesting - s'.nesting := by
          rw [hs']
          omega
        rw [hleft]
        rfl
      simp only [nested_apply, hinside]

theorem error_of_nested {action : SessionM Unit} {s s' : Session} {e : SessionError}
    (h : nested action s = .error e s') :
    ∃ t, action { s with nesting := s.nesting + 1 } = .error e t := by
  rw [nested_apply] at h
  split at h <;> cases h
  exact ⟨_, ‹_›⟩

end Session

end BraceLang
