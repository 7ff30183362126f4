import BraceLang.Proofs.Interpreter.Independence
import BraceLang.Proofs.Session.Execution
import BraceLang.Proofs.Session.Lines

/-!
# Batches are made of their commands

Sessions whose output is not limited can be compared: how a command ends and what it writes depends
on the configuration and the nesting alone, and neither on what the interpreter has evaluated before
nor on what has been written. What a text of commands writes is therefore put together from what
each command writes in a session of its own.

* `Session.Settled`: an action that ends and writes the same in all such sessions.
* `Session.runCommands_eq_executed`: commands one after the other, from each of them alone.
* `Session.runBatch_compositional`: the output of a text.
-/

namespace BraceLang

namespace Session

/-! ## Actions that do not depend on what came before -/

/-- The end of a program with a result. -/
def ended {ε σ α : Type} : Except ε α → σ → EStateM.Result ε σ α
  | .ok a, s => .ok a s
  | .error e, s => .error e s

/-- Wherever the action is run with an output that is not limited, it has the result and writes the
bytes. -/
def Gives (config : Config) (nesting : Nat) {α : Type} (action : SessionM α)
    (result : Except SessionError α) (written : ByteArray) : Prop :=
  ∀ (i : Interpreter) (bytes : ByteArray), i.Ready config → ∃ i' : Interpreter, i'.Ready config ∧
    action ⟨i, { bytes }, nesting⟩ = ended result ⟨i', { bytes := bytes ++ written }, nesting⟩

/-- The action has the same result and writes the same bytes everywhere. It fails for a lack of
cells only, or with what is reported where that may get out. -/
def Settled (config : Config) (nesting : Nat) (reports : Bool) {α : Type}
    (action : SessionM α) : Prop :=
  ∃ result written, Gives config nesting action result written ∧
    ∀ e, result = .error e → e.IsFatal ∨ reports = true ∧ e.isReported = true

section Rules

variable {α β : Type} {config : Config} {nesting : Nat} {reports : Bool}

theorem gives_pure (a : α) : Gives config nesting (pure a) (.ok a) .empty := by
  refine fun i bytes hi => ⟨i, hi, ?_⟩
  rw [ByteArray.append_empty]
  rfl

theorem gives_throw (e : SessionError) :
    Gives config nesting (throw e : SessionM α) (.error e) .empty := by
  refine fun i bytes hi => ⟨i, hi, ?_⟩
  rw [ByteArray.append_empty]
  rfl

/-- A line is written whole. -/
theorem writeLine_unlimited (text : String) (i : Interpreter) (bytes : ByteArray) :
    writeLine text ⟨i, { bytes }, nesting⟩ =
      .ok () ⟨i, { bytes := bytes ++ (text ++ "\n").toUTF8 }, nesting⟩ := by
  have hwrite : ({ bytes } : Sink).write (text ++ "\n") =
      (true, { bytes := bytes ++ (text ++ "\n").toUTF8 }) := rfl
  rw [writeLine_apply]
  simp only [hwrite, if_true]

theorem gives_writeLine (text : String) :
    Gives config nesting (writeLine text) (.ok ()) (text ++ "\n").toUTF8 :=
  fun i bytes hi => ⟨i, hi, writeLine_unlimited text i bytes⟩

theorem Gives.bind {action : SessionM α} {next : α → SessionM β} {a : α}
    {result : Except SessionError β} {written written' : ByteArray}
    (h : Gives config nesting action (.ok a) written)
    (hnext : Gives config nesting (next a) result written') :
    Gives config nesting (action >>= next) result (written ++ written') := by
  intro i bytes hi
  obtain ⟨i', hi', hrun⟩ := h i bytes hi
  obtain ⟨i'', hi'', hrun'⟩ := hnext i' (bytes ++ written) hi'
  refine ⟨i'', hi'', ?_⟩
  rw [bind_of_ok hrun, hrun', ByteArray.append_assoc]

theorem Gives.bind_error {action : SessionM α} {next : α → SessionM β} {e : SessionError}
    {written : ByteArray} (h : Gives config nesting action (.error e) written) :
    Gives config nesting (action >>= next) (.error e) written := by
  intro i bytes hi
  obtain ⟨i', hi', hrun⟩ := h i bytes hi
  exact ⟨i', hi', bind_of_error hrun⟩

theorem settled_bind {action : SessionM α} {next : α → SessionM β}
    (h : Settled config nesting reports action)
    (hnext : ∀ a, Settled config nesting reports (next a)) :
    Settled config nesting reports (action >>= next) := by
  obtain ⟨result, written, hgives, hfails⟩ := h
  cases result with
  | ok a =>
    obtain ⟨result', written', hgives', hfails'⟩ := hnext a
    exact ⟨result', written ++ written', hgives.bind hgives', hfails'⟩
  | error e => exact ⟨.error e, written, hgives.bind_error, by simpa using hfails e rfl⟩

/-- An evaluation has the same result wherever it is run. -/
theorem exists_result (config : Config) (text : String) :
    ∃ result : Except EvalError String, ∀ i : Interpreter, i.Ready config →
      ∃ i' : Interpreter, i'.Ready config ∧ Interpreter.run text i = ended result i' := by
  refine ⟨(Interpreter.outcome (Interpreter.run text (.new config))).1, fun i hi => ?_⟩
  have hsame : Interpreter.outcome (Interpreter.run text i) =
      Interpreter.outcome (Interpreter.run text (.new config)) := by
    rw [Interpreter.outcome_run hi, Interpreter.outcome_run (Interpreter.ready_new config)]
  have hready := hi.run text
  rw [← hsame]
  cases hrun : Interpreter.run text i with
  | ok rendered i' =>
    rw [hrun] at hready
    exact ⟨i', hready, rfl⟩
  | error e i' =>
    rw [hrun] at hready
    exact ⟨i', hready, rfl⟩

theorem settled_evalLine (text : String) (line : Nat) :
    Settled config nesting false (evalLine text line) := by
  obtain ⟨evaluated, hevaluated⟩ := exists_result config text
  -- what an evaluation that goes on with the session writes
  have hline : ∀ answer : String, (∀ s i', Interpreter.run text s.interpreter = ended evaluated i' →
        evalLine text line s = writeLine answer { s with interpreter := i' }) →
      Settled config nesting false (evalLine text line) := by
    intro answer hthen
    refine ⟨.ok (), (answer ++ "\n").toUTF8, fun i bytes hi => ?_, by simp⟩
    obtain ⟨i', hi', hrun⟩ := hevaluated i hi
    exact ⟨i', hi', (hthen ⟨i, { bytes }, nesting⟩ i' hrun).trans
      (writeLine_unlimited answer i' bytes)⟩
  cases evaluated with
  | ok rendered =>
    refine hline rendered fun s i' hrun => ?_
    rw [evalLine_apply, hrun, ended]
  | error e =>
    by_cases hfatal : e.isFatal = true
    · refine ⟨.error (.fatal e line), .empty, fun i bytes hi => ?_, ?_⟩
      · obtain ⟨i', hi', hrun⟩ := hevaluated i hi
        refine ⟨i', hi', ?_⟩
        rw [evalLine_apply, hrun, ByteArray.append_empty, ended]
        exact if_pos hfatal
      · rintro _ ⟨rfl⟩
        exact .inl ⟨e, line, rfl, hfatal⟩
    · refine hline s!"Error: {e.message} line {line}" fun s i' hrun => ?_
      rw [evalLine_apply, hrun, ended]
      exact if_neg hfatal

theorem settled_report {action : SessionM Unit} (h : Settled config nesting true action) :
    Settled config nesting false (tryCatch action fun e =>
      if e.isReported then writeLine s!"Error: {e.message}" else throw e) := by
  obtain ⟨result, written, hgives, hfails⟩ := h
  cases result with
  | ok a =>
    refine ⟨.ok a, written, fun i bytes hi => ?_, by simp⟩
    obtain ⟨i', hi', hrun⟩ := hgives i bytes hi
    refine ⟨i', hi', ?_⟩
    rw [tryCatch_apply, hrun]
    rfl
  | error e =>
    have hhandle : ∀ {handled : SessionM Unit} {result : Except SessionError Unit}
        {written' : ByteArray}, Gives config nesting handled result written' →
        (if e.isReported then writeLine s!"Error: {e.message}" else throw e) = handled →
        Gives config nesting (tryCatch action fun e =>
          if e.isReported then writeLine s!"Error: {e.message}" else throw e) result
          (written ++ written') := by
      rintro handled result written' hgives' rfl i bytes hi
      obtain ⟨i', hi', hrun⟩ := hgives i bytes hi
      obtain ⟨i'', hi'', hrun'⟩ := hgives' i' (bytes ++ written) hi'
      refine ⟨i'', hi'', ?_⟩
      rw [tryCatch_apply, hrun, ← ByteArray.append_assoc]
      exact hrun'
    by_cases hreported : e.isReported = true
    · exact ⟨_, _, hhandle (gives_writeLine _) (if_pos hreported), by simp⟩
    · refine ⟨_, _, hhandle (gives_throw e) (if_neg hreported), ?_⟩
      rintro _ ⟨rfl⟩
      exact .inl ((hfails e rfl).resolve_right fun hreports => hreported hreports.2)

theorem nested_eq_ended {action : SessionM Unit} {s : Session}
    {result : Except SessionError Unit} {i : Interpreter} {out : Sink}
    (h : action { s with nesting := s.nesting + 1 } = ended result ⟨i, out, s.nesting + 1⟩) :
    nested action s = ended result ⟨i, out, s.nesting⟩ := by
  rw [nested_apply, h]
  cases result <;> rfl

theorem settled_nested {action : SessionM Unit} (h : Settled config (nesting + 1) false action) :
    Settled config nesting true (nested action) := by
  obtain ⟨result, written, hgives, hfails⟩ := h
  refine ⟨result, written, fun i bytes hi => ?_, fun e he => ?_⟩
  · obtain ⟨i', hi', hrun⟩ := hgives i bytes hi
    exact ⟨i', hi', nested_eq_ended hrun⟩
  · exact .inl ((hfails e he).resolve_right fun hreports => by simp at hreports)

theorem lawful_settled (config : Config) : Lawful (Settled config) where
  pure := fun a => ⟨.ok a, .empty, gives_pure a, by simp⟩
  bind := settled_bind
  evalLine := settled_evalLine
  refuse := fun hreported =>
    ⟨_, .empty, gives_throw _, by rintro _ ⟨rfl⟩; exact .inr ⟨rfl, hreported⟩⟩
  report := settled_report
  nested := settled_nested
  congr := by
    rintro nesting reports α action action' hsame ⟨result, written, hgives, hfails⟩
    refine ⟨result, written, fun i bytes hi => ?_, hfails⟩
    rw [← hsame _ rfl]
    exact hgives i bytes hi

end Rules

/-! ## A command on its own -/

/-- The error that a program has failed with. -/
def failure? {ε σ α : Type} : EStateM.Result ε σ α → Option ε
  | .ok _ _ => none
  | .error e _ => some e

section Batches

variable (config : Config) (files : Files) (nesting : Nat)

/-- A session that has done nothing yet. -/
def fresh : Session := { interpreter := .new config, nesting }

/-- What a command with its line number does in a session that has done nothing yet. -/
def alone (command : Command × Nat) : EStateM.Result SessionError Session Flow :=
  execute files command.1 command.2 (fresh config nesting)

/-- What a command writes in a session that has done nothing yet. -/
def writes (command : Command × Nat) : ByteArray :=
  (stateOf (alone config files nesting command)).out.bytes

/-- Nothing is executed behind `bye` and behind a command that fails. -/
def isLast (command : Command × Nat) : Bool :=
  command.1 == .bye || !succeeded (alone config files nesting command)

/-- The commands up to and including the first that is the last one to be executed. -/
def executed (commands : List (Command × Nat)) : List (Command × Nat) :=
  commands.take (commands.findIdx (isLast config files nesting) + 1)

theorem executed_cons (command : Command × Nat) (rest : List (Command × Nat)) :
    executed config files nesting (command :: rest) =
      command :: if isLast config files nesting command then []
        else executed config files nesting rest := by
  unfold executed
  rw [List.findIdx_cons]
  cases isLast config files nesting command <;> rfl

variable {config}

/-- Wherever a command is executed, it ends as it does on its own, and writes the same. -/
theorem execute_eq_alone (command : Command × Nat) {i : Interpreter} (hi : i.Ready config)
    (bytes : ByteArray) :
    ∃ i' : Interpreter, i'.Ready config ∧
      (∀ flow s, alone config files nesting command = .ok flow s →
        execute files command.1 command.2 ⟨i, { bytes }, nesting⟩ =
          .ok flow ⟨i', { bytes := bytes ++ writes config files nesting command }, nesting⟩) ∧
      (∀ e s, alone config files nesting command = .error e s → e.IsFatal ∧
        execute files command.1 command.2 ⟨i, { bytes }, nesting⟩ =
          .error e ⟨i', { bytes := bytes ++ writes config files nesting command }, nesting⟩) := by
  obtain ⟨result, written, hgives, hfails⟩ :=
    (lawful_settled config).execute files nesting command.1 command.2
  obtain ⟨j, -, halone⟩ := hgives (.new config) .empty (Interpreter.ready_new config)
  rw [ByteArray.empty_append] at halone
  replace halone : alone config files nesting command = _ := halone
  obtain ⟨i', hi', hrun⟩ := hgives i bytes hi
  refine ⟨i', hi', ?_⟩
  unfold writes
  cases result with
  | ok flow =>
    rw [halone]
    refine ⟨?_, by rintro _ _ ⟨⟩⟩
    rintro _ _ ⟨rfl, rfl⟩
    exact hrun
  | error e =>
    rw [halone]
    refine ⟨by rintro _ _ ⟨⟩, ?_⟩
    rintro _ _ ⟨rfl, rfl⟩
    exact ⟨(hfails e rfl).resolve_right fun hreports => by simp at hreports, hrun⟩

/-- Commands write one after the other what each of them writes on its own, and fail as the first
of them that does. -/
theorem runCommands_eq_executed (commands : List (Command × Nat)) {i : Interpreter}
    (hi : i.Ready config) (bytes : ByteArray) :
    let run := runCommands (execute files) commands ⟨i, { bytes }, nesting⟩
    let done := executed config files nesting commands
    (stateOf run).out.bytes =
        bytes ++ (done.map (writes config files nesting)).foldr (· ++ ·) .empty ∧
      failure? run = done.findSome? (failure? ∘ alone config files nesting) := by
  induction commands generalizing i bytes with
  | nil => exact ⟨(ByteArray.append_empty).symm, rfl⟩
  | cons command rest ih =>
    obtain ⟨i', hi', hok, herror⟩ := execute_eq_alone files nesting command hi bytes
    have hone : bytes ++ writes config files nesting command =
        bytes ++ (writes config files nesting command ++ .empty) := by
      rw [ByteArray.append_empty]
    dsimp only
    rw [executed_cons, runCommands_cons]
    cases halone : alone config files nesting command with
    | error e s =>
      have hlast : isLast config files nesting command = true := by
        simp [isLast, halone, succeeded]
      rw [(herror e s halone).2, if_pos hlast]
      refine ⟨hone, ?_⟩
      simp [halone, failure?]
    | ok flow s =>
      have hstops : flow = .stop ↔ command.1 = .bye := flow_of_executeWith _ halone
      rw [hok flow s halone]
      cases flow with
      | stop =>
        have hlast : isLast config files nesting command = true := by
          simp [isLast, hstops.mp rfl]
        rw [if_pos hlast]
        refine ⟨hone, ?_⟩
        simp [halone, failure?]
      | «continue» =>
        have hlast : isLast config files nesting command = false := by
          have hbye : command.1 ≠ .bye := fun h => by cases hstops.mpr h
          simp [isLast, halone, succeeded, hbye]
        obtain ⟨hbytes, hfailure⟩ := ih hi' (bytes ++ writes config files nesting command)
        rw [hlast]
        refine ⟨?_, ?_⟩
        · rw [hbytes, ByteArray.append_assoc]
          rfl
        · rw [hfailure]
          simp [halone, failure?]

variable (config)

/-- What a text writes is what its commands write in sessions of their own, up to and including the
first that ends the text, which is `bye` or fails for a lack of cells. Neither what the interpreter
has done before nor an error in another line can be noticed. A command has the number of the last
physical line of its logical line. -/
theorem runBatch_compositional (calls : List Call) (before : ByteArray) (text : String) :
    let s : Session := ⟨(Interpreter.new config).after calls, { bytes := before }, nesting⟩
    let commands := (logicalLines text).filterMap LogicalLine.command?
    let done := executed config files nesting commands
    LogicalLine.Cut 0 (physicalLines text) (logicalLines text) ∧
      (stateOf (runBatch files text s)).out.bytes =
        before ++ (done.map (writes config files nesting)).foldr (· ++ ·) .empty ∧
      failure? (runBatch files text s) =
        done.findSome? (failure? ∘ alone config files nesting) ∧
      ∀ command e, failure? (alone config files nesting command) = some e → e.IsFatal := by
  intro s commands done
  have hready : ((Interpreter.new config).after calls).Ready config :=
    (Interpreter.ready_new config).after calls
  obtain ⟨hbytes, hfailure⟩ := runCommands_eq_executed files nesting (commandsOf text) hready before
  rw [commandsOf_eq] at hbytes hfailure
  refine ⟨LogicalLine.cut_logicalLinesFrom 0 _, ?_, ?_, ?_⟩
  · rw [← hbytes, ← commandsOf_eq]
    rfl
  · rw [← hfailure, ← commandsOf_eq]
    rfl
  · intro command e hfails
    obtain ⟨i', -, -, herror⟩ := execute_eq_alone files nesting command hready before
    cases halone : alone config files nesting command with
    | ok flow s' =>
      rw [halone] at hfails
      cases hfails
    | error e' s' =>
      rw [halone] at hfails
      cases hfails
      exact (herror e s' halone).1

end Batches

end Session

end BraceLang
