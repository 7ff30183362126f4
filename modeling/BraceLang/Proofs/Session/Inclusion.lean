import BraceLang.Evaluation.Scan
import BraceLang.Proofs.Session.Execution
import Mathlib.Logic.Relation

/-!
# Files within files

A session that executes commands is taken apart into moments. A moment has what is left of the
innermost text and the files that are open, and goes on by one command, by opening a file or by
closing one. Files can ask for each other in any way, also for themselves: a session always comes to
its end, and never has more files open than it may. Whatever gets out of a command ends all files
that are open at once.

* `Moment.advance`, `Moment.moves_advance`: what happens next.
* `reaches_runCommands`: a session ends as its moments do.
* `Moment.Holds.of_reaches`: what is true at every moment.
* `inclusion_bounded`: batch files are bounded and their failures safe.
-/

namespace BraceLang

namespace Session

/-! ## What a command asks for -/

/-- What a command asks of the session that executes it. -/
inductive Answer where
  /-- write a line -/
  | writes (line : String) (interpreter : Interpreter)
  | fails (e : SessionError) (interpreter : Interpreter)
  /-- execute the text of a file -/
  | opens (path text : String)
  | stops

def answer (files : Files) (s : Session) : Command → Nat → Answer
  | .bye, _ => .stops
  | .eval text, line =>
    match Interpreter.run text s.interpreter with
    | .ok result i => .writes result i
    | .error e i =>
      if e.isFatal then .fails (.fatal e line) i
      else .writes s!"Error: {e.message} line {line}" i
  | .batch path, _ =>
    if maxNesting ≤ s.nesting then
      .writes s!"Error: {(SessionError.tooManyBatches maxNesting).message}" s.interpreter
    else match files path with
      | .ok text => .opens path text
      | .error cause =>
        .writes s!"Error: {(SessionError.unreadable path cause).message}" s.interpreter

theorem isFatal_of_answer {files : Files} {s : Session} {command : Command} {line : Nat}
    {e : SessionError} {i : Interpreter} (h : answer files s command line = .fails e i) :
    e.IsFatal := by
  cases command with
  | bye => cases h
  | eval text =>
    rw [answer] at h
    cases hrun : Interpreter.run text s.interpreter with
    | ok result j =>
      rw [hrun] at h
      cases h
    | error cause j =>
      simp only [hrun] at h
      by_cases hfatal : cause.isFatal = true
      · rw [if_pos hfatal] at h
        cases h
        exact ⟨cause, line, rfl, hfatal⟩
      · rw [if_neg hfatal] at h
        cases h
  | batch path =>
    rw [answer] at h
    split at h
    · cases h
    · split at h <;> cases h

theorem opens_of_answer {files : Files} {s : Session} {command : Command} {line : Nat}
    {path text : String} (h : answer files s command line = .opens path text) :
    command = .batch path ∧ s.nesting < maxNesting ∧ files path = .ok text := by
  cases command with
  | bye => cases h
  | eval other =>
    rw [answer] at h
    split at h
    · cases h
    · split at h <;> cases h
  | batch other =>
    rw [answer] at h
    split at h
    · cases h
    · rename_i hnesting
      split at h <;> cases h
      rename_i hfile
      exact ⟨rfl, by omega, hfile⟩

/-- The session goes on behind what has succeeded. -/
def goOn : EStateM.Result SessionError Session Unit → EStateM.Result SessionError Session Flow
  | .ok _ s => .ok .continue s
  | .error e s => .error e s

/-- A command is executed as it answers. -/
theorem execute_eq_answer (files : Files) (command : Command) (line : Nat) (s : Session) :
    execute files command line s =
      match answer files s command line with
      | .writes text i => goOn (writeLine text { s with interpreter := i })
      | .fails e i => .error e { s with interpreter := i }
      | .opens _ text => goOn (nested (runBatch files text) s)
      | .stops => .ok .stop s := by
  cases command with
  | bye => rfl
  | eval text =>
    rw [execute, executeWith_eval, evalLine_apply, answer]
    cases Interpreter.run text s.interpreter with
    | ok result i => rfl
    | error e i =>
      dsimp only
      by_cases hfatal : e.isFatal = true
      · rw [if_pos hfatal, if_pos hfatal]
      · rw [if_neg hfatal, if_neg hfatal]
        rfl
  | batch path =>
    rw [execute, executeWith_batch, runFile_apply, answer]
    by_cases hfull : maxNesting ≤ s.nesting
    · rw [if_pos hfull, if_pos hfull]
      rfl
    · rw [if_neg hfull, if_neg hfull]
      cases files path with
      | error cause => rfl
      | ok text =>
        dsimp only
        cases hrun : nested (runBatch files text) s with
        | ok _ t => rfl
        | error e t =>
          obtain ⟨t', hbatch⟩ := error_of_nested hrun
          have hfinal := (ends_runBatch files text).isFinal hbatch
          simp only [hfinal.not_isReported, Bool.false_eq_true, if_false, goOn]

/-! ## Moments -/

/-- How a session comes to its end. -/
abbrev Outcome := EStateM.Result SessionError Session Unit

/-- A session while it executes commands. -/
structure Moment where
  session : Session
  /-- what is left of the innermost text -/
  current : List (Command × Nat)
  /-- the files that are open, the innermost first, each with what is left of the text around it -/
  opened : List (String × List (Command × Nat))

namespace Moment

/-- The innermost text is at its end. -/
def close (m : Moment) : Progress Moment Outcome :=
  match m.opened with
  | [] => .done (.ok () m.session)
  | (_, rest) :: outer =>
    .more ⟨{ m.session with nesting := m.session.nesting - 1 }, rest, outer⟩

/-- Go on behind a command. If it has failed, all files are closed at once. -/
def proceed (opened : List (String × List (Command × Nat))) (rest : List (Command × Nat)) :
    Outcome → Progress Moment Outcome
  | .ok _ s => .more ⟨s, rest, opened⟩
  | .error e s => .done (.error e { s with nesting := s.nesting - opened.length })

/-- What happens next. -/
def advance (files : Files) (m : Moment) : Progress Moment Outcome :=
  match m.current with
  | [] => m.close
  | (command, line) :: rest =>
    match answer files m.session command line with
    | .writes text i => proceed m.opened rest (writeLine text { m.session with interpreter := i })
    | .fails e i => proceed m.opened rest (.error e { m.session with interpreter := i })
    | .opens path text =>
      .more ⟨{ m.session with nesting := m.session.nesting + 1 }, commandsOf text,
        (path, rest) :: m.opened⟩
    | .stops => m.close

theorem advance_cons (files : Files) (s : Session) (command : Command) (line : Nat)
    (rest : List (Command × Nat)) (opened : List (String × List (Command × Nat))) :
    advance files ⟨s, (command, line) :: rest, opened⟩ =
      match answer files s command line with
      | .writes text i => proceed opened rest (writeLine text { s with interpreter := i })
      | .fails e i => proceed opened rest (.error e { s with interpreter := i })
      | .opens path text =>
        .more ⟨{ s with nesting := s.nesting + 1 }, commandsOf text, (path, rest) :: opened⟩
      | .stops => close ⟨s, [], opened⟩ := rfl

/-- The moments that come after one. -/
def Reaches (files : Files) : Moment → Moment → Prop :=
  Relation.ReflTransGen fun m m' => m.advance files = .more m'

theorem reaches_of_advance {files : Files} {m m' last : Moment} (h : m.advance files = .more m')
    (hrest : Reaches files m' last) : Reaches files m last :=
  Relation.ReflTransGen.head h hrest

/-- A session comes to one end only. -/
theorem outcome_unique {files : Files} {start m m' : Moment} {outcome outcome' : Outcome}
    (h : Reaches files start m) (hm : m.advance files = .done outcome)
    (h' : Reaches files start m') (hm' : m'.advance files = .done outcome') :
    outcome = outcome' := by
  have hlast : ∀ {m n : Moment} {outcome : Outcome}, m.advance files = .done outcome →
      Reaches files m n → n = m := by
    intro m n outcome hm hreach
    cases Relation.ReflTransGen.cases_head hreach with
    | inl heq => exact heq.symm
    | inr hstep =>
      obtain ⟨next, hnext, -⟩ := hstep
      rw [hm] at hnext
      cases hnext
  have hunique : Relator.RightUnique fun m m' : Moment => m.advance files = .more m' := by
    intro a b c hb hc
    rw [hb] at hc
    cases hc
    rfl
  have hsame : m = m' := by
    rcases Relation.ReflTransGen.total_of_right_unique hunique h h' with hto | hto
    · exact (hlast hm hto).symm
    · exact hlast hm' hto
  rw [hsame, hm'] at hm
  cases hm
  rfl

end Moment

open Moment

/-! ## A session and its moments -/

/-- How the commands of a text come to their end while files are open. -/
def ending (opened : List (String × List (Command × Nat))) :
    Outcome → Progress Moment Outcome
  | .ok _ s => Moment.close ⟨s, [], opened⟩
  | .error e s => .done (.error e { s with nesting := s.nesting - opened.length })

theorem ending_nil (outcome : Outcome) : ending [] outcome = .done outcome := by
  cases outcome <;> rfl

/-- Commands come to the end that their moments come to. -/
theorem reaches_runCommands (files : Files) (s : Session) (commands : List (Command × Nat))
    (opened : List (String × List (Command × Nat))) :
    ∃ m : Moment, Reaches files ⟨s, commands, opened⟩ m ∧
      m.advance files = ending opened (runCommands (execute files) commands s) := by
  -- first on the levels that are left for files, then on the commands of the text
  induction hlevels : maxNesting - s.nesting using Nat.strongRecOn
    generalizing s commands opened with
  | ind levels inside =>
    induction commands generalizing s with
    | nil => exact ⟨_, .refl, rfl⟩
    | cons first rest behind =>
      obtain ⟨command, line⟩ := first
      have hadvance := Moment.advance_cons files s command line rest opened
      have hkeeps : _ = s.nesting := (ends_execute files command line s rfl).1
      rw [runCommands_cons]
      rw [execute_eq_answer] at hkeeps ⊢
      cases hanswer : answer files s command line with
      | stops =>
        rw [hanswer] at hadvance
        exact ⟨_, .refl, hadvance⟩
      | fails e i =>
        rw [hanswer] at hadvance
        exact ⟨_, .refl, hadvance⟩
      | writes text i =>
        rw [hanswer] at hadvance hkeeps
        dsimp only at hadvance hkeeps ⊢
        cases hwrite : writeLine text { s with interpreter := i } with
        | error e t =>
          rw [hwrite] at hadvance
          exact ⟨_, .refl, hadvance⟩
        | ok _ t =>
          rw [hwrite] at hadvance hkeeps
          replace hkeeps : t.nesting = s.nesting := hkeeps
          obtain ⟨m, hreach, hm⟩ := behind t (by rw [hkeeps, hlevels])
          exact ⟨m, Moment.reaches_of_advance hadvance hreach, hm⟩
      | opens path text =>
        obtain ⟨-, hnesting, -⟩ := opens_of_answer hanswer
        rw [hanswer] at hadvance hkeeps
        dsimp only at hadvance hkeeps ⊢
        obtain ⟨m, hreach, hm⟩ := inside (maxNesting - (s.nesting + 1)) (by omega)
          { s with nesting := s.nesting + 1 } (commandsOf text) ((path, rest) :: opened) rfl
        rw [nested_apply] at hkeeps ⊢
        rw [show runCommands (execute files) (commandsOf text) = runBatch files text from rfl] at hm
        cases hbatch : runBatch files text { s with nesting := s.nesting + 1 } with
        | error e t =>
          rw [hbatch] at hm
          refine ⟨m, Moment.reaches_of_advance hadvance hreach, hm.trans ?_⟩
          simp only [ending, goOn, List.length_cons, Nat.sub_sub, Nat.add_comm]
        | ok _ t =>
          rw [hbatch] at hm hkeeps
          replace hkeeps : t.nesting - 1 = s.nesting := hkeeps
          obtain ⟨m', hreach', hm'⟩ := behind { t with nesting := t.nesting - 1 }
            (by rw [← hlevels, ← hkeeps])
          exact ⟨m', Moment.reaches_of_advance hadvance
            (hreach.trans (Moment.reaches_of_advance hm hreach')), hm'⟩

/-! ## What is true at every moment -/

/-- What is left of each text is an end of its commands: of those of a file that is open, and
outside all files of the commands that the session has begun with. -/
def InPlace (files : Files) (commands : List (Command × Nat)) :
    List (Command × Nat) → List (String × List (Command × Nat)) → Prop
  | current, [] => current <:+ commands
  | current, (path, rest) :: outer =>
    (∃ text, files path = .ok text ∧ current <:+ commandsOf text) ∧
      InPlace files commands rest outer

theorem InPlace.behind {files : Files} {commands current : List (Command × Nat)}
    {opened : List (String × List (Command × Nat))} {command : Command × Nat}
    (h : InPlace files commands (command :: current) opened) :
    InPlace files commands current opened := by
  have hsuffix : current <:+ command :: current := List.suffix_cons command current
  cases opened with
  | nil => exact hsuffix.trans h
  | cons file outer =>
    obtain ⟨⟨text, hfile, hcommands⟩, houter⟩ := h
    exact ⟨⟨text, hfile, hsuffix.trans hcommands⟩, houter⟩

namespace Moment

variable {files : Files} {nesting : Nat} {commands : List (Command × Nat)}

/-- The session counts the files that are open, which are not too many. -/
structure Holds (files : Files) (nesting : Nat) (commands : List (Command × Nat)) (m : Moment) :
    Prop where
  counted : m.session.nesting = nesting + m.opened.length
  bounded : m.session.nesting ≤ maxNesting
  placed : InPlace files commands m.current m.opened

/-- What can come next: the session goes on behind a command, in a file or behind a file, it is at
its end, or a failure closes all files. -/
inductive Moves (files : Files) (m : Moment) : Progress Moment Outcome → Prop
  | next {command : Command × Nat} {rest : List (Command × Nat)} {t : Session} :
    m.current = command :: rest → t.nesting = m.session.nesting →
    Moves files m (.more ⟨t, rest, m.opened⟩)
  | enter {path text : String} {line : Nat} {rest : List (Command × Nat)} :
    m.current = (.batch path, line) :: rest → m.session.nesting < maxNesting →
    files path = .ok text →
    Moves files m (.more ⟨{ m.session with nesting := m.session.nesting + 1 }, commandsOf text,
      (path, rest) :: m.opened⟩)
  | leave {path : String} {rest : List (Command × Nat)}
    {outer : List (String × List (Command × Nat))} : m.opened = (path, rest) :: outer →
    Moves files m (.more ⟨{ m.session with nesting := m.session.nesting - 1 }, rest, outer⟩)
  | finished : m.opened = [] → Moves files m (.done (.ok () m.session))
  | failed {e : SessionError} {t : Session} : e.IsFinal →
    t.nesting = m.session.nesting - m.opened.length → Moves files m (.done (.error e t))

theorem moves_close (files : Files) (m : Moment) : Moves files m m.close := by
  unfold close
  split
  · exact .finished ‹_›
  · exact .leave ‹_›

theorem moves_advance (files : Files) (m : Moment) : Moves files m (m.advance files) := by
  have hclose := moves_close files m
  obtain ⟨s, current, opened⟩ := m
  cases current with
  | nil => exact hclose
  | cons first rest =>
    obtain ⟨command, line⟩ := first
    rw [advance_cons]
    cases hanswer : answer files s command line with
    | stops => exact hclose
    | fails e i => exact .failed (.inr (isFatal_of_answer hanswer)) rfl
    | opens path text =>
      obtain ⟨rfl, hnesting, hfile⟩ := opens_of_answer hanswer
      exact .enter rfl hnesting hfile
    | writes text i =>
      have hkeeps := nesting_writeLine text { s with interpreter := i }
      dsimp only
      cases hwrite : writeLine text { s with interpreter := i } with
      | ok _ t =>
        rw [hwrite] at hkeeps
        exact .next rfl hkeeps
      | error e t =>
        rw [hwrite] at hkeeps
        exact .failed (.inl (error_of_writeLine hwrite)) (congrArg (· - opened.length) hkeeps)

theorem Holds.advance {m m' : Moment} (h : Holds files nesting commands m)
    (hstep : m.advance files = .more m') : Holds files nesting commands m' := by
  obtain ⟨hcounted, hbounded, hplaced⟩ := h
  have hmoves := moves_advance files m
  rw [hstep] at hmoves
  cases hmoves with
  | next hcurrent hkeeps =>
    rw [hcurrent] at hplaced
    exact ⟨hkeeps.trans hcounted, Nat.le_trans (Nat.le_of_eq hkeeps) hbounded, hplaced.behind⟩
  | enter hcurrent hnesting hfile =>
    rw [hcurrent] at hplaced
    refine ⟨?_, hnesting, ⟨_, hfile, List.suffix_rfl⟩, hplaced.behind⟩
    simp only [List.length_cons, hcounted]
    omega
  | leave hopened =>
    rw [hopened] at hcounted hplaced
    rw [List.length_cons] at hcounted
    exact ⟨by dsimp only; omega, by dsimp only; omega, hplaced.2⟩

theorem Holds.of_reaches {start m : Moment} (h : Holds files nesting commands start)
    (hreach : Reaches files start m) : Holds files nesting commands m := by
  induction hreach with
  | refl => exact h
  | tail _ hstep ih => exact ih.advance hstep

/-- At the end the files that were open are closed. -/
theorem Holds.nesting_of_done {m : Moment} {outcome : Outcome} (h : Holds files nesting commands m)
    (hdone : m.advance files = .done outcome) : (stateOf outcome).nesting = nesting := by
  have hcounted := h.counted
  have hmoves := moves_advance files m
  rw [hdone] at hmoves
  cases hmoves with
  | finished hopened =>
    rw [hopened] at hcounted
    exact hcounted
  | @failed e t _ hnesting =>
    show t.nesting = nesting
    omega

theorem isFinal_of_done {m : Moment} {e : SessionError} {t : Session}
    (hdone : m.advance files = .done (.error e t)) : e.IsFinal := by
  have hmoves := moves_advance files m
  rw [hdone] at hmoves
  cases hmoves with
  | failed hfinal _ => exact hfinal

end Moment

/-! ## Runs -/

/-- The end of a session, whatever its result is. -/
def outcomeOf {α : Type} : EStateM.Result SessionError Session α → Outcome
  | .ok _ s => .ok () s
  | .error e s => .error e s

theorem outcomeOf_outcome (outcome : Outcome) : outcomeOf outcome = outcome := by
  cases outcome <;> rfl

theorem stateOf_outcomeOf {α : Type} (result : EStateM.Result SessionError Session α) :
    stateOf (outcomeOf result) = stateOf result := by
  cases result <;> rfl

theorem outcomeOf_eq_error_iff {α : Type} {result : EStateM.Result SessionError Session α}
    {e : SessionError} {t : Session} : outcomeOf result = .error e t ↔ result = .error e t := by
  cases result <;> simp [outcomeOf]

/-- How an action executes commands from a moment on. -/
structure Runs {α : Type} (files : Files) (nesting : Nat) (commands : List (Command × Nat))
    (start : Moment) (result : EStateM.Result SessionError Session α) : Prop where
  /-- the run comes to its end -/
  ends : ∃ last, Reaches files start last ∧ last.advance files = .done (outcomeOf result)
  /-- the files that are open, with those around the action, are never too many -/
  bounded : ∀ m, Reaches files start m →
    m.session.nesting = nesting + m.opened.length ∧ nesting + m.opened.length ≤ maxNesting
  /-- commands are those of the innermost file, with their numbers -/
  placed : ∀ m, Reaches files start m → InPlace files commands m.current m.opened
  /-- whatever the outcome, the nesting is the one before -/
  restored : (stateOf result).nesting = nesting
  /-- files that cannot be had make nothing fail -/
  fails : ∀ e t, result = .error e t → e = .sinkFull ∨ e.IsFatal
  /-- they are written as a line, and what is behind them in the text comes next -/
  reported : ∀ m path line rest e t t', Reaches files start m →
    m.current = (.batch path, line) :: rest → runFile files path m.session = .error e t →
    e.isReported = true → writeLine s!"Error: {e.message}" m.session = .ok () t' →
    m.advance files = .more ⟨t', rest, m.opened⟩
  /-- a failure of a command is that of all texts around it -/
  aborts : ∀ m command line rest e t, Reaches files start m →
    m.current = (command, line) :: rest → execute files command line m.session = .error e t →
    result = .error e { t with nesting }
  /-- nothing is written for a lack of cells -/
  fatal : ∀ m text line rest e i, Reaches files start m →
    m.current = (.eval text, line) :: rest →
    Interpreter.run text m.session.interpreter = .error e i → e.isFatal = true →
    result = .error (.fatal e line) ⟨i, m.session.out, nesting⟩
  /-- a line that cannot be written whole -/
  full : ∀ m command line rest text i, Reaches files start m →
    m.current = (command, line) :: rest → answer files m.session command line = .writes text i →
    (m.session.out.write (text ++ "\n")).1 = false →
    result = .error .sinkFull ⟨i, (m.session.out.write (text ++ "\n")).2, nesting⟩

/-- A failed command of any moment is the end of the session. -/
theorem Moment.Holds.done_of_error {files : Files} {nesting : Nat}
    {commands : List (Command × Nat)} {m : Moment} (h : m.Holds files nesting commands)
    {command : Command} {line : Nat} {rest : List (Command × Nat)} {e : SessionError} {t : Session}
    (hcurrent : m.current = (command, line) :: rest)
    (hfails : execute files command line m.session = .error e t) :
    ∃ last, Reaches files m last ∧
      last.advance files = .done (.error e { t with nesting := nesting }) := by
  obtain ⟨s, current, opened⟩ := m
  replace hcurrent : current = (command, line) :: rest := hcurrent
  subst hcurrent
  have hkeeps : t.nesting = s.nesting := (ends_execute files command line).of_error hfails
  have hcounted : s.nesting = nesting + opened.length := h.counted
  obtain ⟨last, hreach, hlast⟩ := reaches_runCommands files s ((command, line) :: rest) opened
  refine ⟨last, hreach, hlast.trans ?_⟩
  rw [runCommands_cons, hfails]
  simp only [ending, hkeeps, hcounted, Nat.add_sub_cancel_right]

/-- A file that cannot be had is answered with a line. -/
theorem answer_of_isReported {files : Files} {path : String} {s t : Session} {e : SessionError}
    (h : runFile files path s = .error e t) (hreported : e.isReported = true) (line : Nat) :
    answer files s (.batch path) line = .writes s!"Error: {e.message}" s.interpreter := by
  rw [runFile_apply] at h
  rw [answer]
  by_cases hfull : maxNesting ≤ s.nesting
  · rw [if_pos hfull] at h ⊢
    cases h
    rfl
  · rw [if_neg hfull] at h ⊢
    cases hfile : files path with
    | error cause =>
      rw [hfile] at h
      cases h
      rfl
    | ok text =>
      rw [hfile] at h
      obtain ⟨t', hbatch⟩ := error_of_nested h
      rw [((ends_runBatch files text).isFinal hbatch).not_isReported] at hreported
      cases hreported

theorem Moment.advance_of_isReported {files : Files} {m : Moment} {path : String} {line : Nat}
    {rest : List (Command × Nat)} {e : SessionError} {t t' : Session}
    (hcurrent : m.current = (.batch path, line) :: rest)
    (hfile : runFile files path m.session = .error e t) (hreported : e.isReported = true)
    (hwrite : writeLine s!"Error: {e.message}" m.session = .ok () t') :
    m.advance files = .more ⟨t', rest, m.opened⟩ := by
  obtain ⟨s, current, opened⟩ := m
  replace hcurrent : current = (.batch path, line) :: rest := hcurrent
  subst hcurrent
  rw [advance_cons, answer_of_isReported hfile hreported]
  exact congrArg (proceed opened rest) hwrite

/-- The session has one end, which is that of the failed command. -/
theorem Moment.Holds.eq_error_of_execute {α : Type} {files : Files} {nesting : Nat}
    {commands : List (Command × Nat)} {start m last : Moment}
    {result : EStateM.Result SessionError Session α} (h : start.Holds files nesting commands)
    (hreachLast : Reaches files start last) (hlast : last.advance files = .done (outcomeOf result))
    (hreach : Reaches files start m) {command : Command} {line : Nat}
    {rest : List (Command × Nat)} {e : SessionError} {t : Session}
    (hcurrent : m.current = (command, line) :: rest)
    (hfails : execute files command line m.session = .error e t) :
    result = .error e { t with nesting } := by
  obtain ⟨last', hreach', hlast'⟩ := (h.of_reaches hreach).done_of_error hcurrent hfails
  exact outcomeOf_eq_error_iff.mp
    (outcome_unique hreachLast hlast (hreach.trans hreach') hlast')

theorem Runs.of_holds {α : Type} {files : Files} {nesting : Nat}
    {commands : List (Command × Nat)} {start : Moment}
    {result : EStateM.Result SessionError Session α} (h : start.Holds files nesting commands)
    (hends : ∃ last, Reaches files start last ∧ last.advance files = .done (outcomeOf result)) :
    Runs files nesting commands start result := by
  obtain ⟨last, hreach, hlast⟩ := hends
  refine
    { ends := ⟨last, hreach, hlast⟩
      bounded := fun m hm => ?_
      placed := fun m hm => (h.of_reaches hm).placed
      restored := ?_
      fails := ?_
      reported := fun m path line rest e t t' _ => Moment.advance_of_isReported
      aborts := fun m command line rest e t hm => h.eq_error_of_execute hreach hlast hm
      fatal := ?_
      full := ?_ }
  · obtain ⟨hcounted, hbounded, -⟩ := h.of_reaches hm
    exact ⟨hcounted, hcounted ▸ hbounded⟩
  · rw [← stateOf_outcomeOf]
    exact (h.of_reaches hreach).nesting_of_done hlast
  · rintro e t rfl
    exact Moment.isFinal_of_done hlast
  · intro m text line rest e i hm hcurrent hrun hfatal
    refine h.eq_error_of_execute hreach hlast hm
      (t := { m.session with interpreter := i }) hcurrent ?_
    rw [execute, executeWith_eval, evalLine_apply, hrun]
    simp only [if_pos hfatal]
  · intro m command line rest text i hm hcurrent hanswer hwrite
    refine h.eq_error_of_execute hreach hlast hm
      (t := ⟨i, (m.session.out.write (text ++ "\n")).2, m.session.nesting⟩) hcurrent ?_
    rw [execute_eq_answer, hanswer]
    simp only [writeLine_apply, hwrite, Bool.false_eq_true, if_false, goOn]

theorem runs_commands {α : Type} {files : Files} {s : Session} (h : s.nesting ≤ maxNesting)
    {commands : List (Command × Nat)} {result : EStateM.Result SessionError Session α}
    (hresult : outcomeOf result = runCommands (execute files) commands s) :
    Runs files s.nesting commands ⟨s, commands, []⟩ result := by
  obtain ⟨last, hreach, hlast⟩ := reaches_runCommands files s commands []
  refine .of_holds ⟨rfl, h, List.suffix_rfl⟩ ⟨last, hreach, hlast.trans ?_⟩
  rw [hresult, ending_nil]

theorem runs_file {files : Files} {s : Session} {path text : String}
    (h : s.nesting < maxNesting) (hfile : files path = .ok text) :
    Runs files s.nesting [] ⟨{ s with nesting := s.nesting + 1 }, commandsOf text, [(path, [])]⟩
      (runFile files path s) := by
  obtain ⟨last, hreach, hlast⟩ := reaches_runCommands files { s with nesting := s.nesting + 1 }
    (commandsOf text) [(path, [])]
  refine .of_holds ⟨rfl, h, ⟨text, hfile, List.suffix_rfl⟩, List.suffix_rfl⟩ ?_
  rw [runFile_apply, if_neg (Nat.not_le_of_lt h), hfile]
  dsimp only
  rw [nested_apply]
  cases hbatch : runBatch files text { s with nesting := s.nesting + 1 } with
  | error e t =>
    rw [show runCommands (execute files) (commandsOf text) _ = _ from hbatch] at hlast
    exact ⟨last, hreach, hlast⟩
  | ok _ t =>
    rw [show runCommands (execute files) (commandsOf text) _ = _ from hbatch] at hlast
    exact ⟨_, hreach.tail hlast, rfl⟩

/-- Why a file is not executed to its end. -/
theorem error_of_runFile {files : Files} {s t : Session} {path : String} {e : SessionError}
    (h : s.nesting ≤ maxNesting) (hrun : runFile files path s = .error e t) :
    (e = .tooManyBatches maxNesting ∧ s.nesting = maxNesting) ∨
      (∃ cause, e = .unreadable path cause ∧ files path = .error cause) ∨ e.IsFinal := by
  rw [runFile_apply] at hrun
  by_cases hfull : maxNesting ≤ s.nesting
  · rw [if_pos hfull] at hrun
    cases hrun
    exact .inl ⟨rfl, Nat.le_antisymm h hfull⟩
  · rw [if_neg hfull] at hrun
    cases hfile : files path with
    | error cause =>
      rw [hfile] at hrun
      cases hrun
      exact .inr (.inl ⟨cause, rfl, rfl⟩)
    | ok text =>
      rw [hfile] at hrun
      obtain ⟨t', hbatch⟩ := error_of_nested hrun
      exact .inr (.inr ((ends_runBatch files text).isFinal hbatch))

/-- The nesting of batch files is bounded and their failures are safe. A text, a command and a file
come to their end, with no more files open than there may be, and leave the nesting as it has been.
A file is refused only if too many are open or if it cannot be read itself. -/
theorem inclusion_bounded (files : Files) (s : Session) (h : s.nesting ≤ maxNesting) :
    (∀ text, Runs files s.nesting (commandsOf text) ⟨s, commandsOf text, []⟩
      (runBatch files text s)) ∧
    (∀ command line, Runs files s.nesting [(command, line)] ⟨s, [(command, line)], []⟩
      (execute files command line s)) ∧
    ∀ path,
      (s.nesting = maxNesting → runFile files path s = .error (.tooManyBatches maxNesting) s) ∧
      (∀ cause, s.nesting < maxNesting → files path = .error cause →
        runFile files path s = .error (.unreadable path cause) s) ∧
      (∀ text, s.nesting < maxNesting → files path = .ok text →
        Runs files s.nesting []
          ⟨{ s with nesting := s.nesting + 1 }, commandsOf text, [(path, [])]⟩
          (runFile files path s)) ∧
      (∀ limit t, runFile files path s = .error (.tooManyBatches limit) t →
        s.nesting = maxNesting) ∧
      (∀ other cause t, runFile files path s = .error (.unreadable other cause) t →
        other = path ∧ files path = .error cause) := by
  refine ⟨fun text => runs_commands h (outcomeOf_outcome _), fun command line => ?_,
    fun path => ⟨?_, ?_, ?_, ?_, ?_⟩⟩
  · refine runs_commands h ?_
    rw [runCommands_cons]
    cases execute files command line s with
    | error e t => rfl
    | ok flow t => cases flow <;> rfl
  · intro hfull
    rw [runFile_apply, if_pos (Nat.le_of_eq hfull.symm)]
  · intro cause hnesting hfile
    rw [runFile_apply, if_neg (Nat.not_le_of_lt hnesting), hfile]
  · exact fun text hnesting hfile => runs_file hnesting hfile
  · intro limit t hrun
    rcases error_of_runFile h hrun with ⟨-, hfull⟩ | ⟨cause, he, -⟩ | hfinal
    · exact hfull
    · cases he
    · cases hfinal.not_isReported
  · intro other cause t hrun
    rcases error_of_runFile h hrun with ⟨he, -⟩ | ⟨cause', he, hfile⟩ | hfinal
    · cases he
    · cases he
      exact ⟨rfl, hfile⟩
    · cases hfinal.not_isReported

theorem inclusion_bounded_self :
    ({ interpreter := .new {} } : Session).nesting ≤ maxNesting ∧
      Runs (fun _ => .ok "batch a") 0 []
        ⟨⟨.new {}, {}, 1⟩, commandsOf "batch a", [("a", [])]⟩
        (runFile (fun _ => .ok "batch a") "a" { interpreter := .new {} }) :=
  ⟨by decide, ((inclusion_bounded (fun _ => .ok "batch a") { interpreter := .new {} }
    (by decide)).2.2 "a").2.2.1 "batch a" (by decide) rfl⟩

end Session

end BraceLang
