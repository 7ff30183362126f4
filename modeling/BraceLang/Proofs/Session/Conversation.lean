import BraceLang.CommandLine
import BraceLang.Proofs.Session.Compositional
import BraceLang.Proofs.Session.Inclusion

/-!
# Conversations and files

Commands from the input have the effect that they have in a file, but for the banner and the
farewell. The file itself is open while its commands are executed, so that one less can be open
inside it: the two agree as long as no batch file is asked for when only one more could be opened.
To open fewer files than that is not enough, since a file that is one too many is refused before
anything is read from it.

* `Session.runCommands_deeper`: commands one level deeper.
* `CommandLine.converse_disagrees`: a file that is asked for too deep and does not exist.
* `CommandLine.converse_agrees`: the two ways to execute commands.
-/

namespace BraceLang

namespace Session

/-! ## One level deeper -/

/-- The session inside one more file. -/
def deeper (s : Session) : Session := { s with nesting := s.nesting + 1 }

/-- The end of a session inside one more file. -/
def Outcome.deeper : Outcome → Outcome
  | .ok _ s => .ok () s.deeper
  | .error e s => .error e s.deeper

theorem eq_ended_of_deeper {outcome : Outcome} {result : Except SessionError Unit}
    {i : Interpreter} {out : Sink} {nesting : Nat}
    (h : outcome.deeper = ended result ⟨i, out, nesting + 1⟩) :
    outcome = ended result ⟨i, out, nesting⟩ := by
  obtain ⟨_, ⟨j, out', nesting'⟩⟩ | ⟨e, ⟨j, out', nesting'⟩⟩ := outcome <;> cases result <;>
    cases h <;> rfl

theorem writeLine_deeper (text : String) (s : Session) :
    writeLine text s.deeper = Outcome.deeper (writeLine text s) := by
  rw [writeLine_apply, writeLine_apply]
  dsimp only [deeper]
  split <;> rfl

/-- There is room for one more file than the command asks for. -/
def Spare (s : Session) (command : Command) : Prop :=
  ∀ path, command = .batch path → s.nesting + 1 < maxNesting

theorem answer_deeper {files : Files} {s : Session} {command : Command} (h : Spare s command)
    (line : Nat) : answer files s.deeper command line = answer files s command line := by
  cases command with
  | bye => rfl
  | eval text => rfl
  | batch path =>
    have hroom : s.nesting + 1 < maxNesting := h path rfl
    have hdeeper : ¬ maxNesting ≤ s.deeper.nesting := Nat.not_le_of_lt hroom
    have hhere : ¬ maxNesting ≤ s.nesting := by omega
    rw [answer, answer, if_neg hdeeper, if_neg hhere]
    rfl

namespace Moment

def deeper (m : Moment) : Moment := { m with session := m.session.deeper }

/-- The next moment inside one more file. -/
def deeperProgress : Progress Moment Outcome → Progress Moment Outcome
  | .more m => .more m.deeper
  | .done outcome => .done outcome.deeper

/-- Wherever a file is asked for, there is room for one more. -/
def IsSpare (m : Moment) : Prop :=
  ∀ command line rest, m.current = (command, line) :: rest → Spare m.session command

theorem close_deeper {m : Moment} (h : m.opened.length ≤ m.session.nesting) :
    m.deeper.close = deeperProgress m.close := by
  obtain ⟨s, current, opened⟩ := m
  cases opened with
  | nil => rfl
  | cons file outer =>
    have hnesting : s.nesting + 1 - 1 = s.nesting - 1 + 1 := by
      have hopen : outer.length + 1 ≤ s.nesting := h
      omega
    simp only [close, deeper, deeperProgress, Session.deeper, hnesting]

theorem proceed_deeper {opened : List (String × List (Command × Nat))}
    (rest : List (Command × Nat)) {outcome : Outcome}
    (h : opened.length ≤ (stateOf outcome).nesting) :
    proceed opened rest outcome.deeper = deeperProgress (proceed opened rest outcome) := by
  cases outcome with
  | ok _ s => rfl
  | error e s =>
    have hnesting : s.nesting + 1 - opened.length = s.nesting - opened.length + 1 := by
      have hopen : opened.length ≤ s.nesting := h
      omega
    simp only [proceed, Outcome.deeper, deeperProgress, Session.deeper, hnesting]

theorem advance_deeper {files : Files} {m : Moment} (h : m.opened.length ≤ m.session.nesting)
    (hspare : m.IsSpare) : m.deeper.advance files = deeperProgress (m.advance files) := by
  have hclose := close_deeper h
  obtain ⟨s, current, opened⟩ := m
  cases current with
  | nil => exact hclose
  | cons first rest =>
    obtain ⟨command, line⟩ := first
    rw [advance_cons]
    show advance files ⟨s.deeper, (command, line) :: rest, opened⟩ = _
    rw [advance_cons, answer_deeper (hspare command line rest rfl)]
    cases answer files s command line with
    | stops => exact hclose
    | opens path text => rfl
    | fails e i =>
      exact @proceed_deeper opened rest (.error e { s with interpreter := i }) h
    | writes text i =>
      have hkeeps := nesting_writeLine text { s with interpreter := i }
      have hwrite := writeLine_deeper text { s with interpreter := i }
      show proceed opened rest (writeLine text (Session.deeper { s with interpreter := i })) = _
      rw [hwrite]
      refine proceed_deeper rest ?_
      rw [hkeeps]
      exact h

theorem reaches_deeper {files : Files} {nesting : Nat} {commands : List (Command × Nat)}
    {start m : Moment} (h : start.Holds files nesting commands)
    (hspare : ∀ m, Reaches files start m → m.IsSpare) (hreach : Reaches files start m) :
    Reaches files start.deeper m.deeper := by
  induction hreach with
  | refl => exact .refl
  | tail hbefore hstep ih =>
    refine ih.tail ?_
    have hcounted := (h.of_reaches hbefore).counted
    rw [advance_deeper (by omega) (hspare _ hbefore), hstep]
    rfl

/-- Whether something is true at all moments of a session that ends within some steps. -/
def always (files : Files) (p : Moment → Bool) : Nat → Moment → Bool
  | 0, _ => false
  | steps + 1, m =>
    p m && match m.advance files with
      | .more m' => always files p steps m'
      | .done _ => true

theorem always_of_reaches {files : Files} {p : Moment → Bool} {steps : Nat} {start m : Moment}
    (h : always files p steps start = true) (hreach : Reaches files start m) : p m = true := by
  induction steps generalizing start with
  | zero => cases h
  | succ steps ih =>
    rw [always, Bool.and_eq_true] at h
    obtain ⟨hstart, hbehind⟩ := h
    cases Relation.ReflTransGen.cases_head hreach with
    | inl hsame =>
      rw [← hsame]
      exact hstart
    | inr hstep =>
      obtain ⟨next, hnext, hreach⟩ := hstep
      rw [hnext] at hbehind
      exact ih hbehind hreach

end Moment

/-- Commands do the same one level deeper, if no file is asked for where no other could be
opened. -/
theorem runCommands_deeper {files : Files} {s : Session} (h : s.nesting ≤ maxNesting)
    {commands : List (Command × Nat)}
    (hspare : ∀ m, Moment.Reaches files ⟨s, commands, []⟩ m → m.IsSpare) :
    runCommands (execute files) commands s.deeper =
      Outcome.deeper (runCommands (execute files) commands s) := by
  have hstart : Moment.Holds files s.nesting commands ⟨s, commands, []⟩ :=
    ⟨rfl, h, List.suffix_rfl⟩
  obtain ⟨m, hreach, hm⟩ := reaches_runCommands files s commands []
  obtain ⟨m', hreach', hm'⟩ := reaches_runCommands files s.deeper commands []
  rw [ending_nil] at hm hm'
  have hcounted := (hstart.of_reaches hreach).counted
  have hdeeper : m.deeper.advance files = _ :=
    Moment.advance_deeper (by omega) (hspare m hreach)
  rw [hm] at hdeeper
  exact (Moment.outcome_unique (Moment.reaches_deeper hstart hspare hreach) hdeeper hreach'
    hm').symm

end Session

/-! ## The lines of the input -/

namespace LineReader

/-- Nothing waits for a continuation behind a line that is not continued. -/
theorem feedAll_pending {reader : LineReader} {lines : List String}
    (hclosed : ∀ raw ∈ lines.getLast?, isContinued raw = false)
    (hpending : lines = [] → reader.pending = []) : (reader.feedAll lines).2.pending = [] := by
  induction lines generalizing reader with
  | nil => exact hpending rfl
  | cons raw rest ih =>
    rw [feedAll]
    refine ih (fun other hother => hclosed other ?_) fun hrest => ?_
    · cases rest with
      | nil => cases hother
      | cons next rest => exact hother
    · have hraw : isContinued raw = false := hclosed raw (by rw [hrest]; rfl)
      rw [feed_apply, hraw]
      rfl

end LineReader

/-- The last line is not continued, so that all commands are complete before the end. -/
def IsClosed (text : String) : Prop :=
  ∀ raw ∈ (physicalLines text).getLast?, isContinued raw = false

theorem commandsOf_of_isClosed {text : String} (h : IsClosed text) :
    commandsOf text = (LineReader.feedAll {} (physicalLines text)).1 := by
  have hpending : (LineReader.feedAll {} (physicalLines text)).2.pending = [] :=
    LineReader.feedAll_pending h fun _ => rfl
  simp only [commandsOf, LineReader.finish, hpending]
  exact List.append_nil _

namespace CommandLine

/-- What is written for some lines. -/
def bytesOf (lines : List String) : ByteArray :=
  lines.foldr (fun line bytes => (line ++ "\n").toUTF8 ++ bytes) .empty

/-- A session that has greeted the user. -/
def greeted (config : Config) : Session :=
  { interpreter := .new config, out := { bytes := bytesOf banner } }

theorem forM_writeLine (lines : List String) (i : Interpreter) (bytes : ByteArray)
    (nesting : Nat) :
    lines.forM Session.writeLine ⟨i, { bytes }, nesting⟩ =
      .ok () ⟨i, { bytes := bytes ++ bytesOf lines }, nesting⟩ := by
  induction lines generalizing bytes with
  | nil =>
    rw [bytesOf, List.foldr_nil, ByteArray.append_empty]
    rfl
  | cons line lines ih =>
    show (Session.writeLine line >>= fun _ => lines.forM Session.writeLine) _ = _
    rw [bind_of_ok (Session.writeLine_unlimited line i bytes), ih, bytesOf, bytesOf,
      List.foldr_cons, ByteArray.append_assoc]

/-- What a conversation and a file with the same commands have in common. -/
structure Agree (conversation file : Ending) : Prop where
  code : conversation.code = file.code
  errors : conversation.errors = file.errors
  /-- the farewell is said only if nothing has failed -/
  out : conversation.out.bytes =
    bytesOf banner ++ file.out.bytes ++ if file.code = 0 then bytesOf [farewell] else .empty

/-! ## The commands of a conversation and of a file -/

section Agreement

open Session

variable {o : Options} {args args' : List String} {path text : String} {files : Files}
  {reserves : Nat → Bool}

theorem converse_apply (config : Config) (hclosed : IsClosed text) :
    converse files (physicalLines text) { interpreter := .new config } =
      match runCommands (execute files) (commandsOf text) (greeted config) with
      | .ok _ s => writeLine farewell s
      | .error e s => .error e s := by
  have hbanner := forM_writeLine banner (.new config) .empty 0
  rw [ByteArray.empty_append] at hbanner
  rw [converse, bind_of_ok hbanner, commandsOf_of_isClosed hclosed]
  show (_ >>= fun _ => writeLine farewell) (greeted config) = _
  cases hrun : runCommands (execute files) (LineReader.feedAll {} (physicalLines text)).1
      (greeted config) with
  | ok _ s => exact bind_of_ok hrun
  | error e s => exact bind_of_error hrun

/-- The commands of a text end in the same way and write the same behind the banner and in a
file. -/
theorem exists_written (config : Config) (hfile : files path = .ok text)
    (hspare : ∀ m, Moment.Reaches files ⟨greeted config, commandsOf text, []⟩ m → m.IsSpare) :
    ∃ (result : Except SessionError Unit) (written : ByteArray) (i i' : Interpreter),
      runCommands (execute files) (commandsOf text) (greeted config) =
        ended result ⟨i, { bytes := bytesOf banner ++ written }, 0⟩ ∧
      runFile files path { interpreter := .new config } =
        ended result ⟨i', { bytes := written }, 0⟩ := by
  have hready := Interpreter.ready_new config
  obtain ⟨result, written, hgives, -⟩ :=
    (lawful_settled config).runBatch files 1 text
  obtain ⟨i, -, hbehind⟩ := hgives (.new config) (bytesOf banner) hready
  obtain ⟨i', -, hinside⟩ := hgives (.new config) .empty hready
  rw [ByteArray.empty_append] at hinside
  refine ⟨result, written, i, i', ?_, ?_⟩
  · exact eq_ended_of_deeper ((runCommands_deeper (Nat.zero_le maxNesting) hspare).symm.trans
      hbehind)
  · rw [runFile_apply, if_neg (Nat.not_le_of_lt (by decide : 0 < maxNesting)), hfile]
    exact nested_eq_ended hinside

/-- A conversation and a file with the same commands agree, if no file is asked for while fifteen
others are open. -/
theorem converse_agrees (hargs : Options.parse args = some o) (hnone : o.file? = none)
    (hargs' : Options.parse args' = some { o with file? := some path })
    (hfile : files path = .ok text) (hclosed : IsClosed text)
    (hfew : ∀ m, Moment.Reaches files ⟨greeted (o.config reserves), commandsOf text, []⟩ m →
      ∀ other line rest, m.current = (.batch other, line) :: rest → m.opened.length < 15)
    (input : String) : Agree (run files args text reserves) (run files args' input reserves) := by
  have hstart : Moment.Holds files 0 (commandsOf text)
      ⟨greeted (o.config reserves), commandsOf text, []⟩ := ⟨rfl, Nat.zero_le _, List.suffix_rfl⟩
  have hspare : ∀ m, Moment.Reaches files ⟨greeted (o.config reserves), commandsOf text, []⟩ m →
      m.IsSpare := by
    rintro m hreach command line rest hcurrent other rfl
    have hcounted := (hstart.of_reaches hreach).counted
    have hopened := hfew m hreach other line rest hcurrent
    show m.session.nesting + 1 < 16
    omega
  obtain ⟨result, written, i, i', hconversation, hinside⟩ :=
    exists_written (o.config reserves) hfile hspare
  let start : Session := { interpreter := .new (o.config reserves) }
  have hrepl : run files args text reserves =
      endingOf (converse files (physicalLines text) start) := by
    simp only [run, hargs, hnone, start]
  have hrun : run files args' input reserves = endingOf (runFile files path start) := by
    simp only [run, hargs']
    rfl
  rw [hrepl, hrun, converse_apply (o.config reserves) hclosed, hconversation, hinside]
  cases result with
  | ok _ =>
    dsimp only [ended]
    rw [writeLine_unlimited]
    refine ⟨rfl, rfl, ?_⟩
    show _ = bytesOf banner ++ written ++ ((farewell ++ "\n").toUTF8 ++ ByteArray.empty)
    rw [ByteArray.append_empty]
    rfl
  | error e => exact ⟨rfl, rfl, ByteArray.append_empty.symm⟩

end Agreement

/-- The file of a letter asks for that of the next one. The last letter with a file is `p`. -/
def chain : Files := fun path =>
  match path.toList with
  | [c] =>
    if c.toNat ≤ 'p'.toNat then .ok (String.ofList ("batch ".toList ++ [Char.ofNat (c.toNat + 1)]))
    else .error .notFound
  | _ => .error .notFound

theorem converse_agrees_chain :
    (Options.parse [] = some {} ∧ Options.parse ["b"] = some { file? := some "b" } ∧
      chain "b" = .ok "batch c" ∧ IsClosed "batch c") ∧
      Agree (run chain [] "batch c") (run chain ["b"] "") := by
  have hargs : Options.parse [] = some {} := rfl
  have hargs' : Options.parse ["b"] = some { file? := some "b" } := by decide +kernel
  have hfile : chain "b" = .ok "batch c" := by decide +kernel
  have hclosed : IsClosed "batch c" := by
    unfold IsClosed
    decide +kernel
  refine ⟨⟨hargs, hargs', hfile, hclosed⟩,
    converse_agrees hargs rfl hargs' hfile hclosed ?_ ""⟩
  intro m hreach other line rest hcurrent
  have hfew := @Session.Moment.always_of_reaches chain
    (fun m => m.current.isEmpty || decide (m.opened.length < 15)) 40 _ m (by decide +kernel) hreach
  simpa [hcurrent] using hfew

/-- With one file more, the last one is asked for while fifteen files are open. A conversation finds
out that it does not exist. Inside a file it is refused before it is looked for. -/
theorem converse_disagrees :
    (Options.parse [] = some {} ∧ Options.parse ["a"] = some { file? := some "a" } ∧
      chain "a" = .ok "batch b" ∧ IsClosed "batch b") ∧
      (∀ m, Session.Moment.Reaches chain ⟨greeted {}, commandsOf "batch b", []⟩ m →
        m.opened.length ≤ 15) ∧
      ¬ Agree (run chain [] "batch b") (run chain ["a"] "") := by
  refine ⟨⟨rfl, by decide +kernel, by decide +kernel, by unfold IsClosed; decide +kernel⟩, ?_, ?_⟩
  · intro m hreach
    have hfew := @Session.Moment.always_of_reaches chain (fun m => decide (m.opened.length ≤ 15))
      40 _ m (by decide +kernel) hreach
    simpa using hfew
  · intro hagree
    have hout : ¬ (run chain [] "batch b").out.bytes = bytesOf banner ++
        (run chain ["a"] "").out.bytes ++ bytesOf [farewell] := by decide +kernel
    exact hout hagree.out

end CommandLine

end BraceLang
