import BraceLang.Proofs.Session.Compositional
import BraceLang.Proofs.Store.Flat

/-!
# Outputs that are limited

A session whose output has only so much room does what it does without a limit, up to the write that
does not fit. Of that write the front is kept that fills the room, and it ends the step of the
session. From then on nothing more is written, so that only the tail of the output is lost.

* `Sink.take_append`: the room for one piece after the other.
* `Session.Fills`: an action with any output, compared with the same action without a limit.
* `Session.lawful_fills`: all actions of a session are such actions.
* `Session.Cut`: two sessions of which one has written the front of what the other one has.
* `Session.output_cut`: steps of a session with a limited output.
-/

namespace BraceLang

namespace Sink

/-- An output with room for so many bytes. -/
def limited (limit : Nat) : Sink := { room? := some limit }

theorem fits_limited (limit count : Nat) :
    (limited limit).fits count = decide (count ≤ limit) := rfl

variable (out : Sink) (first second : ByteArray)

/-! ## Taking pieces -/

theorem take_append : out.take (first ++ second) = (out.take first).take second := by
  unfold take
  cases out.room? with
  | none => simp only [ByteArray.append_assoc]
  | some room =>
    have hextract : (first ++ second).extract 0 room =
        first.extract 0 room ++ second.extract 0 (room - first.size) := by
      rw [ByteArray.extract_append, Nat.zero_sub]
    simp only [hextract, ByteArray.append_assoc, ByteArray.size_append, Nat.sub_sub]

theorem fits_append :
    out.fits (first ++ second).size =
      (out.fits first.size && (out.take first).fits second.size) := by
  unfold fits take
  cases out.room? with
  | none => rfl
  | some room =>
    rw [Bool.eq_iff_iff, Bool.and_eq_true]
    simp only [ByteArray.size_append, decide_eq_true_eq]
    omega

theorem take_empty : out.take .empty = out := by
  obtain ⟨bytes, room?⟩ := out
  cases room? with
  | none => exact congrArg (fun bytes => (⟨bytes, none⟩ : Sink)) ByteArray.append_empty
  | some room =>
    have hempty : ByteArray.empty.extract 0 room = .empty := extract_of_size_le (Nat.zero_le room)
    simp only [take, hempty, ByteArray.append_empty, ByteArray.size_empty, Nat.sub_zero]

theorem fits_empty : out.fits ByteArray.empty.size = true := by
  unfold fits
  cases out.room? with
  | none => rfl
  | some room => exact decide_eq_true (Nat.zero_le room)

variable {out first}

/-- What comes behind a piece that does not fit is lost. -/
theorem take_append_of_full (h : out.fits first.size = false) :
    out.take (first ++ second) = out.take first := by
  rw [take_append]
  obtain ⟨bytes, room?⟩ := out
  cases room? with
  | none => cases h
  | some room =>
    have hfull : room - first.size = 0 := by
      have hmore : ¬ first.size ≤ room := of_decide_eq_false h
      omega
    simp only [take, hfull]
    simp

end Sink

namespace Session

/-! ## Actions -/

/-- The action has a result and something to write. With an output that has room for that, it has
the result. Otherwise the room is filled up, and the action fails for it at the same nesting. -/
def Fills (nesting : Nat) {α : Type} (action : SessionM α) : Prop :=
  ∀ i : Interpreter, ∃ (result : Except SessionError α) (i' : Interpreter) (written : ByteArray),
    ∀ out : Sink,
      (out.fits written.size = true →
        action ⟨i, out, nesting⟩ = ended result ⟨i', out.take written, nesting⟩) ∧
      (out.fits written.size = false → ∃ i'' : Interpreter,
        action ⟨i, out, nesting⟩ = .error .sinkFull ⟨i'', out.take written, nesting⟩)

section Rules

variable {α β : Type} {nesting : Nat}

/-- An action that writes nothing. -/
theorem fills_of_silent {action : SessionM α}
    (h : ∀ i : Interpreter, ∃ (result : Except SessionError α) (i' : Interpreter),
      ∀ out : Sink, action ⟨i, out, nesting⟩ = ended result ⟨i', out, nesting⟩) :
    Fills nesting action := by
  intro i
  obtain ⟨result, i', hrun⟩ := h i
  refine ⟨result, i', .empty, fun out => ⟨fun _ => ?_, fun hfull => ?_⟩⟩
  · rw [out.take_empty]
    exact hrun out
  · rw [out.fits_empty] at hfull
    cases hfull

theorem fills_pure (a : α) : Fills nesting (pure a : SessionM α) :=
  fills_of_silent fun i => ⟨.ok a, i, fun _ => rfl⟩

theorem fills_throw (e : SessionError) : Fills nesting (throw e : SessionM α) :=
  fills_of_silent fun i => ⟨.error e, i, fun _ => rfl⟩

theorem fills_interpret (text : String) : Fills nesting (interpret text) := by
  refine fills_of_silent fun i => ?_
  cases hrun : Interpreter.run text i with
  | ok rendered i' =>
    exact ⟨.ok (.ok rendered), i', fun out => by simp only [interpret, hrun, ended]⟩
  | error e i' =>
    exact ⟨.ok (.error e), i', fun out => by simp only [interpret, hrun, ended]⟩

theorem fills_writeLine (text : String) : Fills nesting (writeLine text) := by
  refine fun i => ⟨.ok (), i, (text ++ "\n").toUTF8, fun out => ?_⟩
  have hwrite : out.write (text ++ "\n") =
      (out.fits (text ++ "\n").toUTF8.size, out.take (text ++ "\n").toUTF8) := rfl
  rw [writeLine_apply]
  simp only [hwrite]
  constructor
  · intro hfits
    rw [if_pos hfits]
    rfl
  · intro hfull
    rw [if_neg (Bool.eq_false_iff.mp hfull)]
    exact ⟨i, rfl⟩

/-- An action that goes on with another one when it has ended. -/
theorem fills_of_steps {action : SessionM α} {whole : SessionM β}
    (next : Except SessionError α → SessionM β) (h : Fills nesting action)
    (hnext : ∀ result, Fills nesting (next result))
    (hwhole : ∀ s result t, action s = ended result t → whole s = next result t)
    (hfull : ∀ t, next (.error .sinkFull) t = .error .sinkFull t) : Fills nesting whole := by
  intro i
  obtain ⟨result, i₁, first, hfirst⟩ := h i
  obtain ⟨result', i₂, second, hsecond⟩ := hnext result i₁
  refine ⟨result', i₂, first ++ second, fun out => ?_⟩
  rw [out.fits_append, out.take_append]
  obtain ⟨hfits, hstops⟩ := hfirst out
  obtain ⟨hfits', hstops'⟩ := hsecond (out.take first)
  cases hroom : out.fits first.size with
  | true =>
    rw [Bool.true_and, hwhole _ _ _ (hfits hroom)]
    exact ⟨hfits', hstops'⟩
  | false =>
    rw [Bool.false_and]
    refine ⟨nofun, fun _ => ?_⟩
    obtain ⟨i'', hrun⟩ := hstops hroom
    refine ⟨i'', ?_⟩
    rw [← out.take_append, Sink.take_append_of_full second hroom]
    exact (hwhole _ (.error .sinkFull) _ hrun).trans (hfull _)

theorem fills_bind {action : SessionM α} {next : α → SessionM β} (h : Fills nesting action)
    (hnext : ∀ a, Fills nesting (next a)) : Fills nesting (action >>= next) := by
  let goOn : Except SessionError α → SessionM β
    | .ok a => next a
    | .error e => throw e
  refine fills_of_steps goOn h (fun result => ?_) (fun s result t hrun => ?_) fun _ => rfl
  · cases result with
    | ok a => exact hnext a
    | error e => exact fills_throw e
  · cases result with
    | ok a => exact bind_of_ok hrun
    | error e => exact bind_of_error hrun

theorem fills_report {action : SessionM Unit} (h : Fills nesting action) :
    Fills nesting (tryCatch action fun e =>
      if e.isReported then writeLine s!"Error: {e.message}" else throw e) := by
  let handle : Except SessionError Unit → SessionM Unit
    | .ok a => pure a
    | .error e => if e.isReported then writeLine s!"Error: {e.message}" else throw e
  refine fills_of_steps handle h (fun result => ?_) (fun s result t hrun => ?_) fun _ => rfl
  · cases result with
    | ok a => exact fills_pure a
    | error e =>
      dsimp only [handle]
      split
      · exact fills_writeLine _
      · exact fills_throw e
  · rw [tryCatch_apply, hrun]
    cases result <;> rfl

theorem fills_evalLine (text : String) (line : Nat) : Fills nesting (evalLine text line) := by
  refine fills_bind (fills_interpret text) fun answer => ?_
  cases answer with
  | ok rendered => exact fills_writeLine rendered
  | error e =>
    dsimp only
    split
    · exact fills_throw _
    · exact fills_writeLine _

theorem fills_nested {action : SessionM Unit} (h : Fills (nesting + 1) action) :
    Fills nesting (nested action) := by
  intro i
  obtain ⟨result, i', written, hruns⟩ := h i
  refine ⟨result, i', written, fun out => ⟨fun hfits => ?_, fun hfull => ?_⟩⟩
  · exact nested_eq_ended (s := ⟨i, out, nesting⟩) ((hruns out).1 hfits)
  · obtain ⟨i'', hrun⟩ := (hruns out).2 hfull
    have hended : action ⟨i, out, nesting + 1⟩ =
        ended (.error .sinkFull) ⟨i'', out.take written, nesting + 1⟩ := hrun
    exact ⟨i'', nested_eq_ended (s := ⟨i, out, nesting⟩) hended⟩

theorem lawful_fills : Lawful fun nesting _ {_} action => Fills nesting action where
  pure := fills_pure
  bind := fills_bind
  evalLine := fills_evalLine
  refuse := fun _ => fills_throw _
  report := fills_report
  nested := fills_nested
  congr := fun hsame h i => by
    obtain ⟨result, i', written, hruns⟩ := h i
    refine ⟨result, i', written, fun out => ?_⟩
    rw [← hsame ⟨i, out, _⟩ rfl]
    exact hruns out

end Rules

/-! ## Steps of a session -/

/-- What a session is asked to do. -/
inductive Step where
  | execute (command : Command) (line : Nat)
  | runBatch (text : String)
  | runFile (path : String)

/-- Do what is asked. Only a command says whether the session goes on. -/
def Step.perform (files : Files) : Step → SessionM (Option Flow)
  | .execute command line => do
    let flow ← Session.execute files command line
    pure (some flow)
  | .runBatch text => do
    Session.runBatch files text
    pure none
  | .runFile path => do
    Session.runFile files path
    pure none

theorem fills_perform (files : Files) (nesting : Nat) (step : Step) :
    Fills nesting (step.perform files) := by
  cases step with
  | execute command line =>
    exact fills_bind (lawful_fills.execute files nesting command line) fun _ => fills_pure _
  | runBatch text =>
    exact fills_bind (lawful_fills.runBatch files nesting text) fun _ => fills_pure _
  | runFile path =>
    exact fills_bind (lawful_fills.runFile files nesting path) fun _ => fills_pure _

/-- The second session has only so much room for its output, and has written the front of what the
first one has written. As long as that is all of it, the sessions have the same interpreter. -/
inductive Cut (limit nesting : Nat) : Session → Session → Prop
  | intro {i i' : Interpreter} {bytes : ByteArray} : (bytes.size ≤ limit → i' = i) →
    Cut limit nesting ⟨i, { bytes }, nesting⟩ ⟨i', (Sink.limited limit).take bytes, nesting⟩

theorem Cut.nesting_right {limit nesting : Nat} {s s' : Session} (h : Cut limit nesting s s') :
    s'.nesting = nesting := by
  cases h
  rfl

theorem Cut.bytes_eq {limit nesting : Nat} {s s' : Session} (h : Cut limit nesting s s') :
    s'.out.bytes = s.out.bytes.extract 0 (min limit s.out.bytes.size) := by
  obtain @⟨i, i', bytes, -⟩ := h
  have hextract : bytes.extract 0 limit = bytes.extract 0 (min limit bytes.size) := by
    rcases Nat.le_total bytes.size limit with hle | hle
    · rw [Nat.min_eq_right hle, ByteArray.extract_zero_size, Sink.extract_of_size_le hle]
    · rw [Nat.min_eq_left hle]
  rw [← hextract]
  exact ByteArray.empty_append

theorem stateOf_ended {ε σ α : Type} (result : Except ε α) (s : σ) :
    stateOf (ended result s) = s := by cases result <;> rfl

theorem answerOf_ended {ε σ α : Type} (result : Except ε α) (s : σ) :
    answerOf (ended result s) = result := by cases result <;> rfl

/-- Where no room is left, nothing is written any more, whatever the action does. -/
theorem Fills.run_full {α : Type} {limit nesting : Nat} {action : SessionM α} {bytes : ByteArray}
    (h : Fills nesting action) (hfull : limit < bytes.size) (i : Interpreter) (more : ByteArray) :
    ∃ i' : Interpreter, stateOf (action ⟨i, (Sink.limited limit).take bytes, nesting⟩) =
      ⟨i', (Sink.limited limit).take (bytes ++ more), nesting⟩ := by
  have hroom : (Sink.limited limit).fits bytes.size = false := by
    rw [Sink.fits_limited]
    exact decide_eq_false (Nat.not_le_of_lt hfull)
  have hkept : ∀ more : ByteArray, (Sink.limited limit).take (bytes ++ more) =
      (Sink.limited limit).take bytes := fun more => Sink.take_append_of_full more hroom
  obtain ⟨result, i', written, hruns⟩ := h i
  obtain ⟨hfits, hstops⟩ := hruns ((Sink.limited limit).take bytes)
  rw [← Sink.take_append, hkept] at hfits hstops
  rw [hkept]
  cases hwritten : ((Sink.limited limit).take bytes).fits written.size with
  | true => exact ⟨i', by rw [hfits hwritten, stateOf_ended]⟩
  | false =>
    obtain ⟨i'', hstop⟩ := hstops hwritten
    exact ⟨i'', by rw [hstop]; rfl⟩

/-- An action in both sessions. -/
theorem Cut.run {α : Type} {limit nesting : Nat} {s s' : Session} {action : SessionM α}
    (h : Cut limit nesting s s') (haction : Fills nesting action) :
    Cut limit nesting (stateOf (action s)) (stateOf (action s')) ∧
      ((stateOf (action s)).out.bytes.size ≤ limit → answerOf (action s') = answerOf (action s)) ∧
      (s.out.bytes.size ≤ limit → limit < (stateOf (action s)).out.bytes.size →
        answerOf (action s') = .error .sinkFull) := by
  obtain @⟨i, i', bytes, hsame⟩ := h
  obtain ⟨result, j, written, hruns⟩ := haction i
  have hfree : action ⟨i, { bytes }, nesting⟩ =
      ended result ⟨j, { bytes := bytes ++ written }, nesting⟩ := (hruns { bytes }).1 rfl
  rw [hfree, stateOf_ended, answerOf_ended]
  by_cases hle : bytes.size ≤ limit
  · obtain rfl := hsame hle
    obtain ⟨hfits, hfull⟩ := hruns ((Sink.limited limit).take bytes)
    have hroom : ((Sink.limited limit).take bytes).fits written.size =
        decide ((bytes ++ written).size ≤ limit) := by
      have happend := (Sink.limited limit).fits_append bytes written
      rw [Sink.fits_limited, Sink.fits_limited, decide_eq_true hle, Bool.true_and] at happend
      exact happend.symm
    rw [hroom, ← Sink.take_append] at hfits hfull
    by_cases hall : (bytes ++ written).size ≤ limit
    · rw [hfits (decide_eq_true hall), stateOf_ended, answerOf_ended]
      exact ⟨.intro fun _ => rfl, fun _ => rfl, fun _ hmore => absurd hall (Nat.not_le_of_lt hmore)⟩
    · obtain ⟨k, hstop⟩ := hfull (decide_eq_false hall)
      rw [hstop]
      exact ⟨.intro fun h => absurd h hall, fun h => absurd h hall, fun _ _ => rfl⟩
  · have hmore : ¬ (bytes ++ written).size ≤ limit := by
      rw [ByteArray.size_append]
      omega
    refine ⟨?_, fun h => absurd h hmore, fun h => absurd h hle⟩
    obtain ⟨k, hk⟩ := haction.run_full (Nat.lt_of_not_le hle) i' written
    rw [hk]
    exact .intro fun h => absurd h hmore

/-- Steps one after the other, whatever becomes of each of them. -/
theorem Cut.replay {limit nesting : Nat} {s s' : Session} (h : Cut limit nesting s s')
    (files : Files) (steps : List Step) :
    Cut limit nesting (replay (Step.perform files) steps s).2
      (BraceLang.replay (Step.perform files) steps s').2 := by
  induction steps generalizing s s' with
  | nil => exact h
  | cons step steps ih => exact ih (h.run (fills_perform files nesting step)).1

theorem replay_concat (files : Files) (before : List Step) (step : Step) (s : Session) :
    (BraceLang.replay (Step.perform files) (before ++ [step]) s).2 =
      stateOf (step.perform files (BraceLang.replay (Step.perform files) before s).2) := by
  induction before generalizing s with
  | nil => rfl
  | cons first before ih => exact ih _

theorem cut_start (i : Interpreter) (limit nesting : Nat) :
    Cut limit nesting ⟨i, {}, nesting⟩ ⟨i, Sink.limited limit, nesting⟩ := by
  have hstart : Sink.limited limit = (Sink.limited limit).take .empty := (Sink.take_empty _).symm
  rw [hstart]
  exact .intro fun _ => rfl

/-- With room for so many bytes, a session writes the front of what it writes without a limit, over
all of its steps. A step whose output fits has the result that it has without a limit. The first one
whose output does not fit fails for that, whatever it was about to write, and at the nesting where
it began. -/
theorem output_cut (files : Files) (i : Interpreter) (nesting limit : Nat) :
    let unlimited := fun steps => (replay (Step.perform files) steps ⟨i, {}, nesting⟩).2
    let limited := fun steps =>
      (replay (Step.perform files) steps ⟨i, Sink.limited limit, nesting⟩).2
    (∀ steps, (limited steps).out.bytes =
      (unlimited steps).out.bytes.extract 0 (min limit (unlimited steps).out.bytes.size)) ∧
    ∀ before step,
      ((unlimited (before ++ [step])).out.bytes.size ≤ limit →
        answerOf (step.perform files (limited before)) =
          answerOf (step.perform files (unlimited before))) ∧
      ((unlimited before).out.bytes.size ≤ limit →
        limit < (unlimited (before ++ [step])).out.bytes.size →
        ∃ s, step.perform files (limited before) = .error .sinkFull s ∧ s.nesting = nesting) := by
  intro unlimited limited
  have hcut : ∀ steps, Cut limit nesting (unlimited steps) (limited steps) := fun steps =>
    (cut_start i limit nesting).replay files steps
  refine ⟨fun steps => (hcut steps).bytes_eq, fun before step => ?_⟩
  have hnext : unlimited (before ++ [step]) = stateOf (step.perform files (unlimited before)) :=
    replay_concat files before step _
  obtain ⟨hafter, hfits, hfull⟩ := (hcut before).run (fills_perform files nesting step)
  rw [hnext]
  refine ⟨hfits, fun hle hmore => ?_⟩
  have hanswer := hfull hle hmore
  have hnesting := hafter.nesting_right
  cases hrun : step.perform files (limited before) with
  | ok flow s =>
    rw [hrun] at hanswer
    cases hanswer
  | error e s =>
    rw [hrun] at hanswer hnesting
    cases hanswer
    exact ⟨s, rfl, hnesting⟩

/-- A file that is executed in another one asks for a third one. That this one cannot be read is
more than there is room for. -/
theorem output_cut_nested :
    let files : Files := fun path => if path = "a" then .ok "batch b" else .error .notFound
    let step : Step := .execute (.batch "a") 1
    ∃ s, step.perform files ⟨.new {}, Sink.limited 6, 0⟩ = .error .sinkFull s ∧ s.nesting = 0 ∧
      s.out.bytes = "Error:".toUTF8 := by
  intro files step
  have hcut := output_cut files (.new {}) 0 6
  obtain ⟨s, hrun, hnesting⟩ := (hcut.2 [] step).2 (by decide) (by decide +kernel)
  refine ⟨s, hrun, hnesting, ?_⟩
  have hbytes := hcut.1 [step]
  have hlast : (replay (Step.perform files) [step] ⟨.new {}, Sink.limited 6, 0⟩).2 = s :=
    congrArg stateOf hrun
  simp only [hlast] at hbytes
  rw [hbytes]
  decide +kernel

end Session

end BraceLang
