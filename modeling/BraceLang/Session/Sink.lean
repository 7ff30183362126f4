/-!
# Sinks

The output of a session goes to a sink, which takes bytes as long as it has room. Of a text
that does not fit it takes as many bytes as it can, and the writing fails.

* `Sink.write_fits`: a text that fits is taken whole.
* `Sink.room_write`: a limited sink never takes more than its room.
-/

namespace BraceLang

/-- The bytes that were taken, and how many more can be, if that is limited. -/
structure Sink where
  bytes : ByteArray := .empty
  room? : Option Nat := none

namespace Sink

/-- Whether a number of bytes can be taken. -/
def fits (sink : Sink) (count : Nat) : Bool :=
  match sink.room? with
  | none => true
  | some room => count ≤ room

/-- Take bytes up to the room that there is. -/
def take (sink : Sink) (bytes : ByteArray) : Sink :=
  match sink.room? with
  | none => { sink with bytes := sink.bytes ++ bytes }
  | some room =>
    { bytes := sink.bytes ++ bytes.extract 0 room, room? := some (room - bytes.size) }

/-- Take a text, and say whether it was taken whole. -/
def write (sink : Sink) (text : String) : Bool × Sink :=
  let bytes := text.toUTF8
  (sink.fits bytes.size, sink.take bytes)

theorem extract_of_size_le {bytes : ByteArray} {room : Nat} (h : bytes.size ≤ room) :
    bytes.extract 0 room = bytes := by
  apply ByteArray.ext
  rw [ByteArray.data_extract]
  exact Array.extract_eq_self_of_le h

theorem write_fits {sink : Sink} {text : String} (h : sink.fits text.toUTF8.size = true) :
    (sink.write text).1 = true ∧ (sink.write text).2.bytes = sink.bytes ++ text.toUTF8 := by
  refine ⟨h, ?_⟩
  unfold fits at h
  unfold write take
  cases hr : sink.room? with
  | none => rfl
  | some room =>
    rw [hr] at h
    exact congrArg (sink.bytes ++ ·) (extract_of_size_le (of_decide_eq_true h))

theorem room_write {sink : Sink} {room : Nat} (h : sink.room? = some room) (text : String) :
    (sink.write text).2.room? = some (room - text.toUTF8.size) := by
  simp [write, take, h]

end Sink

end BraceLang
