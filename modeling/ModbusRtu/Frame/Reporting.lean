import ModbusRtu.Checksum
import ModbusRtu.Frame
import ModbusRtu.Outcome

/-! Reporting on a frame. A report that covers bytes runs from the first byte not covered yet to the last
byte of its field and moves the cursor past it. Whether it is due depends on that last byte alone: it
waits until the byte has arrived, and is settled once the byte is covered. -/

namespace ModbusRtu

inductive Progress
  /-- Everything asked for was reported before. -/
  | settled
  | reported
  /-- The next field ends beyond the bytes received so far. -/
  | waiting
deriving Repr, DecidableEq

namespace Frame

/-- Reports the bytes from the cursor to `last`. -/
def report (f : Frame) (last : Nat) (note : Note) : Outcome Frame Progress :=
  match f.bytes[f.covered]?, f.bytes[last]? with
  | some first, some final =>
    ⟨{ f with
        covered := last + 1
        hasError := f.hasError || note.isError
        errorRanges := if note.isError then f.errorRanges ++ [(f.covered, last)] else f.errorRanges },
      [⟨f.role, note, first.start, final.stop, some (f.covered, last)⟩],
      .ok .reported⟩
  | _, _ => .failed f .cursorOutside

/-- Reports a span that the cursor has no part in. -/
def reportBetween (f : Frame) (start stop : Time) (note : Note) : Outcome Frame Unit :=
  ⟨{ f with hasError := f.hasError || note.isError }, [⟨f.role, note, start, stop, none⟩], .ok ()⟩

def whenDue (f : Frame) (last : Nat) (act : Frame → Outcome Frame Progress) : Outcome Frame Progress :=
  if f.length ≤ last then .done f .waiting
  else if last < f.covered then .done f .settled
  else act f

def reportIfNew (f : Frame) (last : Nat) (note : Except Fault Note) : Outcome Frame Progress :=
  f.whenDue last fun f =>
    match note with
    | .ok note => f.report last note
    | .error fault => .failed f fault

/-- What the check sum that ends at `last` says of the bytes before it. -/
def trailerNote (f : Frame) (last : Nat) : Except Fault Note :=
  if last + 1 < Limits.minFrameLength then
    .error .shortChecksum
  else
    match f.slice? 0 (last + 1) with
    | some frame =>
      match Checksum.checkFrame frame with
      | .ok () => .ok .checksumCorrect
      | .error (.checksum expected _) => .ok (.checksumExpected expected)
      | .error _ => .error .malformedChecksum
    | none => .error .cursorOutside

def checkTrailer (f : Frame) (last : Nat) : Outcome Frame Progress :=
  (f.require (last + 1)).reportIfNew last (f.trailerNote last)

end Frame

end ModbusRtu
