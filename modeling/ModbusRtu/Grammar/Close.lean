import ModbusRtu.Grammar

/-! The end of a frame. What no field report could say is said now: that the function is unknown, that the
frame is too large, that it ended too early or went on too long. Then the frame may be marked as a whole
if anything was wrong with it. An empty frame ends silently. -/

namespace ModbusRtu

structure CloseOptions where
  /-- How far past the last byte a report on missing bytes reaches. -/
  margin : Time
  markErrors : Bool
deriving Repr, DecidableEq

namespace Frame

def byteAt (f : Frame) (index : Nat) : Except Fault Byte :=
  match f.bytes[index]? with
  | some b => .ok b
  | none => .error .cursorOutside

/-- Reports a span whose ends may lie outside the frame. -/
def reportWithin (f : Frame) (times : Except Fault (Time × Time)) (note : Note) : Outcome Frame Unit :=
  match times with
  | .ok (start, stop) => f.reportBetween start stop note
  | .error fault => .failed f fault

def lastIndex (f : Frame) : Nat := f.length - 1

def reportUnknown (f : Frame) (recognizes : UInt8 → Bool) : Outcome Frame Unit :=
  match f.value? 1 with
  | some code =>
    if Limits.minFrameLength ≤ f.length ∧ recognizes code = false then
      (f.reportIfNew f.lastIndex (.ok (.unknownFunction code))).andThen fun f _ => .done f ()
    else .done f ()
  | none => .done f ()

/-- Where to say that the frame is too large once all its bytes are covered: at the byte that crosses the
limit, or after the frame if an error has that byte already. -/
def oversizedTimes (f : Frame) (margin : Time) : Except Fault (Time × Time) :=
  if f.errorCovers Limits.maxFrameLength then
    (f.byteAt f.lastIndex).map fun final => (final.stop, f.lastRead.plus margin)
  else
    (f.byteAt Limits.maxFrameLength).map fun crossing => (crossing.start, crossing.stop)

def reportOversized (f : Frame) (margin : Time) : Outcome Frame Unit :=
  if Limits.maxFrameLength < f.length then
    (f.reportIfNew f.lastIndex (.ok .oversized)).andThen fun f progress =>
      match progress with
      | .settled => f.reportWithin (f.oversizedTimes margin) .oversized
      | _ => .done f ()
  else .done f ()

def tooShortTimes (f : Frame) (margin : Time) : Except Fault (Time × Time) :=
  match f.lastCovered? with
  | some index => (f.byteAt index).map fun final => (final.stop, f.lastRead.plus margin)
  | none => .ok (f.start, f.lastRead.plus margin)

/-- A frame over the limit is never too short as well. -/
def reportLength (f : Frame) (parsed : Progress) (margin : Time) : Outcome Frame Unit :=
  if f.length ≤ Limits.maxFrameLength ∧ f.length < f.minimumLength then
    f.reportWithin (f.tooShortTimes margin) .tooShort
  else if parsed = .settled then
    (f.reportIfNew f.lastIndex (.ok .tooLong)).andThen fun f _ => .done f ()
  else .done f ()

def wholeTimes (f : Frame) : Except Fault (Time × Time) :=
  match f.byteAt 0, f.byteAt f.lastIndex with
  | .ok first, .ok final => .ok (first.start, final.stop)
  | .error fault, _ => .error fault
  | _, .error fault => .error fault

def markErrors (f : Frame) (wanted : Bool) : Outcome Frame Unit :=
  if wanted && f.hasError then f.reportWithin f.wholeTimes .frameWithError else .done f ()

end Frame

namespace Grammar

def close (g : Grammar) (options : CloseOptions) (f : Frame) : Outcome Frame Unit :=
  (g.parse f).andThen fun f parsed =>
    if f.bytes.isEmpty then
      .done f ()
    else
      (f.reportUnknown g.recognizes).andThen fun f _ =>
        (f.reportOversized options.margin).andThen fun f _ =>
          (f.reportLength parsed options.margin).andThen fun f _ =>
            f.markErrors options.markErrors

end Grammar

end ModbusRtu
