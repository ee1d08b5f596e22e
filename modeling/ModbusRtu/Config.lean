import ModbusRtu.Protocol.Limits
import ModbusRtu.Time

/-! Settings of the decoder. Silence and margins are given in bit times and become times once the bit time
is known. A margin is never longer than the silence that ends a frame, so that what it adds to one frame
does not reach the next. -/

namespace ModbusRtu

/-- The physical line that a byte was captured on. -/
inductive Line
  | rx
  | tx
deriving Repr, DecidableEq

structure Config where
  requestLine : Line := .tx
  responseLine : Line := .rx
  /-- Bit times of silence that a frame can bear. Frames are 3.5 characters apart and their bytes at most
  1.5; the middle is about 28 bits. -/
  frameGapBits : UInt64 := 28
  closeMarginBits : UInt64 := 28
  diagnosticsLength : Nat := 2
  markErrorFrames : Bool := false
deriving Repr, DecidableEq

inductive ConfigError
  | frameGap
  | closeMargin
  | diagnosticsLength
deriving Repr, DecidableEq

def ConfigError.cause : ConfigError → String
  | frameGap => "frame gap must be at least one bit time"
  | closeMargin => "close margin must be at least one bit time"
  | diagnosticsLength => "diagnostics data field does not fit in a frame"

def ConfigError.message (e : ConfigError) : String := "invalid configuration: " ++ e.cause

namespace Config

/-- Diagnostics data shares a frame with the server id, the function, the subfunction and the check sum. -/
def maxDiagnosticsLength : Nat := Limits.maxFrameLength - 6

def validate (c : Config) : Except ConfigError Unit :=
  if c.frameGapBits = 0 then .error .frameGap
  else if c.closeMarginBits = 0 then .error .closeMargin
  else if maxDiagnosticsLength < c.diagnosticsLength then .error .diagnosticsLength
  else .ok ()

def sharesLine (c : Config) : Bool := c.requestLine = c.responseLine

/-- On a shared line every frame is also read in the wrong direction, where it is seldom in order. -/
def marksErrors (c : Config) : Bool := c.markErrorFrames && !c.sharesLine

def silence (c : Config) (bitTime : Time) : Time := bitTime.times c.frameGapBits

def closeMargin (c : Config) (bitTime : Time) : Time :=
  bitTime.times (if c.closeMarginBits ≤ c.frameGapBits then c.closeMarginBits else c.frameGapBits)

end Config

end ModbusRtu
