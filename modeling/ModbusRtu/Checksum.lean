import ModbusRtu.Bytes
import ModbusRtu.Protocol.Limits
import ModbusRtu.Protocol.WireError

/-! The check sum of a frame: a 16-bit cyclic code, low bit first, over the polynomial 0xA001. The rule is
`bitwise`: each byte is added to the register, which is then shifted out eight times. `crc` looks eight
shifts up at once in `table`, whose entries come from the same shift. A frame carries the check sum of
all before it in its last two bytes, low byte first. -/

namespace ModbusRtu.Checksum

def shift (r : UInt16) : UInt16 := if r &&& 1 = 1 then (r >>> 1) ^^^ 0xA001 else r >>> 1

def shifts : Nat → UInt16 → UInt16
  | 0, r => r
  | n + 1, r => shifts n (shift r)

def bitwiseStep (r : UInt16) (b : UInt8) : UInt16 := shifts 8 (r ^^^ b.toUInt16)

def bitwise (bytes : Bytes) : UInt16 := bytes.foldl bitwiseStep 0xFFFF

def table : Vector UInt16 256 := Vector.ofFn fun i => shifts 8 i.val.toUInt16

def step (r : UInt16) (b : UInt8) : UInt16 := (r >>> 8) ^^^ table.get (r.toUInt8 ^^^ b).toFin

def crc (bytes : Bytes) : UInt16 := bytes.foldl step 0xFFFF

/-- The two bytes that follow `bytes` on the line. -/
def trailer (bytes : Bytes) : Bytes := [Word.lowByte (crc bytes), Word.highByte (crc bytes)]

/-- Accepts a complete frame whose last two bytes are the check sum of the others. -/
def checkFrame (frame : Bytes) : Except WireError Unit :=
  if frame.length < Limits.minFrameLength then
    .error .length
  else
    let split := frame.length - 2
    let expected := crc (frame.take split)
    let actual := Word.join (frame.byte (split + 1)) (frame.byte split)
    if expected = actual then .ok () else .error (.checksum expected actual)

theorem crc_append (a b : Bytes) : crc (a ++ b) = b.foldl step (crc a) := by
  simp [crc, List.foldl_append]

/-- The last two bytes of a frame are compared with what should follow the others on the line. -/
theorem checkFrame_eq {frame : Bytes} {split : Nat} (h : 2 ≤ split) (hl : frame.length = split + 2) :
    checkFrame frame =
      if frame.slice split 2 = trailer (frame.take split) then .ok ()
      else .error (.checksum (crc (frame.take split))
        (Word.join (frame.byte (split + 1)) (frame.byte split))) := by
  have hm : ¬ frame.length < Limits.minFrameLength := by
    simp only [Limits.minFrameLength]
    omega
  have hs : frame.length - 2 = split := by omega
  simp only [checkFrame, hm, if_false, hs]
  rw [Bytes.slice_two (by omega), trailer]
  simp only [Word.eq_join_iff, List.cons.injEq, and_true]

/-- The same for the first bytes of a longer run. -/
theorem checkFrame_take {bytes : Bytes} {split : Nat} (h : 2 ≤ split) (hl : split + 2 ≤ bytes.length) :
    ∃ actual, checkFrame (bytes.take (split + 2)) =
      if bytes.slice split 2 = trailer (bytes.take split) then .ok ()
      else .error (.checksum (crc (bytes.take split)) actual) := by
  have hlen : (bytes.take (split + 2)).length = split + 2 := by
    rw [List.length_take, Nat.min_eq_left hl]
  have hslice : Bytes.slice (bytes.take (split + 2)) split 2 = bytes.slice split 2 := by
    simp only [Bytes.slice, List.drop_take, List.take_take]
    congr 1
    omega
  have htake : (bytes.take (split + 2)).take split = bytes.take split := by
    rw [List.take_take, Nat.min_eq_left (by omega)]
  have hcheck := checkFrame_eq h hlen
  rw [hslice, htake] at hcheck
  exact ⟨_, hcheck⟩

end ModbusRtu.Checksum
