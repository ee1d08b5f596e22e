import ModbusRtu.Bytes
import ModbusRtu.Note

/-! One frame under construction: the bytes received so far in one direction, and how far they have been
reported. `covered` counts the bytes that belong to a report, which are always the first ones; the next
report begins there. The length that the frame is known to need only grows. -/

namespace ModbusRtu

structure Byte where
  value : UInt8
  start : Time
  stop : Time
deriving Repr, DecidableEq

structure Frame where
  role : Role
  bytes : List Byte
  minimumLength : Nat
  covered : Nat
  start : Time
  lastRead : Time
  hasError : Bool
  /-- First and last index of the bytes of each error report that covers bytes. -/
  errorRanges : List (Nat × Nat)
deriving Repr, DecidableEq

namespace Frame

def opened (role : Role) (start : Time) : Frame where
  role := role
  bytes := []
  minimumLength := Limits.minFrameLength
  covered := 0
  start := start
  lastRead := start
  hasError := false
  errorRanges := []

def length (f : Frame) : Nat := f.bytes.length

def values (f : Frame) : Bytes := f.bytes.map Byte.value

def lastCovered? (f : Frame) : Option Nat := if f.covered = 0 then none else some (f.covered - 1)

def errorCovers (f : Frame) (index : Nat) : Bool :=
  f.errorRanges.any fun range => range.1 ≤ index && index ≤ range.2

def value? (f : Frame) (index : Nat) : Option UInt8 := (f.bytes[index]?).map Byte.value

def word? (f : Frame) (index : Nat) : Option UInt16 :=
  match f.value? index, f.value? (index + 1) with
  | some high, some low => some (Word.join high low)
  | _, _ => none

def slice? (f : Frame) (start count : Nat) : Option Bytes :=
  if start + count ≤ f.length then some (f.values.slice start count) else none

def append (f : Frame) (b : Byte) : Frame :=
  { f with bytes := f.bytes ++ [b], lastRead := f.lastRead.later b.stop }

def require (f : Frame) (length : Nat) : Frame :=
  { f with minimumLength := max f.minimumLength length }

theorem length_append (f : Frame) (b : Byte) : (f.append b).length = f.length + 1 := by
  simp [length, append]

theorem length_values (f : Frame) : f.values.length = f.length := by
  simp [values, length]

theorem value?_eq_some_byte {f : Frame} {index : Nat} (h : index < f.length) :
    f.value? index = some (f.values.byte index) := by
  simp only [length] at h
  simp [value?, values, Bytes.byte, List.getD, h]

theorem byte_of_getElem? {f : Frame} {index : Nat} {b : Byte} (h : f.bytes[index]? = some b) :
    f.values.byte index = b.value := by
  simp [values, Bytes.byte, List.getD, h]

end Frame

end ModbusRtu
