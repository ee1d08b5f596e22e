import ModbusRtu.Word

/-! Byte sequences as fields see them. A byte past the end reads as zero, and a slice past the end is cut
short, so that reading never fails. -/

namespace ModbusRtu

abbrev Bytes := List UInt8

namespace Bytes

def byte (bytes : Bytes) (index : Nat) : UInt8 := bytes.getD index 0

def word (bytes : Bytes) (index : Nat) : UInt16 := Word.join (bytes.byte index) (bytes.byte (index + 1))

def slice (bytes : Bytes) (start count : Nat) : Bytes := (bytes.drop start).take count

theorem byte_of_length_le {bytes : Bytes} {index : Nat} (h : bytes.length ≤ index) :
    bytes.byte index = 0 := by
  simp [byte, List.getD, List.getElem?_eq_none h]

theorem byte_append {bytes : Bytes} {index : Nat} (more : Bytes) (h : index < bytes.length) :
    byte (bytes ++ more) index = bytes.byte index := by
  simp [byte, List.getD, List.getElem?_append_left h]

theorem word_append {bytes : Bytes} {index : Nat} (more : Bytes) (h : index + 1 < bytes.length) :
    word (bytes ++ more) index = bytes.word index := by
  simp only [word]
  rw [byte_append more h, byte_append more (Nat.lt_of_succ_lt h)]

theorem slice_append {bytes : Bytes} {start count : Nat} (more : Bytes)
    (h : start + count ≤ bytes.length) : slice (bytes ++ more) start count = bytes.slice start count := by
  simp only [slice]
  rw [List.drop_append_of_le_length (by omega), List.take_append_of_le_length]
  simp only [List.length_drop]
  omega

theorem slice_two {bytes : Bytes} {start : Nat} (h : start + 1 < bytes.length) :
    bytes.slice start 2 = [bytes.byte start, bytes.byte (start + 1)] := by
  have h0 : start < bytes.length := Nat.lt_of_succ_lt h
  have two : bytes.drop start = bytes[start] :: bytes[start + 1] :: bytes.drop (start + 2) := by
    rw [List.drop_eq_getElem_cons h0, List.drop_eq_getElem_cons h]
  rw [slice, two]
  simp only [byte, List.getD, List.getElem?_eq_getElem h0, List.getElem?_eq_getElem h, Option.getD_some,
    List.take_succ_cons, List.take_zero]

end Bytes

end ModbusRtu
