/-! Words on the line. Fields are big-endian, high byte first; only the check sum is sent low byte first. -/

namespace ModbusRtu.Word

def join (high low : UInt8) : UInt16 := (high.toUInt16 <<< 8) ||| low.toUInt16

def highByte (w : UInt16) : UInt8 := (w >>> 8).toUInt8

def lowByte (w : UInt16) : UInt8 := w.toUInt8

theorem toNat_join (high low : UInt8) : (join high low).toNat = 256 * high.toNat + low.toNat := by
  have hh := UInt8.toNat_lt high
  have hl := UInt8.toNat_lt low
  have shifted : high.toNat <<< 8 % 2 ^ 16 = 2 ^ 8 * high.toNat := by
    rw [Nat.shiftLeft_eq, Nat.mod_eq_of_lt (by omega), Nat.mul_comm]
  simp only [join, UInt16.toNat_or, UInt16.toNat_shiftLeft, UInt8.toNat_toUInt16]
  rw [show (8 : UInt16).toNat % 16 = 8 from rfl, shifted, ← Nat.two_pow_add_eq_or_of_lt hl]

theorem highByte_join (high low : UInt8) : highByte (join high low) = high := by
  have hl := UInt8.toNat_lt low
  have hh := UInt8.toNat_lt high
  apply UInt8.toNat_inj.1
  simp only [highByte, UInt16.toNat_toUInt8, UInt16.toNat_shiftRight, toNat_join]
  rw [show (8 : UInt16).toNat % 16 = 8 from rfl, Nat.shiftRight_eq_div_pow]
  omega

theorem lowByte_join (high low : UInt8) : lowByte (join high low) = low := by
  have hl := UInt8.toNat_lt low
  apply UInt8.toNat_inj.1
  simp only [lowByte, UInt16.toNat_toUInt8, toNat_join]
  omega

theorem join_highByte_lowByte (w : UInt16) : join (highByte w) (lowByte w) = w := by
  have hw := UInt16.toNat_lt w
  apply UInt16.toNat_inj.1
  simp only [toNat_join, highByte, lowByte, UInt16.toNat_toUInt8, UInt16.toNat_shiftRight]
  rw [show (8 : UInt16).toNat % 16 = 8 from rfl, Nat.shiftRight_eq_div_pow]
  omega

theorem eq_join_iff {w : UInt16} {high low : UInt8} :
    w = join high low ↔ low = lowByte w ∧ high = highByte w := by
  constructor
  · rintro rfl
    exact ⟨(lowByte_join high low).symm, (highByte_join high low).symm⟩
  · rintro ⟨rfl, rfl⟩
    exact (join_highByte_lowByte w).symm

end ModbusRtu.Word
