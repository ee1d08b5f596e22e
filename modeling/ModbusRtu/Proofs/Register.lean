import ModbusRtu.Checksum
import ModbusRtu.Proofs.Bits

/-! The register of the check sum, one bit at a time. A shift is linear in exclusive or and loses nothing, and
the table is eight shifts at once, so looking up gives every check sum that the rule gives. The bits of a
frame, its check sum included, bring the register down to zero exactly if the frame is in order, and two
frames in order differ by bits that leave a clear register clear. -/

namespace ModbusRtu.Checksum

open Bytes

theorem and_one_eq_one_iff {r : UInt16} : r &&& 1 = 1 ↔ r.toNat.testBit 0 = true := by
  rw [← UInt16.toNat_inj, UInt16.toNat_and, Nat.testBit_zero, decide_eq_true_eq]
  show r.toNat &&& 1 = 1 ↔ _
  rw [Nat.and_one_is_mod]

theorem shift_eq (r : UInt16) : shift r = (r >>> 1) ^^^ (if r.toNat.testBit 0 then 0xA001 else 0) := by
  unfold shift
  by_cases h : r &&& 1 = 1
  · rw [if_pos h, if_pos (and_one_eq_one_iff.mp h)]
  · rw [if_neg h, if_neg fun low => h (and_one_eq_one_iff.mpr low), UInt16.xor_zero]

theorem shift_xor (a b : UInt16) : shift (a ^^^ b) = shift a ^^^ shift b := by
  have taps (x y : Bool) : (if x ^^ y then 0xA001 else 0 : UInt16) =
      (if x then 0xA001 else 0) ^^^ (if y then 0xA001 else 0) := by
    cases x <;> cases y <;> rfl
  simp only [shift_eq, UInt16.toNat_xor, Nat.testBit_xor, UInt16.shiftRight_xor, taps]
  ac_rfl

theorem shifts_xor (n : Nat) (a b : UInt16) : shifts n (a ^^^ b) = shifts n a ^^^ shifts n b := by
  induction n generalizing a b with
  | zero => rfl
  | succ n ih => rw [shifts, shift_xor, ih, shifts, shifts]

theorem toNat_shiftRight_one (r : UInt16) : (r >>> 1).toNat = r.toNat / 2 := by
  rw [UInt16.toNat_shiftRight]
  exact Nat.shiftRight_eq_div_pow r.toNat 1

/-- A shift loses nothing: the bit that falls out shows at the top. -/
theorem shift_eq_zero {r : UInt16} (h : shift r = 0) : r = 0 := by
  have hr := UInt16.toNat_lt r
  rw [shift_eq, UInt16.xor_eq_zero_iff, ← UInt16.toNat_inj, toNat_shiftRight_one] at h
  cases low : r.toNat.testBit 0 with
  | true =>
    rw [low, if_pos rfl] at h
    have top : (0xA001 : UInt16).toNat = 0xA001 := rfl
    omega
  | false =>
    rw [low, if_neg (by decide)] at h
    rw [Nat.testBit_zero, decide_eq_false_iff_not] at low
    apply UInt16.toNat_inj.mp
    have zero : (0 : UInt16).toNat = 0 := rfl
    omega

theorem shifts_eq_zero {n : Nat} {r : UInt16} (h : shifts n r = 0) : r = 0 := by
  induction n generalizing r with
  | zero => exact h
  | succ n ih => exact shift_eq_zero (ih h)

theorem shifts_zero (n : Nat) : shifts n 0 = 0 := by
  induction n with
  | zero => rfl
  | succ n ih => exact ih

theorem shifts_inj {n : Nat} {a b : UInt16} (h : shifts n a = shifts n b) : a = b := by
  apply UInt16.xor_eq_zero_iff.mp
  apply shifts_eq_zero (n := n)
  rw [shifts_xor, h, UInt16.xor_self]

/-- A register whose lowest `n` bits are clear only moves down. -/
theorem shifts_of_clear {n : Nat} {r w : UInt16} (h : r.toNat = 2 ^ n * w.toNat) : shifts n r = w := by
  induction n generalizing r with
  | zero => exact UInt16.toNat_inj.mp (h.trans (Nat.one_mul _))
  | succ n ih =>
    have double : r.toNat = 2 * (2 ^ n * w.toNat) := by rw [h, Nat.pow_succ', Nat.mul_assoc]
    have clear : r.toNat.testBit 0 = false := by
      rw [Nat.testBit_zero, decide_eq_false_iff_not]
      omega
    refine ih ?_
    rw [shift_eq, clear, if_neg (by decide), UInt16.xor_zero, toNat_shiftRight_one]
    omega

/-! The table. -/

theorem get_table (i : UInt8) : table.get i.toFin = shifts 8 i.toUInt16 := by
  have hi : i.toNat < UInt16.size := Nat.lt_trans i.toNat_lt (by decide)
  have word : i.toNat.toUInt16 = i.toUInt16 :=
    UInt16.toNat_inj.mp ((UInt16.toNat_ofNat_of_lt' hi).trans (UInt8.toNat_toUInt16 i).symm)
  exact (Vector.getElem_ofFn i.toNat_lt).trans (congrArg (shifts 8) word)

theorem eq_xor_bytes (r : UInt16) : r = ((r >>> 8) <<< 8) ^^^ r.toUInt8.toUInt16 := by
  apply UInt16.toNat_inj.mp
  apply Nat.eq_of_testBit_eq
  intro i
  rw [UInt16.toNat_xor, UInt16.toNat_shiftLeft, UInt16.toNat_shiftRight, UInt8.toNat_toUInt16,
    UInt16.toNat_toUInt8, show (8 : UInt16).toNat % 16 = 8 from rfl, Nat.testBit_xor,
    Nat.testBit_mod_two_pow, Nat.testBit_mod_two_pow, Nat.testBit_shiftLeft, Nat.testBit_shiftRight]
  by_cases low : i < 8
  · have hi : ¬ 8 ≤ i := Nat.not_le.mpr low
    simp [low, hi]
  · have hi : 8 + (i - 8) = i := Nat.add_sub_cancel' (Nat.not_lt.mp low)
    by_cases high : i < 16
    · simp [low, high, hi, Nat.not_lt.mp low]
    · have beyond : r.toNat.testBit i = false := Nat.testBit_lt_two_pow
        (Nat.lt_of_lt_of_le r.toNat_lt (Nat.pow_le_pow_right (by decide) (Nat.not_lt.mp high)))
      simp [low, high, beyond]

/-- Eight shifts of a register: its low byte is looked up, its high byte only moves down. -/
theorem shifts_eight (r : UInt16) : shifts 8 r = (r >>> 8) ^^^ table.get r.toUInt8.toFin := by
  have high : shifts 8 ((r >>> 8) <<< 8) = r >>> 8 := by
    refine shifts_of_clear ?_
    have hr := UInt16.toNat_lt r
    rw [UInt16.toNat_shiftLeft, UInt16.toNat_shiftRight, show (8 : UInt16).toNat % 16 = 8 from rfl,
      Nat.shiftLeft_eq, Nat.shiftRight_eq_div_pow]
    omega
  calc shifts 8 r
      = shifts 8 (((r >>> 8) <<< 8) ^^^ r.toUInt8.toUInt16) := by rw [← eq_xor_bytes]
    _ = (r >>> 8) ^^^ table.get r.toUInt8.toFin := by rw [shifts_xor, high, get_table]

theorem toUInt16_shiftRight_eight (b : UInt8) : b.toUInt16 >>> 8 = 0 := by
  apply UInt16.toNat_inj.mp
  rw [UInt16.toNat_shiftRight, UInt8.toNat_toUInt16]
  exact (Nat.shiftRight_eq_div_pow _ _).trans (Nat.div_eq_of_lt b.toNat_lt)

theorem step_eq_bitwiseStep (r : UInt16) (b : UInt8) : step r b = bitwiseStep r b := by
  have high : (r ^^^ b.toUInt16) >>> 8 = r >>> 8 := by
    rw [UInt16.shiftRight_xor, toUInt16_shiftRight_eight, UInt16.xor_zero]
  have low : (r ^^^ b.toUInt16).toUInt8 = r.toUInt8 ^^^ b := by
    rw [UInt16.toUInt8_xor, UInt8.toUInt8_toUInt16]
  rw [bitwiseStep, shifts_eight, high, low, step]

/-- From any register on, looking eight shifts up at once comes out where the rule does. -/
theorem foldl_step_eq_bitwise (bytes : Bytes) (r : UInt16) :
    bytes.foldl step r = bytes.foldl bitwiseStep r := by
  induction bytes generalizing r with
  | nil => rfl
  | cons b rest ih => rw [List.foldl_cons, List.foldl_cons, step_eq_bitwiseStep, ih]

/-- The check sum of any bytes is the one that the rule gives them, bit by bit. -/
theorem crc_eq_bitwise (bytes : Bytes) : crc bytes = bitwise bytes :=
  foldl_step_eq_bitwise bytes 0xFFFF

/-- A request for ten registers from address 0 on. -/
example : bitwise [0x01, 0x03, 0x00, 0x00, 0x00, 0x0A] = 0xCDC5 := by decide +kernel

/-! Bits on the line. -/

/-- One bit on the line. -/
def feed (r : UInt16) (b : Bool) : UInt16 := shift (r ^^^ b.toUInt16)

/-- Bits as they stand in a register, the first one lowest. -/
def word : List Bool → UInt16
  | [] => 0
  | b :: rest => (word rest <<< 1) ^^^ b.toUInt16

theorem toNat_double {w : UInt16} (h : w.toNat < 2 ^ 15) : (w <<< 1).toNat = 2 * w.toNat := by
  rw [UInt16.toNat_shiftLeft, show (1 : UInt16).toNat % 16 = 1 from rfl, Nat.shiftLeft_eq]
  omega

theorem toNat_word_lt {bits : List Bool} (h : bits.length ≤ 16) : (word bits).toNat < 2 ^ bits.length := by
  induction bits with
  | nil => exact Nat.one_pos
  | cons b rest ih =>
    have hl : rest.length ≤ 15 := Nat.le_of_succ_le_succ h
    have hw := ih (Nat.le_succ_of_le hl)
    have small := Nat.lt_of_lt_of_le hw (Nat.pow_le_pow_right (by decide) hl)
    have hb : b.toUInt16.toNat < 2 ^ (rest.length + 1) :=
      Nat.lt_of_le_of_lt (by cases b <;> decide) (Nat.one_lt_two_pow (Nat.succ_ne_zero _))
    rw [word, UInt16.toNat_xor, List.length_cons]
    refine Nat.xor_lt_two_pow ?_ hb
    rw [toNat_double small, Nat.pow_succ']
    omega

/-- Up to sixteen bits on the line are as many shifts of the register with all of them in it. -/
theorem foldl_feed {bits : List Bool} (h : bits.length ≤ 16) (r : UInt16) :
    bits.foldl feed r = shifts bits.length (r ^^^ word bits) := by
  induction bits generalizing r with
  | nil => rw [word, UInt16.xor_zero]; rfl
  | cons b rest ih =>
    have hl : rest.length ≤ 15 := Nat.le_of_succ_le_succ h
    have small : (word rest).toNat < 2 ^ 15 :=
      Nat.lt_of_lt_of_le (toNat_word_lt (Nat.le_succ_of_le hl)) (Nat.pow_le_pow_right (by decide) hl)
    have down : shift (word rest <<< 1) = word rest := shifts_of_clear (n := 1) (toNat_double small)
    rw [List.foldl_cons, ih (Nat.le_succ_of_le hl), List.length_cons, shifts, word, feed]
    congr 1
    rw [UInt16.xor_comm (word rest <<< 1), ← UInt16.xor_assoc, shift_xor _ (word rest <<< 1), down]

theorem foldl_feed_clear {bits : List Bool} (h : true ∉ bits) (r : UInt16) :
    bits.foldl feed r = shifts bits.length r := by
  induction bits generalizing r with
  | nil => rfl
  | cons b rest ih =>
    obtain ⟨hb, clear⟩ := not_or.mp fun set => h (List.mem_cons.mpr set)
    obtain rfl : b = false := Bool.eq_false_iff.mpr fun set => hb set.symm
    rw [List.foldl_cons, ih clear, feed, show false.toUInt16 = 0 from rfl, UInt16.xor_zero]
    rfl

theorem feed_xor (r s : UInt16) (x y : Bool) : feed (r ^^^ s) (x ^^ y) = feed r x ^^^ feed s y := by
  have sum : (x ^^ y).toUInt16 = x.toUInt16 ^^^ y.toUInt16 := by
    cases x <;> cases y <;> rfl
  rw [feed, feed, feed, ← shift_xor, sum]
  congr 1
  ac_rfl

theorem foldl_feed_xor (f g : Nat → Bool) (places : List Nat) (r s : UInt16) :
    (places.map fun k => f k ^^ g k).foldl feed (r ^^^ s) =
      (places.map f).foldl feed r ^^^ (places.map g).foldl feed s := by
  induction places generalizing r s with
  | nil => rfl
  | cons k rest ih => rw [List.map_cons, List.foldl_cons, feed_xor, ih]; rfl

theorem word_bitsOf (b : UInt8) : word (bitsOf b) = b.toUInt16 := by
  have bytes : ∀ i : Fin 256, word (bitsOf (.ofFin i)) = (UInt8.ofFin i).toUInt16 := by decide +kernel
  exact bytes b.toFin

theorem foldl_step (bytes : Bytes) (r : UInt16) :
    bytes.foldl step r = ((List.range (8 * bytes.length)).map bytes.bit).foldl feed r := by
  have one : step = fun r b => (bitsOf b).foldl feed r := by
    funext r b
    have hl : (bitsOf b).length = 8 := rfl
    rw [step_eq_bitwiseStep, bitwiseStep, foldl_feed (hl ▸ by decide), hl, word_bitsOf]
  rw [← flatMap_bitsOf, List.foldl_flatMap, one]

/-! Frames. -/

theorem step_inj {r s : UInt16} {b : UInt8} (h : step r b = step s b) : r = s := by
  rw [step_eq_bitwiseStep, step_eq_bitwiseStep] at h
  exact (UInt16.xor_left_inj _).mp (shifts_inj h)

/-- A check sum on the line takes itself out of the register again. -/
theorem step_step_join (high low : UInt8) : step (step (Word.join high low) low) high = 0 := by
  have down (r : UInt16) (b : UInt8) (h : r.toUInt8 = b) : step r b = r >>> 8 := by
    rw [step, h, UInt8.xor_self, get_table]
    exact UInt16.xor_zero
  have upper : Word.join high low >>> 8 = high.toUInt16 := by
    have hl := UInt8.toNat_lt low
    apply UInt16.toNat_inj.mp
    rw [UInt16.toNat_shiftRight, Word.toNat_join, UInt8.toNat_toUInt16,
      show (8 : UInt16).toNat % 16 = 8 from rfl, Nat.shiftRight_eq_div_pow]
    omega
  rw [down _ low (Word.lowByte_join high low), upper, down _ high (UInt8.toUInt8_toUInt16 high),
    toUInt16_shiftRight_eight]

/-- Two bytes clear the register if they are those in it, the low one first, and no others do. -/
theorem step_step_eq_zero_iff {r : UInt16} {low high : UInt8} :
    step (step r low) high = 0 ↔ low = Word.lowByte r ∧ high = Word.highByte r := by
  rw [← Word.eq_join_iff]
  constructor
  · intro cleared
    exact step_inj (step_inj (cleared.trans (step_step_join high low).symm))
  · rintro rfl
    exact step_step_join high low

theorem crc_concat_eq_zero_iff {front : Bytes} {low high : UInt8} :
    crc (front ++ [low, high]) = 0 ↔ [low, high] = trailer front := by
  rw [crc_append, List.foldl_cons, List.foldl_cons, List.foldl_nil, step_step_eq_zero_iff, trailer]
  simp only [List.cons.injEq, and_true]

theorem checkFrame_concat_iff {front : Bytes} {low high : UInt8} (h : 2 ≤ front.length) :
    checkFrame (front ++ [low, high]) = .ok () ↔ [low, high] = trailer front := by
  have last : slice (front ++ [low, high]) front.length 2 = [low, high] := by
    rw [slice, List.drop_left, List.take_of_length_le (Nat.le_refl 2)]
  rw [checkFrame_eq h List.length_append, last, List.take_left]
  constructor
  · intro ok
    split at ok
    · assumption
    · cases ok
  · exact fun same => if_pos same

theorem exists_split {frame : Bytes} (h : Limits.minFrameLength ≤ frame.length) :
    ∃ split, 2 ≤ split ∧ frame.length = split + 2 := by
  have h4 : 4 ≤ frame.length := h
  exact ⟨frame.length - 2, by omega, by omega⟩

theorem exists_concat {frame : Bytes} (h : Limits.minFrameLength ≤ frame.length) :
    ∃ front low high, 2 ≤ front.length ∧ frame = front ++ [low, high] := by
  obtain ⟨split, h2, hl⟩ := exists_split h
  have rest : frame.drop split = [frame.byte split, frame.byte (split + 1)] := by
    rw [← slice_two (hl ▸ Nat.lt_succ_self _), slice]
    exact (List.take_of_length_le (by rw [List.length_drop, hl]; omega)).symm
  refine ⟨frame.take split, frame.byte split, frame.byte (split + 1), ?_, ?_⟩
  · rw [List.length_take, hl, Nat.min_eq_left (Nat.le_add_right _ _)]
    exact h2
  · rw [← rest, List.take_append_drop]

/-- A frame is in order exactly if its bytes, the check sum included, clear the register. -/
theorem checkFrame_eq_ok_iff {frame : Bytes} (h : Limits.minFrameLength ≤ frame.length) :
    checkFrame frame = .ok () ↔ crc frame = 0 := by
  obtain ⟨front, low, high, h2, rfl⟩ := exists_concat h
  rw [checkFrame_concat_iff h2, crc_concat_eq_zero_iff]

/-- The frame carries a wrong check sum. -/
def Mismatch (frame : Bytes) : Prop := ∃ expected actual, checkFrame frame = .error (.checksum expected actual)

theorem mismatch_of_ne {frame : Bytes} (h : Limits.minFrameLength ≤ frame.length)
    (hn : checkFrame frame ≠ .ok ()) : Mismatch frame := by
  obtain ⟨split, h2, hl⟩ := exists_split h
  rw [checkFrame_eq h2 hl] at hn
  rw [Mismatch, checkFrame_eq h2 hl]
  split at hn
  · exact absurd rfl hn
  · rename_i differ
    exact ⟨_, _, if_neg differ⟩

theorem minFrameLength_le_of_ok {frame : Bytes} (h : checkFrame frame = .ok ()) :
    Limits.minFrameLength ≤ frame.length := by
  by_cases short : frame.length < Limits.minFrameLength
  · rw [checkFrame, if_pos short] at h
    cases h
  · exact Nat.not_lt.mp short

/-- A frame is in order exactly if nothing of it is left in the register. So of all pairs of bytes only the check
sum of those before it completes a frame, and whatever follows a frame in order meets a clear register. -/
theorem residue (frame : Bytes) :
    (Limits.minFrameLength ≤ frame.length → (checkFrame frame = .ok () ↔ crc frame = 0)) ∧
    (2 ≤ frame.length → ∀ low high : UInt8,
      checkFrame (frame ++ [low, high]) = .ok () ↔ [low, high] = trailer frame) ∧
    (checkFrame frame = .ok () → ∀ more : Bytes, crc (frame ++ more) = more.foldl step 0) := by
  refine ⟨checkFrame_eq_ok_iff, fun h _ _ => checkFrame_concat_iff h, fun order more => ?_⟩
  have clear : crc frame = 0 := (checkFrame_eq_ok_iff (minFrameLength_le_of_ok order)).mp order
  rw [crc_append, clear]

/-- The query for the exception status, alone and with the first byte of the next one behind it. -/
theorem residue_statusQuery :
    let front : Bytes := [0x11, 0x07]
    let frame : Bytes := [0x11, 0x07, 0x4C, 0x22]
    (2 ≤ front.length ∧ Limits.minFrameLength ≤ frame.length) ∧ checkFrame frame = .ok () ∧
      crc frame = 0 ∧ crc (frame ++ [0x11]) = step 0 0x11 ∧
      checkFrame (front ++ [0x22, 0x4C]) ≠ .ok () := by
  intro front frame
  have h2 : 2 ≤ front.length := by decide
  have h4 : Limits.minFrameLength ≤ frame.length := by decide
  have left : crc front = Word.join 0x22 0x4C :=
    (foldl_step_eq_bitwise front 0xFFFF).trans (by decide +kernel)
  have sum : trailer front = [0x4C, 0x22] := by
    rw [trailer, left, Word.lowByte_join, Word.highByte_join]
  have order : checkFrame frame = .ok () := ((residue front).2.1 h2 0x4C 0x22).mpr sum.symm
  have swapped : ¬ ([0x22, 0x4C] : Bytes) = trailer front := by
    rw [sum]
    decide
  exact ⟨⟨h2, h4⟩, order, ((residue frame).1 h4).mp order, (residue frame).2.2 order [0x11],
    fun other => swapped (((residue front).2.1 h2 0x22 0x4C).mp other)⟩

/-- Next to a frame in order, one of the same length is in order exactly if the bits in which they differ
leave a clear register clear. -/
theorem checkFrame_eq_ok_iff_difference {a b : Bytes} (ha : checkFrame a = .ok ())
    (hl : b.length = a.length) :
    checkFrame b = .ok () ↔ (a.difference b).foldl feed 0 = 0 := by
  have h := minFrameLength_le_of_ok ha
  have clear : crc a = 0 := (checkFrame_eq_ok_iff h).mp ha
  have sum : (a.difference b).foldl feed 0 = crc a ^^^ crc b := by
    rw [crc, crc, foldl_step, foldl_step, hl, ← foldl_feed_xor, UInt16.xor_self]
    rfl
  rw [checkFrame_eq_ok_iff (hl ▸ h), sum, clear, UInt16.zero_xor]

theorem mismatch_of_difference {a b : Bytes} (ha : checkFrame a = .ok ()) (hl : b.length = a.length)
    (h : (a.difference b).foldl feed 0 ≠ 0) : Mismatch b :=
  mismatch_of_ne (hl ▸ minFrameLength_le_of_ok ha) fun hb =>
    h ((checkFrame_eq_ok_iff_difference ha hl).mp hb)

end ModbusRtu.Checksum
