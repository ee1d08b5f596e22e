import ModbusRtu.Proofs.Register

/-! Single bits. The shift keeps the parity of the register, so an odd number of inverted bits never goes
unnoticed. Two of them go unnoticed only if the register, with one bit in it, comes back to that bit between
them, and it does not do so within a frame of legal length. So frames in order of one legal length differ in
four bits at least. -/

namespace ModbusRtu.Checksum

/-- Whether the lowest `width` bits of `r` hold an odd number of ones. -/
def parity : Nat → Nat → Bool
  | 0, _ => false
  | width + 1, r => r.testBit 0 ^^ parity width (r >>> 1)

theorem parity_xor (width a b : Nat) : parity width (a ^^^ b) = (parity width a ^^ parity width b) := by
  induction width generalizing a b with
  | zero => rfl
  | succ width ih =>
    rw [parity, parity, parity, Nat.testBit_xor, Nat.shiftRight_xor_distrib, ih, Bool.xor_assoc,
      Bool.xor_assoc, Bool.xor_left_comm (b.testBit 0)]

theorem parity_succ_of_lt {width r : Nat} (h : r < 2 ^ width) : parity (width + 1) r = parity width r := by
  induction width generalizing r with
  | zero =>
    obtain rfl : r = 0 := Nat.lt_one_iff.mp h
    rfl
  | succ width ih =>
    have half : r >>> 1 < 2 ^ width := by
      rw [Nat.shiftRight_eq_div_pow]
      rw [Nat.pow_succ'] at h
      exact Nat.div_lt_of_lt_mul h
    exact congrArg (r.testBit 0 ^^ ·) (ih half)

/-- The polynomial has an odd number of taps, so what falls out of the register shows in them. -/
theorem parity_shift (r : UInt16) : parity 16 (shift r).toNat = parity 16 r.toNat := by
  have down : parity 16 (r >>> 1).toNat = (r.toNat.testBit 0 ^^ parity 16 r.toNat) := by
    have hr := UInt16.toNat_lt r
    have small : r.toNat >>> 1 < 2 ^ 15 := by
      rw [Nat.shiftRight_eq_div_pow]
      omega
    have whole : parity 16 r.toNat = (r.toNat.testBit 0 ^^ parity 15 (r.toNat >>> 1)) := rfl
    rw [UInt16.toNat_shiftRight, show (1 : UInt16).toNat % 16 = 1 from rfl, parity_succ_of_lt small, whole,
      ← Bool.xor_assoc, Bool.xor_self, Bool.false_xor]
  rw [shift_eq, UInt16.toNat_xor, parity_xor, down]
  cases r.toNat.testBit 0 with
  | true =>
    have taps : parity 16 (0xA001 : UInt16).toNat = true := rfl
    rw [if_pos rfl, taps]
    cases parity 16 r.toNat <;> rfl
  | false =>
    have none : parity 16 (0 : UInt16).toNat = false := rfl
    rw [if_neg (by decide), none, Bool.xor_false, Bool.false_xor]

theorem parity_foldl_feed (bits : List Bool) (r : UInt16) :
    parity 16 (bits.foldl feed r).toNat = (parity 16 r.toNat ^^ decide (bits.count true % 2 = 1)) := by
  have parity_feed (r : UInt16) (b : Bool) : parity 16 (feed r b).toNat = (parity 16 r.toNat ^^ b) := by
    rw [feed, parity_shift, UInt16.toNat_xor, parity_xor]
    cases b <;> rfl
  induction bits generalizing r with
  | nil => exact (Bool.xor_false _).symm
  | cons b rest ih =>
    rw [List.foldl_cons, ih, parity_feed, Bool.xor_assoc]
    congr 1
    cases b with
    | true =>
      rw [List.count_cons_self, Bool.true_xor, ← decide_not]
      exact decide_eq_decide.mpr (by omega)
    | false => rw [List.count_cons_of_ne (by decide), Bool.false_xor]

theorem foldl_feed_ne_zero_of_odd {bits : List Bool} (h : bits.count true % 2 = 1) :
    bits.foldl feed 0 ≠ 0 := by
  intro cleared
  have even := parity_foldl_feed bits 0
  rw [cleared, h] at even
  cases even

/-- Whether `n` shifts of `r` avoid the single bit `1` all the way. -/
def avoids : Nat → UInt16 → Bool
  | 0, _ => true
  | n + 1, r => shift r != 1 && avoids n (shift r)

theorem shifts_ne_one_of_avoids {n : Nat} {r : UInt16} (h : avoids n r = true) {d : Nat} (hd : d < n) :
    shifts (d + 1) r ≠ 1 := by
  induction n generalizing r d with
  | zero => exact absurd hd (Nat.not_lt_zero d)
  | succ n ih =>
    rw [avoids, Bool.and_eq_true, bne_iff_ne] at h
    cases d with
    | zero => exact h.1
    | succ d => exact ih h.2 (Nat.lt_of_succ_lt_succ hd)

/-- The bits of the longest legal frame are not enough to bring a single bit back. -/
theorem shifts_ne_one {d : Nat} (hd : d < 8 * Limits.maxFrameLength - 1) : shifts (d + 1) 1 ≠ 1 :=
  shifts_ne_one_of_avoids (by decide +kernel) hd

theorem foldl_feed_ne_zero_of_two {bits : List Bool} (h : bits.count true = 2)
    (hl : bits.length ≤ 8 * Limits.maxFrameLength) : bits.foldl feed 0 ≠ 0 := by
  have set : true ∈ bits := List.count_pos_iff.mp (h ▸ Nat.two_pos)
  obtain ⟨before, rest, rfl, clear⟩ := List.eq_append_cons_of_mem set
  rw [List.count_append, List.count_eq_zero.mpr clear, List.count_cons_self, Nat.zero_add] at h
  have set : true ∈ rest := List.count_pos_iff.mp (by omega)
  obtain ⟨between, behind, rfl, clear'⟩ := List.eq_append_cons_of_mem set
  rw [List.count_append, List.count_eq_zero.mpr clear', List.count_cons_self, Nat.zero_add] at h
  have clear'' : true ∉ behind := List.count_eq_zero.mp (by omega)
  simp only [List.length_append, List.length_cons] at hl
  have apart : shifts (between.length + 1) 1 ≠ 1 := shifts_ne_one (by omega)
  -- the second bit meets what became of the first
  rw [List.foldl_append, foldl_feed_clear clear, shifts_zero, List.foldl_cons, List.foldl_append,
    foldl_feed_clear clear', List.foldl_cons, foldl_feed_clear clear'']
  intro cleared
  exact apart (UInt16.xor_eq_zero_iff.mp (shift_eq_zero (shifts_eq_zero cleared)))

theorem mismatch_of_distance {frame other : Bytes} (h : checkFrame frame = .ok ())
    (hl : other.length = frame.length)
    (hd : frame.distance other % 2 = 1 ∨
      frame.distance other = 2 ∧ frame.length ≤ Limits.maxFrameLength) : Mismatch other := by
  refine mismatch_of_difference h hl ?_
  rcases hd with odd | ⟨two, legal⟩
  · exact foldl_feed_ne_zero_of_odd odd
  · refine foldl_feed_ne_zero_of_two two ?_
    rw [Bytes.difference, List.length_map, List.length_range]
    exact Nat.mul_le_mul_left 8 legal

/-- Flipping an odd number of bits of a frame in order spoils its check sum, and so does flipping two if the
frame is of legal length. Hence frames in order of one legal length are the same or four bits apart. -/
theorem flips_detected (frame : Bytes) (h : checkFrame frame = .ok ()) :
    (∀ positions : List Nat, positions.Nodup → (∀ k ∈ positions, k < 8 * frame.length) →
      positions.length % 2 = 1 ∨ positions.length = 2 ∧ frame.length ≤ Limits.maxFrameLength →
      Mismatch (frame.flips positions)) ∧
    (frame.length ≤ Limits.maxFrameLength → ∀ other : Bytes, other.length = frame.length →
      checkFrame other = .ok () → frame = other ∨ 4 ≤ frame.distance other) := by
  refine ⟨fun positions distinct within count => ?_, fun legal other hl order => ?_⟩
  · rw [← Bytes.distance_flips distinct within] at count
    exact mismatch_of_distance h (frame.length_flips positions) count
  · by_cases same : frame.distance other = 0
    · exact Or.inl (Bytes.eq_of_distance hl.symm same)
    · refine Or.inr (Nat.not_lt.mp fun near => ?_)
      have count : frame.distance other % 2 = 1 ∨
          frame.distance other = 2 ∧ frame.length ≤ Limits.maxFrameLength := by omega
      obtain ⟨expected, actual, mismatch⟩ := mismatch_of_distance h hl count
      rw [order] at mismatch
      cases mismatch

theorem flips_detected_statusQuery :
    let frame : Bytes := [0x11, 0x07, 0x4C, 0x22]
    checkFrame frame = .ok () ∧ frame.flips [0, 31] = [0x10, 0x07, 0x4C, 0xA2] ∧
      Mismatch (frame.flips [0, 31]) ∧ Mismatch (frame.flips [5, 6, 17]) := by
  intro frame
  have sum : crc [0x11, 0x07] = Word.join 0x22 0x4C := by decide +kernel
  have order : checkFrame frame = .ok () := (if_neg (by decide)).trans (if_pos sum)
  have detected := (flips_detected frame order).1
  exact ⟨order, by decide, detected [0, 31] (by decide) (by decide) (Or.inr (by decide)),
    detected [5, 6, 17] (by decide) (by decide) (Or.inl rfl)⟩

end ModbusRtu.Checksum
