import Mathlib.Algebra.Group.Nat.Defs
import ModbusRtu.Bytes

/-! The bits of a frame in the order of the line, low bit of every byte first, and what becomes of them when
the line is disturbed. -/

namespace ModbusRtu.Bytes

/-- Bit `k` is bit `k % 8` of byte `k / 8`. Past the end all bits are clear. -/
def bit (bytes : Bytes) (k : Nat) : Bool := (bytes.byte (k / 8)).toNat.testBit (k % 8)

def bitsOf (b : UInt8) : List Bool := (List.range 8).map b.toNat.testBit

/-- The frame with the bits of `pattern` inverted. -/
def corrupt (frame pattern : Bytes) : Bytes := frame.zipWith (· ^^^ ·) pattern

def flip (frame : Bytes) (k : Nat) : Bytes :=
  frame.modify (k / 8) fun b => b ^^^ (2 ^ (k % 8)).toUInt8

def flips (frame : Bytes) (positions : List Nat) : Bytes := positions.foldl flip frame

/-- Where two frames of one length differ, bit by bit. -/
def difference (a b : Bytes) : List Bool :=
  (List.range (8 * a.length)).map fun k => a.bit k ^^ b.bit k

/-- The number of bits in which two frames of one length differ. -/
def distance (a b : Bytes) : Nat := (difference a b).count true

theorem bit_of_le {bytes : Bytes} {k : Nat} (h : 8 * bytes.length ≤ k) : bytes.bit k = false := by
  rw [bit, byte_of_length_le (by omega)]
  exact Nat.zero_testBit _

theorem flatMap_bitsOf (bytes : Bytes) :
    bytes.flatMap bitsOf = (List.range (8 * bytes.length)).map bytes.bit := by
  induction bytes with
  | nil => rfl
  | cons b rest ih =>
    have first : (List.range 8).map (bit (b :: rest)) = bitsOf b := rfl
    have later (k : Nat) : bit (b :: rest) (8 + k) = bit rest k := by
      rw [bit, bit, Nat.add_mod_left, show (8 + k) / 8 = k / 8 + 1 by omega]
      rfl
    rw [List.flatMap_cons, List.length_cons, Nat.mul_succ, Nat.add_comm, List.range_add, List.map_append,
      List.map_map, first, ih]
    exact congrArg _ (List.map_congr_left fun k _ => (later k).symm)

theorem eq_of_bit {a b : Bytes} (hl : a.length = b.length) (h : ∀ k, a.bit k = b.bit k) : a = b := by
  have hbyte (i : Nat) : a.byte i = b.byte i := by
    apply UInt8.toNat_inj.mp
    apply Nat.eq_of_testBit_eq
    intro m
    by_cases hm : m < 8
    · have := h (8 * i + m)
      rwa [bit, bit, show (8 * i + m) / 8 = i by omega, show (8 * i + m) % 8 = m by omega] at this
    · have high (x : UInt8) : x.toNat.testBit m = false := Nat.testBit_lt_two_pow
        (Nat.lt_of_lt_of_le x.toNat_lt (Nat.pow_le_pow_right (by decide) (Nat.not_lt.mp hm)))
      rw [high, high]
  refine List.ext_getElem hl fun i ha hb => ?_
  simpa [byte, List.getD, List.getElem?_eq_getElem ha, List.getElem?_eq_getElem hb] using hbyte i

theorem difference_eq {a b : Bytes} {inverted : Nat → Bool} (h : ∀ k, b.bit k = (a.bit k ^^ inverted k)) :
    a.difference b = (List.range (8 * a.length)).map inverted := by
  refine List.map_congr_left fun k _ => ?_
  rw [h, ← Bool.xor_assoc, Bool.xor_self, Bool.false_xor]

theorem length_corrupt {frame pattern : Bytes} (h : pattern.length = frame.length) :
    (frame.corrupt pattern).length = frame.length := by
  rw [corrupt, List.length_zipWith, h, Nat.min_self]

theorem bit_corrupt {frame pattern : Bytes} (h : pattern.length = frame.length) (k : Nat) :
    (frame.corrupt pattern).bit k = (frame.bit k ^^ pattern.bit k) := by
  have hbyte : (frame.corrupt pattern).byte (k / 8) = frame.byte (k / 8) ^^^ pattern.byte (k / 8) := by
    by_cases hk : k / 8 < frame.length
    · have hp : k / 8 < pattern.length := h ▸ hk
      simp [corrupt, byte, List.getD, List.getElem?_zipWith, List.getElem?_eq_getElem hk,
        List.getElem?_eq_getElem hp]
    · have hk := Nat.not_lt.mp hk
      rw [byte_of_length_le (length_corrupt h ▸ hk), byte_of_length_le hk, byte_of_length_le (h ▸ hk)]
      rfl
  rw [bit, hbyte, UInt8.toNat_xor, Nat.testBit_xor, bit, bit]

theorem length_flip (frame : Bytes) (k : Nat) : (frame.flip k).length = frame.length :=
  List.length_modify _ _ _

theorem length_flips (frame : Bytes) (positions : List Nat) :
    (frame.flips positions).length = frame.length := by
  induction positions generalizing frame with
  | nil => rfl
  | cons k rest ih => exact (ih (frame.flip k)).trans (frame.length_flip k)

theorem bit_flip {frame : Bytes} {k : Nat} (hk : k < 8 * frame.length) (j : Nat) :
    (frame.flip k).bit j = (frame.bit j ^^ decide (j = k)) := by
  have hlt : k / 8 < frame.length := by omega
  have mask : (2 ^ (k % 8)).toUInt8.toNat = 2 ^ (k % 8) :=
    UInt8.toNat_ofNat_of_lt' (Nat.pow_lt_pow_right (by decide) (Nat.mod_lt k (by decide)))
  by_cases same : j / 8 = k / 8
  · have hbyte : (frame.flip k).byte (j / 8) = frame.byte (j / 8) ^^^ (2 ^ (k % 8)).toUInt8 := by
      simp [flip, byte, List.getD, same, List.getElem?_eq_getElem hlt]
    rw [bit, hbyte, UInt8.toNat_xor, mask, Nat.testBit_xor, Nat.testBit_two_pow, bit]
    congr 1
    exact decide_eq_decide.mpr (by omega)
  · have hbyte : (frame.flip k).byte (j / 8) = frame.byte (j / 8) := by
      have : k / 8 ≠ j / 8 := fun h => same h.symm
      simp [flip, byte, List.getD, this]
    have ne : j ≠ k := fun h => same (h ▸ rfl)
    rw [bit, hbyte, decide_eq_false ne, Bool.xor_false, bit]

/-- Flipping distinct bits inverts just these. -/
theorem bit_flips {frame : Bytes} {positions : List Nat} (distinct : positions.Nodup)
    (within : ∀ k ∈ positions, k < 8 * frame.length) (j : Nat) :
    (frame.flips positions).bit j = (frame.bit j ^^ decide (j ∈ positions)) := by
  induction positions generalizing frame with
  | nil => simp [flips]
  | cons k rest ih =>
    obtain ⟨fresh, distinct⟩ := List.nodup_cons.mp distinct
    obtain ⟨hk, within⟩ := List.forall_mem_cons.mp within
    have later : ∀ k' ∈ rest, k' < 8 * (frame.flip k).length := (frame.length_flip k).symm ▸ within
    rw [flips, List.foldl_cons, ← flips, ih distinct later, bit_flip hk]
    by_cases h : j = k
    · subst h
      simp [fresh]
    · simp [h]

theorem eq_of_distance {a b : Bytes} (hl : a.length = b.length) (h : a.distance b = 0) : a = b := by
  refine eq_of_bit hl fun k => ?_
  by_cases hk : k < 8 * a.length
  · have clear : true ∉ a.difference b := List.count_eq_zero.mp h
    have hmem : (a.bit k ^^ b.bit k) ∈ a.difference b := List.mem_map.mpr ⟨k, List.mem_range.mpr hk, rfl⟩
    cases hx : a.bit k ^^ b.bit k with
    | true => exact absurd (hx ▸ hmem) clear
    | false => exact bne_eq_false_iff_eq.mp hx
  · have hk := Nat.not_lt.mp hk
    rw [bit_of_le hk, bit_of_le (hl ▸ hk)]

theorem distance_flips {frame : Bytes} {positions : List Nat} (distinct : positions.Nodup)
    (within : ∀ k ∈ positions, k < 8 * frame.length) :
    frame.distance (frame.flips positions) = positions.length := by
  have perm : ((List.range (8 * frame.length)).filter fun k => k ∈ positions).Perm positions := by
    refine (List.perm_ext_iff_of_nodup (List.nodup_range.filter _) distinct).mpr fun k => ?_
    rw [List.mem_filter, List.mem_range, decide_eq_true_eq]
    exact and_iff_right_of_imp (within k)
  rw [distance, difference_eq (bit_flips distinct within), List.count, List.countP_map,
    List.countP_eq_length_filter]
  refine Eq.trans (congrArg List.length (List.filter_congr fun k _ => ?_)) perm.length_eq
  exact beq_true _

end ModbusRtu.Bytes
