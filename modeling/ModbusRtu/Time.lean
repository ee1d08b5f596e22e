/-! Capture times. A capture counts ticks in 64 bits, and every sum, difference or product of times stays
on that clock: what would run past its end is its last tick, what would come before its start is tick
zero. Each operation is read off `Nat` through `toNat`. -/

namespace ModbusRtu

abbrev Time := UInt64

namespace Time

def lastTick : Nat := UInt64.size - 1

def clamp (n : Nat) : Time := UInt64.ofNat (min n lastTick)

def plus (t d : Time) : Time := clamp (t.toNat + d.toNat)

def minus (t d : Time) : Time := clamp (t.toNat - d.toNat)

def times (t d : Time) : Time := clamp (t.toNat * d.toNat)

def later (t u : Time) : Time := if t ≤ u then u else t

theorem toNat_le_lastTick (t : Time) : t.toNat ≤ lastTick :=
  Nat.le_sub_one_of_lt (UInt64.toNat_lt_size t)

theorem toNat_clamp (n : Nat) : (clamp n).toNat = min n lastTick := by
  unfold clamp lastTick UInt64.size
  rw [UInt64.toNat_ofNat']
  omega

theorem toNat_plus (t d : Time) : (t.plus d).toNat = min (t.toNat + d.toNat) lastTick :=
  toNat_clamp _

theorem toNat_minus (t d : Time) : (t.minus d).toNat = t.toNat - d.toNat := by
  have := toNat_le_lastTick t
  unfold minus
  rw [toNat_clamp]
  omega

theorem toNat_times (t d : Time) : (t.times d).toNat = min (t.toNat * d.toNat) lastTick :=
  toNat_clamp _

theorem toNat_later (t u : Time) : (t.later u).toNat = max t.toNat u.toNat := by
  unfold later
  split
  · rename_i h
    rw [UInt64.le_iff_toNat_le] at h
    omega
  · rename_i h
    rw [UInt64.le_iff_toNat_le] at h
    omega

end Time

end ModbusRtu
