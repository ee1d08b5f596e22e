import Mathlib.Data.List.Induction
import ModbusRtu.Proofs.Verdict

/-! Frames with a function that nobody knows. Only the server id can be told before the end of such a frame; all
the bytes behind it are one error then, since nothing says what they mean or how many of them there should be.
When the bytes were parsed makes a difference only to when the server id is reported. -/

namespace ModbusRtu

namespace Delivery

/-- A parse has seen as many bytes as any frame has. -/
def Seen (deliveries : List Delivery) : Prop :=
  ∃ earlier, earlier <+: deliveries ∧ EndsParsed earlier ∧ Limits.minFrameLength ≤ (arrived earlier).length

theorem arrived_mono {earlier deliveries : List Delivery} (h : earlier <+: deliveries) :
    arrived earlier <+: arrived deliveries := by
  obtain ⟨later, rfl⟩ := h
  rw [arrived, arrived, List.flatMap_append]
  exact List.prefix_append _ _

theorem Seen.length {deliveries : List Delivery} (h : Seen deliveries) :
    Limits.minFrameLength ≤ (arrived deliveries).length := by
  obtain ⟨earlier, first, -, h4⟩ := h
  exact Nat.le_trans h4 (arrived_mono first).length_le

end Delivery

/-- What is said of the server id in the first byte of a frame. -/
def Role.serverReport (role : Role) (first : Byte) : Report :=
  ⟨role, .serverId role first.value, first.start, first.stop, some (0, 0)⟩

namespace Frame

section Unknown

variable {f : Frame} {recognizes : UInt8 → Bool} (margin : Time)

end Unknown

end Frame

namespace Grammar

open Delivery

section Life

variable (role : Role) (n : Nat) (start : Time) {bytes : List Byte} {first : Byte}

end Life

end Grammar

end ModbusRtu
