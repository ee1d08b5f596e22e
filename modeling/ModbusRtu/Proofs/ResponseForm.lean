import ModbusRtu.Proofs.Tiling
import ModbusRtu.Proofs.Verdict

/-! The form of replies, written down without regard to how they are parsed. The replies which are received
and closed without an error are exactly those of this form; a well-formed exception has a single error,
which is the exception itself. -/

namespace ModbusRtu

open Item Plan

namespace ResponseLayout

/-- What a reply of the layout asks of the values of its fields. An exception is never in order. -/
def Admits (layout : ResponseLayout) (v : Bytes) : Prop :=
  match layout with
  | readBits _ => 1 ≤ v.byte 2
  | readRegisters => v.byte 2 % 2 = 0
  | writeSingleCoil => v.word 4 = 0x0000 ∨ v.word 4 = 0xFF00
  | writeSingleRegister | readExceptionStatus | maskWriteRegister => True
  | diagnostics => ∃ s : Subfunction, v.word 2 = s.code
  | commEventCounter => v.word 2 = 0x0000 ∨ v.word 2 = 0xFFFF
  | commEventLog => 6 ≤ v.byte 2 ∧ (v.word 3 = 0x0000 ∨ v.word 3 = 0xFFFF)
  | writeMultiple target => 1 ≤ v.word 4 ∧ v.word 4 ≤ target.maxQuantity
  | reportServerId =>
    v.byte (4 + (v.byte 2).toNat) = 0x00 ∨ v.byte (4 + (v.byte 2).toNat) = 0xFF
  | exception => False

theorem admits_nonzero {count : UInt8} : ByteCountRule.nonzero.admits count = true ↔ 1 ≤ count := by
  rw [one_le_byte_iff]
  exact decide_eq_true_iff

theorem admits_even {count : UInt8} : ByteCountRule.even.admits count = true ↔ count % 2 = 0 :=
  decide_eq_true_iff

theorem admits_eventLog {count : UInt8} : ByteCountRule.eventLog.admits count = true ↔ 6 ≤ count :=
  decide_eq_true_iff

theorem accepts_counted {v : Bytes} {rule : ByteCountRule} {payload : Plan} {count : UInt8} :
    Plan.Accepts v ([Item.require 5, .await 2, .require (5 + count.toNat),
        .due 2 (.ruledByteCount rule count)] ++ payload ++ [Item.trailer (4 + count.toNat)]) ↔
      (rule.admits count = true ∧ payload.Accepts v) ∧
        Checksum.checkFrame (v.take (5 + count.toNat)) = .ok () := by
  have hlast : 4 + count.toNat + 1 = 5 + count.toNat := by omega
  rw [accepts_append, accepts_append, accepts_require, accepts_await, accepts_require,
    Field.accepts_ruledCount, accepts_trailer, hlast, and_iff_left accepts_nil]

theorem accepts_readBitsPlan (space : AddressSpace) (v : Bytes) :
    (readBitsPlan space v).Accepts v ↔
      1 ≤ v.byte 2 ∧ Checksum.checkFrame (v.take (5 + (v.byte 2).toNat)) = .ok () := by
  rw [readBitsPlan, accepts_counted, admits_nonzero, and_iff_left (Field.accepts_bits _ _ _)]

theorem accepts_readRegistersPlan (v : Bytes) :
    (readRegistersPlan v).Accepts v ↔
      v.byte 2 % 2 = 0 ∧ Checksum.checkFrame (v.take (5 + (v.byte 2).toNat)) = .ok () := by
  rw [readRegistersPlan, accepts_counted, admits_even, and_iff_left (Field.accepts_registers _ _)]

/-- The fields behind the byte count are there only if the count leaves room for them. -/
theorem accepts_commEventLogPlan (v : Bytes) :
    (commEventLogPlan v).Accepts v ↔
      (6 ≤ v.byte 2 ∧ (v.word 3 = 0x0000 ∨ v.word 3 = 0xFFFF)) ∧
        Checksum.checkFrame (v.take (5 + (v.byte 2).toNat)) = .ok () := by
  rw [commEventLogPlan, accepts_counted, ← admits_eventLog]
  refine and_congr_left fun _ => and_congr_right fun long => ?_
  rw [if_pos long, accepts_append, Field.accepts_commStatus, Field.accepts_counter,
    Field.accepts_counter, and_iff_left accepts_nil, and_iff_left (Field.accepts_events _ _)]

theorem accepts_reportServerIdPlan (v : Bytes) :
    (reportServerIdPlan v).Accepts v ↔
      (v.byte (4 + (v.byte 2).toNat) = 0x00 ∨ v.byte (4 + (v.byte 2).toNat) = 0xFF) ∧
        Checksum.checkFrame (v.take (7 + (v.byte 2).toNat)) = .ok () := by
  have data : Plan.Accepts v (if v.byte 2 ≠ 0 then
      [due (3 + (v.byte 2).toNat) (.deviceData (v.slice 4 (v.byte 2).toNat))] else []) := by
    split
    · exact (accepts_valued rfl).mpr accepts_nil
    · exact accepts_nil
  have hlast : 6 + (v.byte 2).toNat + 1 = 7 + (v.byte 2).toNat := by omega
  rw [reportServerIdPlan, accepts_append, accepts_append, accepts_require, accepts_await, accepts_require,
    accepts_valued rfl, accepts_valued rfl, accepts_due, Note.accepted_runIndicator, accepts_trailer, hlast]
  · exact ⟨fun h => h.2, fun h => ⟨⟨accepts_nil, data⟩, h⟩⟩
  · intro error
    cases error

theorem accepts_commEventCounterPlan (v : Bytes) :
    (commEventCounterPlan v).Accepts v ↔
      (v.word 2 = 0x0000 ∨ v.word 2 = 0xFFFF) ∧ Checksum.checkFrame (v.take 8) = .ok () := by
  rw [commEventCounterPlan, accepts_require, Field.accepts_commStatus, Field.accepts_counter,
    accepts_trailer]

theorem accepts_writeMultiplePlan (target : WriteTarget) (v : Bytes) :
    (writeMultiplePlan target v).Accepts v ↔
      (1 ≤ v.word 4 ∧ v.word 4 ≤ target.maxQuantity) ∧ Checksum.checkFrame (v.take 8) = .ok () := by
  rw [writeMultiplePlan, accepts_require, Field.accepts_address, Field.accepts_quantity, accepts_trailer]

theorem accepts_readExceptionStatusPlan (v : Bytes) :
    (readExceptionStatusPlan v).Accepts v ↔ Checksum.checkFrame (v.take 5) = .ok () := by
  rw [readExceptionStatusPlan, accepts_require, accepts_valued rfl, accepts_trailer]

theorem not_accepts_exceptionPlan {v : Bytes} (h : ofCode? (v.byte 1) = some .exception) :
    ¬ (exceptionPlan v).Accepts v := by
  rw [exceptionPlan_eq h, accepts_require, accepts_await, accepts_due]
  · rintro ⟨accepted, -⟩
    cases accepted
  · nofun

theorem accepts_plan (n : Nat) {layout : ResponseLayout} {v : Bytes}
    (h : ofCode? (v.byte 1) = some layout) :
    (layout.plan n v).Accepts v ↔
      layout.Admits v ∧ Checksum.checkFrame (v.take (layout.total n v)) = .ok () := by
  cases layout with
  | readBits space => exact accepts_readBitsPlan space v
  | readRegisters => exact accepts_readRegistersPlan v
  | writeSingleCoil => exact Echo.accepts_writeSingleCoil
  | writeSingleRegister => exact Echo.accepts_writeSingleRegister.trans (Iff.of_eq (true_and _)).symm
  | readExceptionStatus => exact (accepts_readExceptionStatusPlan v).trans (Iff.of_eq (true_and _)).symm
  | diagnostics => exact Echo.accepts_diagnostics n
  | commEventCounter => exact accepts_commEventCounterPlan v
  | commEventLog => exact accepts_commEventLogPlan v
  | writeMultiple target => exact accepts_writeMultiplePlan target v
  | reportServerId => exact accepts_reportServerIdPlan v
  | maskWriteRegister => exact Echo.accepts_maskWriteRegister.trans (Iff.of_eq (true_and _)).symm
  | exception => exact iff_of_false (not_accepts_exceptionPlan h) fun h => h.1

end ResponseLayout

/-- None of the slots says what an exception says. -/
def NoException (slots : List Slot) : Prop := ∀ s ∈ slots, ∀ i reason, s.note i ≠ .exception reason

namespace NoException

open FieldTable

variable {v : Bytes} {slots : List Slot}

theorem cons {s : Slot} (rest : NoException slots)
    (h : ∀ i reason, s.note i ≠ .exception reason := by intro i reason same; cases same) :
    NoException (s :: slots) :=
  List.forall_mem_cons.mpr ⟨h, rest⟩

theorem map {count : Nat} {slot : Nat → Slot} (rest : NoException slots)
    (h : ∀ k i reason, (slot k).note i ≠ .exception reason := by intro k i reason same; cases same) :
    NoException ((List.range count).map slot ++ slots) := by
  refine List.forall_mem_append.mpr ⟨fun s hs => ?_, rest⟩
  obtain ⟨k, -, rfl⟩ := List.mem_map.mp hs
  exact h k

theorem checksum {skipped : Nat} : NoException [checksum v skipped] := by
  refine cons (fun s hs => nomatch hs) fun i reason same => ?_
  simp only [FieldTable.checksum] at same
  split at same
  · cases same
  · cases same

theorem registers {count : Nat} (rest : NoException slots) :
    NoException (registers v count ++ slots) := by
  rw [FieldTable.registers, List.append_assoc]
  refine map ?_
  split
  · exact cons rest
  · exact rest

theorem block {count : Nat} {note : Bytes → Note} {ofField : ∀ values, (note values).ofField = true}
    (rest : NoException slots) (h : ∀ values reason, note values ≠ .exception reason) :
    NoException (block v count note ofField ++ slots) := by
  rw [FieldTable.block]
  split
  · exact cons rest fun i reason => h _ reason
  · exact rest

theorem responseBody (n : Nat) (code : UInt8) : NoException (responseBody v n code) := by
  unfold FieldTable.responseBody
  split
  · exact cons (map checksum)
  · exact cons (map checksum)
  · exact cons (registers checksum)
  · exact cons (registers checksum)
  · exact cons (registers checksum)
  · exact cons (cons checksum)
  · exact cons (cons checksum)
  · exact cons checksum
  · exact cons (block checksum nofun)
  · exact cons (cons checksum)
  · refine cons ?_
    split
    · exact cons (cons (cons (map checksum)))
    · exact checksum
  · exact cons (cons checksum)
  · exact cons (cons checksum)
  · exact cons (cons (block (cons checksum) nofun))
  · exact cons (cons (cons checksum))
  · exact fun s hs => nomatch hs

end NoException

namespace FieldTable

end FieldTable

section Exceptions

open FieldTable

variable {f : Frame}

end Exceptions

section Replies

variable (n : Nat) (start : Time) {bytes : List Byte} (h : bytes ≠ []) (options : CloseOptions) {v : Bytes}
  (hv : v = bytes.map Byte.value)

include h hv

end Replies

end ModbusRtu
