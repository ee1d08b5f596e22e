import ModbusRtu.Proofs.Laid
import ModbusRtu.Grammar

/-! The layouts obey the laws of plans. Each is laid out in order up to the length it declares, and none
reads a byte beyond the field that is due. -/

namespace ModbusRtu

open Item Plan

section Reading

variable {bytes : Bytes} {p q : Plan}

/-- A field that reads one byte, its last. -/
theorem Plan.Agree.byte (index : Nat) (said : UInt8 → Note) (more : Bytes)
    (rest : index < bytes.length → Agree bytes.length p q) :
    Agree bytes.length (.due index (said (bytes.byte index)) :: p)
      (.due index (said (Bytes.byte (bytes ++ more) index)) :: q) :=
  .field index (fun h => by rw [Bytes.byte_append more h]) rest

/-- A field that reads one word, at its end. -/
theorem Plan.Agree.word (index : Nat) (said : UInt16 → Note) (more : Bytes)
    (rest : index + 1 < bytes.length → Agree bytes.length p q) :
    Agree bytes.length (.due (index + 1) (said (bytes.word index)) :: p)
      (.due (index + 1) (said (Bytes.word (bytes ++ more) index)) :: q) :=
  .field (index + 1) (fun h => by rw [Bytes.word_append more h]) rest

theorem Plan.Agree.trailer (n last : Nat) : Agree n [.trailer last] [.trailer last] := .refl n _

end Reading

namespace Field

theorem laid_bits {total minimum : Nat} {p : Plan} (unit : String) (first count : Nat) (bytes : Bytes)
    (hm : first + count ≤ minimum) (rest : Laid total (first + count) minimum p) :
    Laid total first minimum (bits unit first count bytes ++ p) :=
  .map (fun i => first + i) _ _ (List.pairwise_lt_range.imp fun h => by omega) (by intros; omega)
    (fun i hi => by have := List.mem_range.mp hi; omega) (by omega) hm rest

theorem laid_events {total minimum : Nat} {p : Plan} (first count : Nat) (bytes : Bytes)
    (hm : first + count ≤ minimum) (rest : Laid total (first + count) minimum p) :
    Laid total first minimum (events first count bytes ++ p) :=
  .map (fun i => first + i) _ _ (List.pairwise_lt_range.imp fun h => by omega) (by intros; omega)
    (fun i hi => by have := List.mem_range.mp hi; omega) (by omega) hm rest

theorem laid_registers {total minimum : Nat} {p : Plan} (first count : Nat) (bytes : Bytes)
    (hm : first + count ≤ minimum) (rest : Laid total (first + count) minimum p) :
    Laid total first minimum (registers first count bytes ++ p) := by
  have pairs {q : Plan} (hq : Laid total (first + 2 * (count / 2)) minimum q) :
      Laid total first minimum ((List.range (count / 2)).map (fun i =>
        .due (first + 2 * i + 1) (.register i (bytes.word (first + 2 * i)))) ++ q) :=
    .map (fun i => first + 2 * i + 1) _ _ (List.pairwise_lt_range.imp fun h => by omega)
      (by intros; omega) (fun i hi => by have := List.mem_range.mp hi; omega) (by omega) (by omega) hq
  unfold registers
  rw [List.append_assoc]
  apply pairs
  by_cases odd : count % 2 = 1
  · simp only [odd, if_true, List.singleton_append]
    exact .field _ (by omega) (rest.of_le (by omega))
  · simp only [odd, if_false, List.nil_append]
    exact rest.of_le (by omega)

theorem agree_bits (unit : String) (first count : Nat) (bytes more : Bytes) :
    Agree bytes.length (bits unit first count bytes) (bits unit first count (bytes ++ more)) :=
  .map (fun i => first + i) _ fun i _ h => by rw [Bytes.byte_append more h]

theorem agree_events (first count : Nat) (bytes more : Bytes) :
    Agree bytes.length (events first count bytes) (events first count (bytes ++ more)) :=
  .map (fun i => first + i) _ fun i _ h => by rw [Bytes.byte_append more h]

theorem agree_registers (first count : Nat) (bytes more : Bytes) :
    Agree bytes.length (registers first count bytes) (registers first count (bytes ++ more)) := by
  unfold registers
  refine .append (.map (fun i => first + 2 * i + 1) _ fun i _ h => ?_) ?_
  · rw [Bytes.word_append more h]
  · by_cases odd : count % 2 = 1
    · simp only [odd, if_true]
      exact .byte _ .unpairedByte more fun _ => .nil
    · simp only [odd, if_false]
      exact .nil

end Field

theorem FunctionCode.ofException?_eq_some_iff {code : UInt8} {function : FunctionCode} :
    ofException? code = some function ↔
      hasExceptionBit code = true ∧ ofCode (code &&& 0x7F) = function ∧ function.name?.isSome = true := by
  simp only [ofException?, Option.ite_none_right_eq_some, Bool.and_eq_true, Option.some.injEq]
  constructor
  · rintro ⟨⟨bit, named⟩, rfl⟩
    exact ⟨bit, rfl, named⟩
  · rintro ⟨bit, rfl, named⟩
    exact ⟨⟨bit, named⟩, rfl⟩

namespace Echo

theorem laid_writeSingleCoil (bytes : Bytes) : Laid 8 2 4 (writeSingleCoil bytes) :=
  .require 8 (.field _ (by omega) (.field _ (by omega) (.trailer (by omega))))

theorem laid_writeSingleRegister (bytes : Bytes) : Laid 8 2 4 (writeSingleRegister bytes) :=
  .require 8 (.field _ (by omega) (.field _ (by omega) (.trailer (by omega))))

theorem laid_maskWriteRegister (bytes : Bytes) : Laid 10 2 4 (maskWriteRegister bytes) :=
  .require 10 (.field _ (by omega) (.field _ (by omega) (.field _ (by omega) (.trailer (by omega)))))

theorem laid_diagnostics (n : Nat) (bytes : Bytes) : Laid (6 + n) 2 4 (diagnostics n bytes) := by
  refine .require (6 + n) (.field _ (by omega) ?_)
  by_cases hn : 0 < n
  · simp only [hn, if_true]
    exact .field _ (by omega) (.trailer (by omega))
  · simp only [hn, if_false]
    exact .trailer (by omega)

theorem agree_writeSingleCoil (bytes more : Bytes) :
    Agree bytes.length (writeSingleCoil bytes) (writeSingleCoil (bytes ++ more)) :=
  .cons _ fun _ => .word 2 (.address "Address" .coils) more fun _ => .word 4 .coilValue more fun _ =>
    .trailer _ _

theorem agree_writeSingleRegister (bytes more : Bytes) :
    Agree bytes.length (writeSingleRegister bytes) (writeSingleRegister (bytes ++ more)) :=
  .cons _ fun _ => .word 2 (.address "Address" .holdingRegisters) more fun _ =>
    .word 4 .registerValue more fun _ => .trailer _ _

theorem agree_maskWriteRegister (bytes more : Bytes) :
    Agree bytes.length (maskWriteRegister bytes) (maskWriteRegister (bytes ++ more)) :=
  .cons _ fun _ => .word 2 (.address "Address" .holdingRegisters) more fun _ =>
    .word 4 (.mask "AND") more fun _ => .word 6 (.mask "OR") more fun _ => .trailer _ _

theorem agree_diagnostics (n : Nat) (bytes more : Bytes) :
    Agree bytes.length (diagnostics n bytes) (diagnostics n (bytes ++ more)) := by
  refine .append (.append (.cons _ fun _ => .word 2 .subfunction more fun _ => .nil) ?_) (.trailer _ _)
  by_cases hn : 0 < n
  · simp only [hn, if_true]
    refine .field _ (fun h => ?_) fun _ => .nil
    rw [Bytes.slice_append more (by omega)]
  · simp only [hn, if_false]
    exact .nil

end Echo

namespace RequestLayout

/-- The length that a request of the layout declares. -/
def total (diagnosticsLength : Nat) (layout : RequestLayout) (bytes : Bytes) : Nat :=
  match layout with
  | readBits _ | readRegisters _ | writeSingleCoil | writeSingleRegister => 8
  | noData => 4
  | diagnostics => 6 + diagnosticsLength
  | writeMultiple _ => 9 + (bytes.byte 6).toNat
  | maskWriteRegister => 10
  | readWriteMultipleRegisters => 13 + (bytes.byte 10).toNat

theorem laid_readPlan (space : AddressSpace) (limit : UInt16) (bytes : Bytes) :
    Laid 8 2 4 (readPlan space limit bytes) :=
  .require 8 (.field _ (by omega) (.field _ (by omega) (.trailer (by omega))))

theorem laid_writePlan (target : WriteTarget) (bytes : Bytes) :
    Laid (9 + (bytes.byte 6).toNat) 2 4 (writePlan target bytes) := by
  unfold writePlan
  refine .require 9 (.field _ (by omega) (.field _ (by omega) ?_))
  refine .await (by omega) (.require _ (.field _ (by omega) ?_))
  cases target with
  | coils => exact Field.laid_bits _ _ _ _ (by omega) (.trailer (by omega))
  | registers => exact Field.laid_registers _ _ _ (by omega) (.trailer (by omega))

theorem laid_exchangePlan (bytes : Bytes) :
    Laid (13 + (bytes.byte 10).toNat) 2 4 (exchangePlan bytes) := by
  unfold exchangePlan
  refine .require 13 (.field _ (by omega) (.field _ (by omega) ?_))
  refine .field _ (by omega) (.field _ (by omega) ?_)
  refine .await (by omega) (.require _ (.field _ (by omega) ?_))
  exact Field.laid_registers _ _ _ (by omega) (.trailer (by omega))

theorem laid_plan (n : Nat) (layout : RequestLayout) (bytes : Bytes) :
    Laid (layout.total n bytes) 2 4 (layout.plan n bytes) := by
  cases layout with
  | readBits space => exact laid_readPlan space _ bytes
  | readRegisters space => exact laid_readPlan space _ bytes
  | writeSingleCoil => exact Echo.laid_writeSingleCoil bytes
  | writeSingleRegister => exact Echo.laid_writeSingleRegister bytes
  | noData =>
    show Laid 4 2 4 _
    exact .trailer (by omega)
  | diagnostics => exact Echo.laid_diagnostics n bytes
  | writeMultiple target => exact laid_writePlan target bytes
  | maskWriteRegister => exact Echo.laid_maskWriteRegister bytes
  | readWriteMultipleRegisters => exact laid_exchangePlan bytes

theorem agree_readPlan (space : AddressSpace) (limit : UInt16) (bytes more : Bytes) :
    Agree bytes.length (readPlan space limit bytes) (readPlan space limit (bytes ++ more)) :=
  .cons _ fun _ => .word 2 (.address "Start at address" space) more fun _ =>
    .word 4 (.quantity ⟨limit, "Read", "units of data"⟩) more fun _ => .trailer _ _

theorem agree_writePlan (target : WriteTarget) (bytes more : Bytes) :
    Agree bytes.length (writePlan target bytes) (writePlan target (bytes ++ more)) := by
  unfold writePlan
  refine .cons _ fun _ => .word 2 (.address "Start at address" target.space) more fun _ =>
    .word 4 (.quantity ⟨target.maxQuantity, "Write", target.noun⟩) more fun _ => .cons _ fun hw => ?_
  have h6 : 6 < bytes.length := Nat.not_le.mp hw
  simp only [Bytes.byte_append more h6, Bytes.word_append more (show 4 + 1 < bytes.length by omega)]
  refine .cons _ fun _ => .cons _ fun _ => .append ?_ (.trailer _ _)
  cases target with
  | coils => exact Field.agree_bits _ _ _ _ _
  | registers => exact Field.agree_registers _ _ _ _

theorem agree_exchangePlan (bytes more : Bytes) :
    Agree bytes.length (exchangePlan bytes) (exchangePlan (bytes ++ more)) := by
  unfold exchangePlan
  refine .cons _ fun _ => .word 2 (.address "Read from address" .holdingRegisters) more fun _ =>
    .word 4 (.quantity ⟨Limits.maxReadRegisters, "Read", "registers"⟩) more fun _ =>
    .word 6 (.address "Write to address" .holdingRegisters) more fun _ =>
    .word 8 (.quantity ⟨Limits.maxExchangeRegisters, "Write", "registers"⟩) more fun _ =>
    .cons _ fun hw => ?_
  have h10 : 10 < bytes.length := Nat.not_le.mp hw
  simp only [Bytes.byte_append more h10, Bytes.word_append more (show 8 + 1 < bytes.length by omega)]
  exact .cons _ fun _ => .cons _ fun _ => .append (Field.agree_registers _ _ _ _) (.trailer _ _)

theorem agree_plan (n : Nat) (layout : RequestLayout) (bytes more : Bytes) :
    Agree bytes.length (layout.plan n bytes) (layout.plan n (bytes ++ more)) := by
  cases layout with
  | readBits space => exact agree_readPlan space _ bytes more
  | readRegisters space => exact agree_readPlan space _ bytes more
  | writeSingleCoil => exact Echo.agree_writeSingleCoil bytes more
  | writeSingleRegister => exact Echo.agree_writeSingleRegister bytes more
  | noData => exact .trailer _ _
  | diagnostics => exact Echo.agree_diagnostics n bytes more
  | writeMultiple target => exact agree_writePlan target bytes more
  | maskWriteRegister => exact Echo.agree_maskWriteRegister bytes more
  | readWriteMultipleRegisters => exact agree_exchangePlan bytes more

/-- The table of names has every function that the table of layouts has. -/
theorem functionNote_of_ofCode? {code : UInt8} {layout : RequestLayout} (h : ofCode? code = some layout) :
    ∃ name, layout.functionNote code = .ok (.function code name) := by
  unfold ofCode? at h
  split at h
  case h_16 => cases h
  all_goals exact ⟨_, rfl⟩

end RequestLayout

namespace ResponseLayout

/-- The length that a reply of the layout declares. -/
def total (diagnosticsLength : Nat) (layout : ResponseLayout) (bytes : Bytes) : Nat :=
  match layout with
  | readBits _ | readRegisters | commEventLog => 5 + (bytes.byte 2).toNat
  | writeSingleCoil | writeSingleRegister | commEventCounter | writeMultiple _ => 8
  | readExceptionStatus | exception => 5
  | diagnostics => 6 + diagnosticsLength
  | reportServerId => 7 + (bytes.byte 2).toNat
  | maskWriteRegister => 10

theorem ofException?_of_exception {code : UInt8} (h : ofCode? code = some .exception) :
    ∃ function, FunctionCode.ofException? code = some function := by
  unfold ofCode? at h
  split at h
  case h_16 =>
    split at h
    · rename_i announced
      exact Option.isSome_iff_exists.mp announced
    · cases h
  all_goals cases h

/-- The table of names has every function that the table of layouts has. -/
theorem functionNote_of_ofCode? {code : UInt8} {layout : ResponseLayout} (h : ofCode? code = some layout) :
    ∃ said, layout.functionNote code = .ok said := by
  unfold ofCode? at h
  split at h
  case h_16 =>
    split at h
    · rename_i announced
      obtain rfl := Option.some.inj h
      obtain ⟨function, hf⟩ := Option.isSome_iff_exists.mp announced
      obtain ⟨name, hn⟩ := Option.isSome_iff_exists.mp (FunctionCode.ofException?_eq_some_iff.mp hf).2.2
      refine ⟨.exceptionFunction code name, ?_⟩
      simp only [functionNote, Field.exceptionNote, hf, Option.bind, hn]
    · cases h
  all_goals
    obtain rfl := Option.some.inj h
    exact ⟨_, rfl⟩

theorem laid_readBitsPlan (space : AddressSpace) (bytes : Bytes) :
    Laid (5 + (bytes.byte 2).toNat) 2 4 (readBitsPlan space bytes) := by
  refine .require 5 (.await (by omega) (.require _ (.field _ (by omega) ?_)))
  exact Field.laid_bits _ _ _ _ (by omega) (.trailer (by omega))

theorem laid_readRegistersPlan (bytes : Bytes) :
    Laid (5 + (bytes.byte 2).toNat) 2 4 (readRegistersPlan bytes) := by
  refine .require 5 (.await (by omega) (.require _ (.field _ (by omega) ?_)))
  exact Field.laid_registers _ _ _ (by omega) (.trailer (by omega))

theorem laid_commEventLogPlan (bytes : Bytes) :
    Laid (5 + (bytes.byte 2).toNat) 2 4 (commEventLogPlan bytes) := by
  refine .require 5 (.await (by omega) (.require _ (.field _ (by omega) ?_)))
  by_cases h : ByteCountRule.eventLog.admits (bytes.byte 2)
  · have h6 : 6 ≤ (bytes.byte 2).toNat := UInt8.le_iff_toNat_le.mp (of_decide_eq_true h)
    simp only [h, if_true]
    refine .field _ (by omega) (.field _ (by omega) (.field _ (by omega) ?_))
    exact Field.laid_events _ _ _ (by omega) (.trailer (by omega))
  · simp only [h]
    exact .trailer (by omega)

theorem laid_reportServerIdPlan (bytes : Bytes) :
    Laid (7 + (bytes.byte 2).toNat) 2 4 (reportServerIdPlan bytes) := by
  refine .require 7 (.await (by omega) (.require _ (.field _ (by omega) (.field _ (by omega) ?_))))
  by_cases h : bytes.byte 2 ≠ 0
  · have hc : 0 < (bytes.byte 2).toNat := Nat.pos_of_ne_zero fun he => h (UInt8.toNat_inj.mp he)
    rw [if_pos h]
    exact .field _ (by omega) (.field _ (by omega) (.trailer (by omega)))
  · rw [if_neg h]
    exact .field _ (by omega) (.trailer (by omega))

theorem exceptionPlan_of_announced {bytes : Bytes} {function : FunctionCode}
    (h : FunctionCode.ofException? (bytes.byte 1) = some function) :
    exceptionPlan bytes =
      [.require 5, .await 2, .due 2 (.exception (.ofByte (bytes.byte 2))), .trailer 4] := by
  simp only [exceptionPlan, ExceptionReply.ofBytes, h, List.cons_append, List.nil_append]

theorem exceptionPlan_eq {bytes : Bytes} (h : ofCode? (bytes.byte 1) = some .exception) :
    exceptionPlan bytes =
      [.require 5, .await 2, .due 2 (.exception (.ofByte (bytes.byte 2))), .trailer 4] := by
  obtain ⟨function, hf⟩ := ofException?_of_exception h
  exact exceptionPlan_of_announced hf

theorem laid_exceptionPlan {bytes : Bytes} (h : ofCode? (bytes.byte 1) = some .exception) :
    Laid 5 2 4 (exceptionPlan bytes) := by
  rw [exceptionPlan_eq h]
  exact .require 5 (.await (by omega) (.field _ (by omega) (.trailer (by omega))))

/-- Any frame can be read in any layout but that of exceptions. -/
theorem laid_regular (n : Nat) {layout : ResponseLayout} (h : layout ≠ .exception) (bytes : Bytes) :
    Laid (layout.total n bytes) 2 4 (layout.plan n bytes) := by
  cases layout with
  | readBits space => exact laid_readBitsPlan space bytes
  | readRegisters => exact laid_readRegistersPlan bytes
  | writeSingleCoil => exact Echo.laid_writeSingleCoil bytes
  | writeSingleRegister => exact Echo.laid_writeSingleRegister bytes
  | readExceptionStatus =>
    show Laid 5 2 4 (readExceptionStatusPlan bytes)
    exact .require 5 (.field _ (by omega) (.trailer (by omega)))
  | diagnostics => exact Echo.laid_diagnostics n bytes
  | commEventCounter =>
    show Laid 8 2 4 (commEventCounterPlan bytes)
    exact .require 8 (.field _ (by omega) (.field _ (by omega) (.trailer (by omega))))
  | commEventLog => exact laid_commEventLogPlan bytes
  | writeMultiple target =>
    show Laid 8 2 4 (writeMultiplePlan target bytes)
    exact .require 8 (.field _ (by omega) (.field _ (by omega) (.trailer (by omega))))
  | reportServerId => exact laid_reportServerIdPlan bytes
  | maskWriteRegister => exact Echo.laid_maskWriteRegister bytes
  | exception => exact absurd rfl h

theorem laid_plan (n : Nat) {layout : ResponseLayout} {bytes : Bytes}
    (h : ofCode? (bytes.byte 1) = some layout) : Laid (layout.total n bytes) 2 4 (layout.plan n bytes) := by
  by_cases announced : layout = .exception
  · subst announced
    exact laid_exceptionPlan h
  · exact laid_regular n announced bytes

section Agreement

variable {bytes : Bytes} (more : Bytes) (h : 2 < bytes.length)

include h

theorem agree_readBitsPlan (space : AddressSpace) :
    Agree bytes.length (readBitsPlan space bytes) (readBitsPlan space (bytes ++ more)) := by
  simp only [readBitsPlan, Bytes.byte_append more h]
  exact .append (.append (.refl _ _) (Field.agree_bits _ _ _ _ _)) (.trailer _ _)

theorem agree_readRegistersPlan :
    Agree bytes.length (readRegistersPlan bytes) (readRegistersPlan (bytes ++ more)) := by
  simp only [readRegistersPlan, Bytes.byte_append more h]
  exact .append (.append (.refl _ _) (Field.agree_registers _ _ _ _)) (.trailer _ _)

theorem agree_commEventLogPlan :
    Agree bytes.length (commEventLogPlan bytes) (commEventLogPlan (bytes ++ more)) := by
  simp only [commEventLogPlan, Bytes.byte_append more h]
  refine .append (.append (.refl _ _) ?_) (.trailer _ _)
  by_cases long : ByteCountRule.eventLog.admits (bytes.byte 2)
  · rw [if_pos long, if_pos long]
    exact .append (.word 3 .commStatus more fun _ => .word 5 (.counter "Event count") more fun _ =>
      .word 7 (.counter "Message count") more fun _ => .nil) (Field.agree_events _ _ _ _)
  · rw [if_neg long, if_neg long]
    exact .nil

theorem agree_reportServerIdPlan :
    Agree bytes.length (reportServerIdPlan bytes) (reportServerIdPlan (bytes ++ more)) := by
  simp only [reportServerIdPlan, Bytes.byte_append more h]
  refine .append (.append ?_ ?_) (.byte _ .runIndicator more fun _ => .trailer _ _)
  · exact .cons _ fun _ => .cons _ fun _ => .cons _ fun _ => .cons _ fun _ =>
      .byte 3 .serverIdentity more fun _ => .nil
  · by_cases some : bytes.byte 2 ≠ 0
    · rw [if_pos some, if_pos some]
      refine .field _ (fun hl => ?_) fun _ => .nil
      rw [Bytes.slice_append more (by omega)]
    · rw [if_neg some, if_neg some]
      exact .nil

theorem agree_exceptionPlan :
    Agree bytes.length (exceptionPlan bytes) (exceptionPlan (bytes ++ more)) := by
  simp only [exceptionPlan, Bytes.byte_append more h, Bytes.byte_append more (Nat.lt_of_succ_lt h)]
  exact .refl _ _

theorem agree_plan (n : Nat) (layout : ResponseLayout) :
    Agree bytes.length (layout.plan n bytes) (layout.plan n (bytes ++ more)) := by
  cases layout with
  | readBits space => exact agree_readBitsPlan more h space
  | readRegisters => exact agree_readRegistersPlan more h
  | writeSingleCoil => exact Echo.agree_writeSingleCoil bytes more
  | writeSingleRegister => exact Echo.agree_writeSingleRegister bytes more
  | readExceptionStatus =>
    exact .cons _ fun _ => .byte 2 .exceptionStatus more fun _ => .trailer _ _
  | diagnostics => exact Echo.agree_diagnostics n bytes more
  | commEventCounter =>
    exact .cons _ fun _ => .word 2 .commStatus more fun _ =>
      .word 4 (.counter "Event count") more fun _ => .trailer _ _
  | commEventLog => exact agree_commEventLogPlan more h
  | writeMultiple target =>
    exact .cons _ fun _ => .word 2 (.address "Start at address" target.space) more fun _ =>
      .word 4 (.quantity ⟨target.maxQuantity, "Wrote", target.noun⟩) more fun _ => .trailer _ _
  | reportServerId => exact agree_reportServerIdPlan more h
  | maskWriteRegister => exact Echo.agree_maskWriteRegister bytes more
  | exception => exact agree_exceptionPlan more h

end Agreement

end ResponseLayout

end ModbusRtu
