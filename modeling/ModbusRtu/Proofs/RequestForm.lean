import ModbusRtu.Proofs.Acceptance
import ModbusRtu.Proofs.Lawful
import ModbusRtu.Proofs.Verdict

/-! The form of requests, written down without regard to how they are parsed, and that the requests which
are received and closed without an error are exactly those of this form. -/

namespace ModbusRtu

open Item Plan

/-- What each function asks of a request, `n` being the length of diagnostics data. -/
inductive RequestBody (n : Nat) (v : Bytes) : Prop
  | readBits (code : v.byte 1 = 1 ∨ v.byte 1 = 2) (length : v.length = 8)
      (quantity : 1 ≤ v.word 4 ∧ v.word 4 ≤ 2000)
  | readRegisters (code : v.byte 1 = 3 ∨ v.byte 1 = 4) (length : v.length = 8)
      (quantity : 1 ≤ v.word 4 ∧ v.word 4 ≤ 125)
  | writeSingleCoil (code : v.byte 1 = 5) (length : v.length = 8)
      (value : v.word 4 = 0x0000 ∨ v.word 4 = 0xFF00)
  | writeSingleRegister (code : v.byte 1 = 6) (length : v.length = 8)
  | noData (code : v.byte 1 = 7 ∨ v.byte 1 = 11 ∨ v.byte 1 = 12 ∨ v.byte 1 = 17) (length : v.length = 4)
  | diagnostics (code : v.byte 1 = 8) (length : v.length = 6 + n)
      (subfunction : ∃ s : Subfunction, v.word 2 = s.code)
  | writeCoils (code : v.byte 1 = 15) (length : v.length = 9 + (v.byte 6).toNat)
      (quantity : 1 ≤ v.word 4 ∧ v.word 4 ≤ 1968) (count : (v.byte 6).toNat = ((v.word 4).toNat + 7) / 8)
  | writeRegisters (code : v.byte 1 = 16) (length : v.length = 9 + (v.byte 6).toNat)
      (quantity : 1 ≤ v.word 4 ∧ v.word 4 ≤ 123) (count : (v.byte 6).toNat = 2 * (v.word 4).toNat)
  | maskWriteRegister (code : v.byte 1 = 22) (length : v.length = 10)
  | exchangeRegisters (code : v.byte 1 = 23) (length : v.length = 13 + (v.byte 10).toNat)
      (read : 1 ≤ v.word 4 ∧ v.word 4 ≤ 125) (written : 1 ≤ v.word 8 ∧ v.word 8 ≤ 121)
      (count : (v.byte 10).toNat = 2 * (v.word 8).toNat)

structure RequestForm (n : Nat) (v : Bytes) : Prop where
  server : v.byte 0 ≤ 247
  checksum : Checksum.checkFrame v = .ok ()
  body : RequestBody n v

namespace RequestLayout

/-- What a request of the layout asks of the values of its fields. -/
def Admits (layout : RequestLayout) (v : Bytes) : Prop :=
  match layout with
  | readBits _ => 1 ≤ v.word 4 ∧ v.word 4 ≤ 2000
  | readRegisters _ => 1 ≤ v.word 4 ∧ v.word 4 ≤ 125
  | writeSingleCoil => v.word 4 = 0x0000 ∨ v.word 4 = 0xFF00
  | writeSingleRegister | noData | maskWriteRegister => True
  | diagnostics => ∃ s : Subfunction, v.word 2 = s.code
  | writeMultiple target =>
    (1 ≤ v.word 4 ∧ v.word 4 ≤ target.maxQuantity) ∧ (v.byte 6).toNat = target.byteCount (v.word 4)
  | readWriteMultipleRegisters =>
    (1 ≤ v.word 4 ∧ v.word 4 ≤ 125) ∧ (1 ≤ v.word 8 ∧ v.word 8 ≤ 121) ∧
      (v.byte 10).toNat = 2 * (v.word 8).toNat

theorem accepts_readPlan (space : AddressSpace) (limit : UInt16) (v : Bytes) :
    (readPlan space limit v).Accepts v ↔
      (1 ≤ v.word 4 ∧ v.word 4 ≤ limit) ∧ Checksum.checkFrame (v.take 8) = .ok () := by
  rw [readPlan, accepts_require, Field.accepts_address, Field.accepts_quantity, accepts_trailer]

theorem accepts_writePlan (target : WriteTarget) (v : Bytes) :
    (writePlan target v).Accepts v ↔
      ((1 ≤ v.word 4 ∧ v.word 4 ≤ target.maxQuantity) ∧
        (v.byte 6).toNat = target.byteCount (v.word 4)) ∧
      Checksum.checkFrame (v.take (9 + (v.byte 6).toNat)) = .ok () := by
  have payload : (writePayload target 7 (v.byte 6).toNat v).Accepts v := by
    cases target with
    | coils => exact Field.accepts_bits _ _ _
    | registers => exact Field.accepts_registers _ _
  have hlast : 8 + (v.byte 6).toNat + 1 = 9 + (v.byte 6).toNat := by omega
  rw [writePlan, accepts_append, accepts_append, accepts_require, Field.accepts_address,
    Field.accepts_quantity, accepts_await, accepts_require, Field.accepts_implied, accepts_trailer, hlast]
  constructor
  · rintro ⟨⟨⟨quantity, count, -⟩, -⟩, checksum⟩
    exact ⟨⟨quantity, count⟩, checksum⟩
  · rintro ⟨⟨quantity, count⟩, checksum⟩
    exact ⟨⟨⟨quantity, count, accepts_nil⟩, payload⟩, checksum⟩

theorem accepts_exchangePlan (v : Bytes) :
    (exchangePlan v).Accepts v ↔
      ((1 ≤ v.word 4 ∧ v.word 4 ≤ 125) ∧ (1 ≤ v.word 8 ∧ v.word 8 ≤ 121) ∧
        (v.byte 10).toNat = 2 * (v.word 8).toNat) ∧
      Checksum.checkFrame (v.take (13 + (v.byte 10).toNat)) = .ok () := by
  have payload : (Field.registers 11 (v.byte 10).toNat v).Accepts v := Field.accepts_registers _ _
  have hlast : 12 + (v.byte 10).toNat + 1 = 13 + (v.byte 10).toNat := by omega
  rw [exchangePlan, accepts_append, accepts_append, accepts_require, Field.accepts_address,
    Field.accepts_quantity, Field.accepts_address, Field.accepts_quantity, accepts_await, accepts_require,
    Field.accepts_implied, accepts_trailer, hlast]
  constructor
  · rintro ⟨⟨⟨read, written, count, -⟩, -⟩, checksum⟩
    exact ⟨⟨read, written, count⟩, checksum⟩
  · rintro ⟨⟨read, written, count⟩, checksum⟩
    exact ⟨⟨⟨read, written, count, accepts_nil⟩, payload⟩, checksum⟩

theorem accepts_plan (n : Nat) (layout : RequestLayout) (v : Bytes) :
    (layout.plan n v).Accepts v ↔
      layout.Admits v ∧ Checksum.checkFrame (v.take (layout.total n v)) = .ok () := by
  cases layout with
  | readBits space => exact accepts_readPlan space _ v
  | readRegisters space => exact accepts_readPlan space _ v
  | writeSingleCoil => exact Echo.accepts_writeSingleCoil
  | writeSingleRegister => exact Echo.accepts_writeSingleRegister.trans (Iff.of_eq (true_and _)).symm
  | noData => exact accepts_trailer.trans (Iff.of_eq (true_and _)).symm
  | diagnostics => exact Echo.accepts_diagnostics n
  | writeMultiple target => exact accepts_writePlan target v
  | maskWriteRegister => exact Echo.accepts_maskWriteRegister.trans (Iff.of_eq (true_and _)).symm
  | readWriteMultipleRegisters => exact accepts_exchangePlan v

theorem total_le {n : Nat} (hn : n ≤ 250) {layout : RequestLayout} {v : Bytes} (h : layout.Admits v) :
    layout.total n v ≤ Limits.maxFrameLength := by
  simp only [Limits.maxFrameLength]
  cases layout with
  | diagnostics => exact Nat.add_le_add_left hn 6
  | writeMultiple target =>
    obtain ⟨⟨-, hmax⟩, hcount⟩ := h
    have hq := UInt16.le_iff_toNat_le.mp hmax
    show 9 + (v.byte 6).toNat ≤ 256
    rw [hcount]
    cases target with
    | coils =>
      have : (v.word 4).toNat ≤ 1968 := hq
      simp only [WriteTarget.byteCount]
      omega
    | registers =>
      have : (v.word 4).toNat ≤ 123 := hq
      simp only [WriteTarget.byteCount]
      omega
  | readWriteMultipleRegisters =>
    obtain ⟨-, ⟨-, hmax⟩, hcount⟩ := h
    have hq : (v.word 8).toNat ≤ 121 := UInt16.le_iff_toNat_le.mp hmax
    show 13 + (v.byte 10).toNat ≤ 256
    omega
  | _ => simp [total]

end RequestLayout

theorem requestBody_iff {n : Nat} {v : Bytes} :
    RequestBody n v ↔ ∃ layout, RequestLayout.ofCode? (v.byte 1) = some layout ∧
      v.length = layout.total n v ∧ layout.Admits v := by
  constructor
  · intro h
    cases h with
    | readBits code length quantity =>
      rcases code with code | code
      · exact ⟨.readBits .coils, by rw [code]; rfl, length, quantity⟩
      · exact ⟨.readBits .discreteInputs, by rw [code]; rfl, length, quantity⟩
    | readRegisters code length quantity =>
      rcases code with code | code
      · exact ⟨.readRegisters .holdingRegisters, by rw [code]; rfl, length, quantity⟩
      · exact ⟨.readRegisters .inputRegisters, by rw [code]; rfl, length, quantity⟩
    | writeSingleCoil code length value => exact ⟨.writeSingleCoil, by rw [code]; rfl, length, value⟩
    | writeSingleRegister code length =>
      exact ⟨.writeSingleRegister, by rw [code]; rfl, length, trivial⟩
    | noData code length =>
      refine ⟨.noData, ?_, length, trivial⟩
      rcases code with code | code | code | code
      all_goals
        rw [code]
        rfl
    | diagnostics code length subfunction =>
      exact ⟨.diagnostics, by rw [code]; rfl, length, subfunction⟩
    | writeCoils code length quantity count =>
      exact ⟨.writeMultiple .coils, by rw [code]; rfl, length, quantity, count⟩
    | writeRegisters code length quantity count =>
      exact ⟨.writeMultiple .registers, by rw [code]; rfl, length, quantity, count⟩
    | maskWriteRegister code length => exact ⟨.maskWriteRegister, by rw [code]; rfl, length, trivial⟩
    | exchangeRegisters code length read written count =>
      exact ⟨.readWriteMultipleRegisters, by rw [code]; rfl, length, read, written, count⟩
  · rintro ⟨layout, code, length, admits⟩
    unfold RequestLayout.ofCode? at code
    split at code
    case h_16 => cases code
    all_goals
      rename_i hcode
      obtain rfl := Option.some.inj code
    · exact .readBits (Or.inl hcode) length admits
    · exact .readBits (Or.inr hcode) length admits
    · exact .readRegisters (Or.inl hcode) length admits
    · exact .readRegisters (Or.inr hcode) length admits
    · exact .writeSingleCoil hcode length admits
    · exact .writeSingleRegister hcode length
    · exact .noData (Or.inl hcode) length
    · exact .diagnostics hcode length admits
    · exact .noData (Or.inr (Or.inl hcode)) length
    · exact .noData (Or.inr (Or.inr (Or.inl hcode))) length
    · exact .writeCoils hcode length admits.1 admits.2
    · exact .writeRegisters hcode length admits.1 admits.2
    · exact .noData (Or.inr (Or.inr (Or.inr hcode))) length
    · exact .maskWriteRegister hcode length
    · exact .exchangeRegisters hcode length admits.1 admits.2.1 admits.2.2

theorem requestForm_iff {n : Nat} (hn : n ≤ 250) {v : Bytes} {layout : RequestLayout}
    (h : RequestLayout.ofCode? (v.byte 1) = some layout) :
    RequestForm n v ↔ v.length = layout.total n v ∧ v.length ≤ Limits.maxFrameLength ∧
      v.byte 0 ≤ Limits.maxServerId ∧ (layout.plan n v).Accepts v := by
  rw [RequestLayout.accepts_plan]
  constructor
  · rintro ⟨server, checksum, body⟩
    obtain ⟨other, code, length, admits⟩ := requestBody_iff.mp body
    obtain rfl := Option.some.inj (h.symm.trans code)
    rw [← length, List.take_length]
    exact ⟨rfl, length ▸ layout.total_le hn admits, server, admits, checksum⟩
  · rintro ⟨length, -, server, admits, checksum⟩
    rw [← length, List.take_length] at checksum
    exact ⟨server, checksum, requestBody_iff.mpr ⟨layout, h, length, admits⟩⟩

/-- Requests that are received and closed without an error are exactly those of the form. -/
theorem live_request_iff_form (n : Nat) (hn : n ≤ 250) (start : Time) (bytes : List Byte) (h : bytes ≠ [])
    (options : CloseOptions) :
    let o := (requestGrammar n).live (.opened .request start) bytes options
    o.result = .ok () ∧ (o.state.hasError = false ↔ RequestForm n (bytes.map Byte.value)) := by
  intro o
  let v : Bytes := bytes.map Byte.value
  have hg := lawful_requestGrammar n
  refine ⟨(hg.live_spec .request start h options).1, ?_⟩
  cases hl : RequestLayout.ofCode? (v.byte 1) with
  | none =>
    have unknown : (requestGrammar n).recognizes (v.byte 1) = false := by
      simp only [requestGrammar, hl, Option.isSome_none]
    have plan : (requestGrammar n).plan v = framePlan .request none v := by
      simp only [requestGrammar, hl, Option.map_none]
    refine iff_of_false (hg.live_unknown start h options rfl plan unknown) (fun form => ?_)
    obtain ⟨layout, code, -⟩ := requestBody_iff.mp form.body
    rw [hl] at code
    cases code
  | some layout =>
    obtain ⟨name, hname⟩ := RequestLayout.functionNote_of_ofCode? hl
    have known : (requestGrammar n).recognizes (v.byte 1) = true := by
      simp only [requestGrammar, hl, Option.isSome_some]
    have plan : (requestGrammar n).plan v =
        framePlan .request (some (.ok (.function (v.byte 1) name), layout.plan n v)) v := by
      simp only [requestGrammar, hl, Option.map_some, hname]
    rw [hg.live_known start h options rfl plan known rfl (layout.laid_plan n v), Note.accepted_requestId,
      requestForm_iff hn hl]

theorem live_request_iff_form_statusQuery :
    let v : Bytes := statusQuery.map Byte.value
    (2 ≤ 250 ∧ statusQuery ≠ []) ∧ RequestForm 2 v ∧
      ((requestGrammar 2).live (.opened .request 0) statusQuery ⟨10, true⟩).state.hasError = false := by
  intro v
  have hn : 2 ≤ 250 := by decide
  have hs : statusQuery ≠ [] := by decide
  have sum : Checksum.crc [0x11, 0x07] = Word.join 0x22 0x4C := by decide +kernel
  have checksum : Checksum.checkFrame v = .ok () := (if_neg (by decide)).trans (if_pos sum)
  have form : RequestForm 2 v := ⟨by decide, checksum, .noData (Or.inl rfl) rfl⟩
  exact ⟨⟨hn, hs⟩, form, (live_request_iff_form 2 hn 0 statusQuery hs ⟨10, true⟩).2.mpr form⟩

end ModbusRtu
