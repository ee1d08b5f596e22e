import ModbusRtu.Proofs.Layouts

/-! Which values the fields accept. Most take any value; the others name the values they take, so a plan
accepts a frame exactly if those fields do and the check sum is right. -/

namespace ModbusRtu

open Item

theorem Note.isError_eq_false {note : Note} (h : note.kind ≠ .error) :
    note.isError = false ↔ note.accepted = true := by
  rw [isError, category]
  cases note.accepted with
  | true => simp [h]
  | false => simp

theorem one_le_byte_iff {b : UInt8} : 1 ≤ b ↔ b ≠ 0 := by
  rw [UInt8.le_iff_toNat_le, ne_eq, ← UInt8.toNat_inj]
  exact Nat.one_le_iff_ne_zero

namespace Note

theorem accepted_quantity {transfer : Transfer} {amount : UInt16} :
    (quantity transfer amount).accepted = true ↔ 1 ≤ amount ∧ amount ≤ transfer.limit := by
  show (decide (1 ≤ amount) && decide (amount ≤ transfer.limit)) = true ↔ _
  rw [Bool.and_eq_true, decide_eq_true_eq, decide_eq_true_eq]

theorem accepted_coilValue {value : UInt16} :
    (coilValue value).accepted = true ↔ value = 0x0000 ∨ value = 0xFF00 := by
  show (decide (value = 0x0000) || decide (value = 0xFF00)) = true ↔ _
  rw [Bool.or_eq_true, decide_eq_true_eq, decide_eq_true_eq]

theorem accepted_commStatus {value : UInt16} :
    (commStatus value).accepted = true ↔ value = 0x0000 ∨ value = 0xFFFF := by
  show (decide (value = 0x0000) || decide (value = 0xFFFF)) = true ↔ _
  rw [Bool.or_eq_true, decide_eq_true_eq, decide_eq_true_eq]

theorem accepted_runIndicator {value : UInt8} :
    (runIndicator value).accepted = true ↔ value = 0x00 ∨ value = 0xFF := by
  show (decide (value = 0x00) || decide (value = 0xFF)) = true ↔ _
  rw [Bool.or_eq_true, decide_eq_true_eq, decide_eq_true_eq]

theorem accepted_requestId {id : UInt8} :
    (serverId .request id).accepted = true ↔ id ≤ Limits.maxServerId :=
  decide_eq_true_iff

end Note

theorem Subfunction.isSome_ofWord? {w : UInt16} :
    (ofWord? w).isSome ↔ ∃ s : Subfunction, w = s.code := by
  constructor
  · intro h
    obtain ⟨s, hs⟩ := Option.isSome_iff_exists.mp h
    refine ⟨s, ?_⟩
    unfold ofWord? at hs
    split at hs
    case h_16 => cases hs
    all_goals
      obtain rfl := Option.some.inj hs
      rfl
  · rintro ⟨s, rfl⟩
    rw [ofWord?_code]
    rfl

theorem Note.accepted_subfunction {code : UInt16} :
    (subfunction code).accepted = true ↔ ∃ s : Subfunction, code = s.code :=
  Subfunction.isSome_ofWord?

variable {v : Bytes} {p : Plan}

namespace Plan

theorem accepts_nil : Accepts v [] := fun _ hmem => nomatch hmem

theorem accepts_due {last : Nat} {said : Note} (h : said.kind ≠ .error) :
    Accepts v (.due last said :: p) ↔ said.accepted = true ∧ p.Accepts v := by
  rw [accepts_cons, ← Note.isError_eq_false h]
  exact Iff.rfl

/-- A field that takes any value. -/
theorem accepts_valued {last : Nat} {said : Note} (h : said.isError = false) :
    Accepts v (.due last said :: p) ↔ p.Accepts v := by
  rw [accepts_cons]
  exact ⟨fun h => h.2, fun hp => ⟨h, hp⟩⟩

theorem accepts_require {length : Nat} : Accepts v (.require length :: p) ↔ p.Accepts v := by
  rw [accepts_cons]
  exact ⟨fun h => h.2, fun h => ⟨trivial, h⟩⟩

theorem accepts_await {index : Nat} : Accepts v (.await index :: p) ↔ p.Accepts v := by
  rw [accepts_cons]
  exact ⟨fun h => h.2, fun h => ⟨trivial, h⟩⟩

theorem accepts_trailer {last : Nat} :
    Accepts v [.trailer last] ↔ Checksum.checkFrame (v.take (last + 1)) = .ok () := by
  rw [accepts_cons]
  exact ⟨fun h => h.1, fun h => ⟨h, accepts_nil⟩⟩

/-- Repeated fields that take any value. -/
theorem accepts_map {places : List Nat} {last : Nat → Nat} {said : Nat → Note}
    (h : ∀ i, (said i).isError = false) :
    Accepts v (places.map fun i => .due (last i) (said i)) := by
  intro item hmem
  obtain ⟨i, -, rfl⟩ := List.mem_map.mp hmem
  exact h i

end Plan

open Plan

namespace Field

variable {bytes : Bytes}

theorem accepts_address {label : String} {space : AddressSpace} {index : Nat} :
    Accepts v (address label space index bytes :: p) ↔ p.Accepts v :=
  accepts_valued rfl

theorem accepts_mask {label : String} {index : Nat} :
    Accepts v (mask label index bytes :: p) ↔ p.Accepts v :=
  accepts_valued rfl

theorem accepts_quantity {transfer : Transfer} {index : Nat} :
    Accepts v (quantity transfer index bytes :: p) ↔
      (1 ≤ bytes.word index ∧ bytes.word index ≤ transfer.limit) ∧ p.Accepts v := by
  rw [quantity, accepts_due, Note.accepted_quantity]
  nofun

theorem accepts_ruledCount {last : Nat} {rule : ByteCountRule} {count : UInt8} :
    Accepts v (.due last (.ruledByteCount rule count) :: p) ↔ rule.admits count = true ∧ p.Accepts v := by
  rw [accepts_due]
  · exact Iff.rfl
  · nofun

/-- A byte count that has to agree with the quantity before it. -/
theorem accepts_implied {last expected : Nat} {count : UInt8} :
    Accepts v (.due last (.ruledByteCount (.implied expected) count) :: p) ↔
      count.toNat = expected ∧ p.Accepts v := by
  rw [accepts_ruledCount, ByteCountRule.admits, decide_eq_true_eq]

theorem accepts_commStatus {index : Nat} :
    Accepts v (commStatus index bytes :: p) ↔
      (bytes.word index = 0x0000 ∨ bytes.word index = 0xFFFF) ∧ p.Accepts v := by
  rw [commStatus, accepts_due, Note.accepted_commStatus]
  nofun

theorem accepts_counter {label : String} {index : Nat} :
    Accepts v (counter label index bytes :: p) ↔ p.Accepts v :=
  accepts_valued rfl

theorem accepts_bits (unit : String) (first count : Nat) : Accepts v (bits unit first count bytes) :=
  accepts_map fun _ => rfl

theorem accepts_events (first count : Nat) : Accepts v (events first count bytes) :=
  accepts_map fun _ => rfl

theorem accepts_registers (first count : Nat) : Accepts v (registers first count bytes) := by
  refine accepts_append.mpr ⟨accepts_map fun _ => rfl, ?_⟩
  split
  · exact (accepts_valued rfl).mpr accepts_nil
  · exact accepts_nil

end Field

namespace Echo

theorem accepts_writeSingleCoil :
    (writeSingleCoil v).Accepts v ↔
      (v.word 4 = 0x0000 ∨ v.word 4 = 0xFF00) ∧ Checksum.checkFrame (v.take 8) = .ok () := by
  rw [writeSingleCoil, accepts_require, Field.accepts_address, accepts_due, accepts_trailer,
    Note.accepted_coilValue]
  nofun

theorem accepts_writeSingleRegister :
    (writeSingleRegister v).Accepts v ↔ Checksum.checkFrame (v.take 8) = .ok () := by
  rw [writeSingleRegister, accepts_require, Field.accepts_address, accepts_valued, accepts_trailer]
  rfl

theorem accepts_maskWriteRegister :
    (maskWriteRegister v).Accepts v ↔ Checksum.checkFrame (v.take 10) = .ok () := by
  rw [maskWriteRegister, accepts_require, Field.accepts_address, Field.accepts_mask, Field.accepts_mask,
    accepts_trailer]

theorem accepts_diagnostics (n : Nat) :
    (diagnostics n v).Accepts v ↔
      (∃ s : Subfunction, v.word 2 = s.code) ∧ Checksum.checkFrame (v.take (6 + n)) = .ok () := by
  have data : Plan.Accepts v (if 0 < n then [due (3 + n) (.diagnosticData (v.slice 4 n))] else []) := by
    split
    · exact (accepts_valued rfl).mpr accepts_nil
    · exact accepts_nil
  have hlast : 5 + n + 1 = 6 + n := by omega
  rw [diagnostics, accepts_append, accepts_append, accepts_require, accepts_due, accepts_trailer,
    Note.accepted_subfunction, hlast]
  · constructor
    · rintro ⟨⟨⟨known, -⟩, -⟩, checksum⟩
      exact ⟨known, checksum⟩
    · rintro ⟨known, checksum⟩
      exact ⟨⟨⟨known, accepts_nil⟩, data⟩, checksum⟩
  · nofun

end Echo

/-- What every frame with a known function begins with. -/
theorem accepts_framePlan (role : Role) {said : Note} (h : said.isError = false) :
    (framePlan role (some (.ok said, p)) v).Accepts v ↔
      (Note.serverId role (v.byte 0)).accepted = true ∧ p.Accepts v := by
  rw [framePlan, List.cons_append, List.singleton_append, accepts_await, Field.serverId, accepts_due]
  · exact and_congr_right fun _ => accepts_valued h
  · nofun

end ModbusRtu
