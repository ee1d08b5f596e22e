import ModbusRtu.Proofs.FieldTable
import ModbusRtu.Proofs.Lawful

/-! Plans follow the table of fields. What a parse reports of a frame with a known function is therefore
the part of the table that the bytes received so far fill. -/

namespace ModbusRtu

open Item Plan FieldTable

/-- The bytes, the category and the note of an entry. -/
def Entry.row (e : Entry) : Option (Nat × Nat) × Category × Note :=
  (some (e.first, e.last), e.category, e.note)

/-- A report in the columns of the table. -/
def Report.row (r : Report) : Option (Nat × Nat) × Category × Note := (r.covers, r.span.category, r.note)

theorem Report.row_eq_iff {r : Report} {range : Option (Nat × Nat)} {category : Category} {note : Note} :
    r.row = (range, category, note) ↔ r.covers = range ∧ r.span.category = category ∧ r.note = note := by
  rw [row, Prod.mk.injEq, Prod.mk.injEq]

theorem Report.exists_entry {reports : List Report} {table : List Entry}
    (rows : reports.map row = table.map Entry.row) {r : Report} (hr : r ∈ reports) :
    ∃ e ∈ table, r.covers = some (e.first, e.last) ∧ r.span.category = e.category ∧ r.note = e.note := by
  have mem : r.row ∈ reports.map row := List.mem_map_of_mem hr
  rw [rows] at mem
  obtain ⟨e, he, same⟩ := List.mem_map.mp mem
  exact ⟨e, he, row_eq_iff.mp same.symm⟩

/-- The field from `first` to `last` is the slot's, and `said` is what the slot says of it. -/
structure Slot.Holds (slot : Slot) (first last : Nat) (said : Note) : Prop where
  within : first ≤ last ∧ last + 1 = first + slot.width
  note : slot.note first = said
  category : (if slot.keeps first then slot.category else .error) = said.category

theorem Slot.Holds.entry {slot : Slot} {first last : Nat} {said : Note} (h : slot.Holds first last said) :
    slot.entry first = ⟨first, last, said.category, said⟩ := by
  have hlast : first + slot.width - 1 = last := by
    have := h.within
    omega
  simp only [Slot.entry, hlast, h.note, h.category]

theorem FieldTable.holds_serverId (v : Bytes) (role : Role) :
    (serverId v role).Holds 0 0 (.serverId role (v.byte 0)) := by
  refine ⟨⟨Nat.le_refl 0, rfl⟩, rfl, ?_⟩
  cases role with
  | request => rfl
  | response => rfl

theorem FieldTable.category_checksum {v : Bytes} (skipped first : Nat) :
    (if (checksum v skipped).keeps first then (checksum v skipped).category else .error) =
      ((checksum v skipped).note first).category := by
  simp only [checksum]
  by_cases right : v.slice (first + skipped) 2 = Checksum.trailer (v.take (first + skipped))
  · simp only [right, decide_true, if_true]
    rfl
  · simp only [right, decide_false, if_false]
    rfl

namespace Plan

variable {v : Bytes}

/-- The plan has the fields of the slots, one right after the other from `first` on. -/
inductive Tiles (v : Bytes) : Nat → Plan → List Slot → Prop
  | require {first : Nat} {p : Plan} {slots : List Slot} (length : Nat) (rest : Tiles v first p slots) :
      Tiles v first (.require length :: p) slots
  | await {first index : Nat} {p : Plan} {slots : List Slot} (h : index ≤ first)
      (rest : Tiles v first p slots) : Tiles v first (.await index :: p) slots
  | field {first last : Nat} {p : Plan} {slots : List Slot} {said : Note} {slot : Slot}
      (h : slot.Holds first last said) (rest : Tiles v (last + 1) p slots) :
      Tiles v first (.due last said :: p) (slot :: slots)
  | trailer {first last : Nat} (skipped : Nat) (h : 3 ≤ last ∧ last + 1 = first + (skipped + 2)) :
      Tiles v first [.trailer last] [checksum v skipped]

theorem Tiles.le_last {first : Nat} {p : Plan} {slots : List Slot} (h : Tiles v first p slots) :
    ∀ e ∈ entries first slots, first ≤ e.last := by
  induction h with
  | require length rest ih => exact ih
  | await h rest ih => exact ih
  | @field first last p slots said slot h rest ih =>
    obtain ⟨hf, hw⟩ := h.within
    rw [hw] at ih
    intro e he
    rcases List.mem_cons.mp he with rfl | he
    · rw [h.entry]
      exact hf
    · exact Nat.le_trans (by omega) (ih e he)
  | @trailer first last skipped h =>
    intro e he
    obtain rfl := List.mem_singleton.mp he
    show first ≤ first + (skipped + 2) - 1
    omega

theorem Tiles.says {first : Nat} {p : Plan} {slots : List Slot} (h : Tiles v first p slots) :
    ∀ item ∈ p, item.Says fun _ said => said.ofField = true := by
  induction h with
  | require length rest ih => exact List.forall_mem_cons.mpr ⟨trivial, ih⟩
  | await h rest ih => exact List.forall_mem_cons.mpr ⟨trivial, ih⟩
  | @field first last p slots said slot h rest ih =>
    refine List.forall_mem_cons.mpr ⟨fun told ht => ?_, ih⟩
    rw [← Except.ok.inj ht, ← h.note]
    exact slot.ofField first
  | trailer skipped h => exact List.forall_mem_singleton.mpr ⟨rfl, fun _ => rfl⟩

theorem Tiles.filter_eq_nil {first n : Nat} {p : Plan} {slots : List Slot} (h : Tiles v first p slots)
    (hn : n ≤ first) : (entries first slots).filter (fun e => e.last < n) = [] := by
  rw [List.filter_eq_nil_iff]
  intro e he filled
  have := h.le_last e he
  have := of_decide_eq_true filled
  omega

/-- A field at the cursor is reported if its last byte has arrived, and stops the sweep otherwise. -/
theorem reports_field {first last : Nat} {p : Plan} {slots : List Slot} {slot : Slot} {said : Note}
    {f : Frame} (h : slot.Holds first last said) (hc : f.covered = first) {n : Nat} (hn : n = f.length)
    (later : ((p.sweep (f.reportedTo last said)).reports.map Report.row =
      ((entries (first + slot.width) slots).filter fun e => e.last < n).map Entry.row))
    (pending : n ≤ last → ((entries (first + slot.width) slots).filter fun e => e.last < n) = []) :
    (sweep (.due last said :: p) f).reports.map Report.row =
      ((entries first (slot :: slots)).filter fun e => e.last < n).map Entry.row := by
  have hlast : (slot.entry first).last = last := by rw [h.entry]
  by_cases hl : last < n
  · obtain ⟨r, rfl, hcovers, hs⟩ := sweep_cons_due said p (hc ▸ h.within.1) (hn ▸ hl)
    have hrow : r.row = (slot.entry first).row := by
      rw [Report.row, hcovers, hc, h.entry]
      rfl
    simp only [hs, entries, List.filter_cons, hlast, hl, decide_true, if_true, List.map_cons, hrow, later]
  · have hw : (Item.due last said).Waits f.length := hn ▸ Nat.not_lt.mp hl
    rw [sweep_cons_of_waits p hw]
    simp [entries, hlast, hl, pending (Nat.not_lt.mp hl), Outcome.done]

/-- A sweep that begins at the first slot reports the slots whose last byte has arrived. -/
theorem Tiles.reports_sweep {first : Nat} {p : Plan} {slots : List Slot} (h : Tiles v first p slots)
    (f : Frame) (hv : f.values = v) (hc : f.covered = first) :
    (p.sweep f).reports.map Report.row =
      ((entries first slots).filter fun e => e.last < v.length).map Entry.row := by
  have hlen : v.length = f.length := by rw [← hv, Frame.length_values]
  induction h generalizing f with
  | require length rest ih => exact ih (f.require length) hv hc hlen
  | @await first index p slots hi rest ih =>
    by_cases hw : (Item.await index).Waits f.length
    · have hw' : f.length ≤ index := hw
      rw [sweep_cons_of_waits p hw, rest.filter_eq_nil (by omega)]
      rfl
    · have passed : Passed f (.await index) := Nat.not_le.mp hw
      rw [sweep_cons_of_passed p passed]
      exact ih f hv hc hlen
  | @field first last p slots said slot h rest ih =>
    have later := ih (f.reportedTo last said) hv rfl hlen
    rw [h.within.2] at later
    refine reports_field h hc hlen later fun hn => ?_
    rw [← h.within.2]
    exact rest.filter_eq_nil (Nat.le_succ_of_le hn)
  | @trailer first last skipped h =>
    obtain ⟨h3, hlast⟩ := h
    by_cases hl : last < f.length
    · have hs : last = first + skipped + 1 := by omega
      have hn := Frame.trailerNote_eq h3 hl hs
      rw [hv] at hn
      rw [sweep_trailer hn]
      have field : (checksum v skipped).Holds first last ((checksum v skipped).note first) :=
        ⟨⟨by omega, hlast⟩, rfl, category_checksum skipped first⟩
      refine reports_field (f := f.require (last + 1)) field hc hlen ?_ fun _ => ?_
      · rfl
      · rfl
    · have hw : (Item.trailer last).Waits f.length := Nat.not_lt.mp hl
      rw [sweep_cons_of_waits [] hw]
      simp [entries, Slot.entry, checksum, Outcome.done]
      omega

theorem Tiles.byte {first : Nat} {p : Plan} {slots : List Slot} {said : Note} {slot : Slot}
    (hw : slot.width = 1) (note : slot.note first = said)
    (category : (if slot.keeps first then slot.category else .error) = said.category)
    (rest : Tiles v (first + 1) p slots) : Tiles v first (.due first said :: p) (slot :: slots) :=
  .field ⟨⟨Nat.le_refl _, by rw [hw]⟩, note, category⟩ rest

theorem Tiles.word {first : Nat} {p : Plan} {slots : List Slot} {said : Note} {slot : Slot}
    (hw : slot.width = 2) (note : slot.note first = said)
    (category : (if slot.keeps first then slot.category else .error) = said.category)
    (rest : Tiles v (first + 2) p slots) : Tiles v first (.due (first + 1) said :: p) (slot :: slots) :=
  .field ⟨⟨Nat.le_succ _, by rw [hw]⟩, note, category⟩ rest

theorem Tiles.map {first w count : Nat} {p : Plan} {slots : List Slot} (last : Nat → Nat)
    (said : Nat → Note) (slot : Nat → Slot) (hw : ∀ k, (slot k).width = w)
    (h : ∀ k, (slot k).Holds (first + w * k) (last k) (said k))
    (rest : Tiles v (first + w * count) p slots) :
    Tiles v first ((List.range count).map (fun k => .due (last k) (said k)) ++ p)
      ((List.range count).map slot ++ slots) := by
  induction count generalizing p slots with
  | zero => exact rest
  | succ count ih =>
    have hlast : last count + 1 = first + w * (count + 1) := by
      rw [(h count).within.2, hw, Nat.mul_succ, Nat.add_assoc]
    rw [← hlast] at rest
    simpa only [List.range_succ, List.map_append, List.map_cons, List.map_nil, List.append_assoc,
      List.singleton_append] using ih (.field (h count) rest)

end Plan

namespace FieldTable

variable {v : Bytes} {p : Plan} {slots : List Slot}

theorem tiles_bits (unit : String) {first count : Nat} (rest : Tiles v (first + count) p slots) :
    Tiles v first (Field.bits unit first count v ++ p) (bits v unit count ++ slots) := by
  refine .map (w := 1) (fun k => first + k) _ _ (fun k => rfl) (fun k => ?_) (by rwa [Nat.one_mul])
  rw [Nat.one_mul]
  exact ⟨⟨Nat.le_refl _, rfl⟩, rfl, rfl⟩

theorem tiles_events {first count : Nat} (rest : Tiles v (first + count) p slots) :
    Tiles v first (Field.events first count v ++ p) (events v count ++ slots) := by
  refine .map (w := 1) (fun k => first + k) _ _ (fun k => rfl) (fun k => ?_) (by rwa [Nat.one_mul])
  rw [Nat.one_mul]
  exact ⟨⟨Nat.le_refl _, rfl⟩, rfl, rfl⟩

theorem tiles_registers {first count : Nat} (rest : Tiles v (first + count) p slots) :
    Tiles v first (Field.registers first count v ++ p) (registers v count ++ slots) := by
  rw [Field.registers, registers, List.append_assoc, List.append_assoc]
  refine .map (w := 2) (fun k => first + 2 * k + 1) _ _ (fun k => rfl)
    (fun k => ⟨⟨Nat.le_succ _, rfl⟩, rfl, rfl⟩) ?_
  by_cases odd : count % 2 = 1
  · have hlast : first + (count - 1) = first + 2 * (count / 2) := by omega
    rw [if_pos odd, if_pos odd, hlast]
    refine .byte rfl rfl rfl ?_
    rwa [show first + 2 * (count / 2) + 1 = first + count by omega]
  · rw [if_neg odd, if_neg odd, show first + 2 * (count / 2) = first + count by omega]
    exact rest

theorem tiles_block {first last count : Nat} {note : Bytes → Note} (hl : last + 1 = first + count)
    (category : ∀ values, (note values).category = .data) (ofField : ∀ values, (note values).ofField = true)
    (rest : Tiles v (first + count) p slots) :
    Tiles v first ((if 0 < count then [.due last (note (v.slice first count))] else []) ++ p)
      (block v count note ofField ++ slots) := by
  rw [block]
  by_cases some : 0 < count
  · rw [if_pos some, if_pos some]
    rw [← hl] at rest
    exact .field ⟨⟨by omega, hl⟩, rfl, (category _).symm⟩ rest
  · have none : first + count = first := by omega
    rw [if_neg some, if_neg some]
    rwa [none] at rest

theorem tiles_writeCoil : Tiles v 2 (Echo.writeSingleCoil v) (writeCoil v) :=
  .require 8 (.word rfl rfl rfl (.word rfl rfl rfl (.trailer 0 (by omega))))

theorem tiles_writeRegister : Tiles v 2 (Echo.writeSingleRegister v) (writeRegister v) :=
  .require 8 (.word rfl rfl rfl (.word rfl rfl rfl (.trailer 0 (by omega))))

theorem tiles_maskWrite : Tiles v 2 (Echo.maskWriteRegister v) (maskWrite v) :=
  .require 10 (.word rfl rfl rfl (.word rfl rfl rfl (.word rfl rfl rfl (.trailer 0 (by omega)))))

theorem tiles_diagnostics (n : Nat) : Tiles v 2 (Echo.diagnostics n v) (diagnostics v n) := by
  refine .require (6 + n) (.word rfl rfl rfl ?_)
  exact tiles_block (by omega) (fun _ => rfl) _ (.trailer 0 (by omega))

theorem tiles_read (space : AddressSpace) (limit : UInt16) :
    Tiles v 2 (RequestLayout.readPlan space limit v) (read v space limit) :=
  .require 8 (.word rfl rfl rfl (.word rfl rfl rfl (.trailer 0 (by omega))))

theorem tiles_writeCoils : Tiles v 2 (RequestLayout.writePlan .coils v) (writeCoils v) := by
  refine .require 9 (.word rfl rfl rfl (.word rfl rfl rfl ?_))
  refine .await (by omega) (.require _ (.byte rfl rfl rfl ?_))
  exact tiles_bits _ (.trailer 0 (by omega))

theorem tiles_writeRegisters : Tiles v 2 (RequestLayout.writePlan .registers v) (writeRegisters v) := by
  refine .require 9 (.word rfl rfl rfl (.word rfl rfl rfl ?_))
  refine .await (by omega) (.require _ (.byte rfl rfl rfl ?_))
  exact tiles_registers (.trailer 0 (by omega))

theorem tiles_exchange : Tiles v 2 (RequestLayout.exchangePlan v) (exchange v) := by
  refine .require 13 (.word rfl rfl rfl (.word rfl rfl rfl (.word rfl rfl rfl (.word rfl rfl rfl ?_))))
  refine .await (by omega) (.require _ (.byte rfl rfl rfl ?_))
  exact tiles_registers (.trailer 0 (by omega))

theorem tiles_statesRead (space : AddressSpace) :
    Tiles v 2 (ResponseLayout.readBitsPlan space v) (statesRead v space.unit) := by
  refine .require 5 (.await (by omega) (.require _ (.byte rfl rfl rfl ?_)))
  exact tiles_bits _ (.trailer 0 (by omega))

theorem tiles_registersRead : Tiles v 2 (ResponseLayout.readRegistersPlan v) (registersRead v) := by
  refine .require 5 (.await (by omega) (.require _ (.byte rfl rfl rfl ?_)))
  exact tiles_registers (.trailer 0 (by omega))

theorem tiles_eventLog : Tiles v 2 (ResponseLayout.commEventLogPlan v) (eventLog v) := by
  refine .require 5 (.await (by omega) (.require _ (.byte rfl rfl rfl ?_)))
  by_cases long : 6 ≤ v.byte 2
  · have long' : 6 ≤ (v.byte 2).toNat := UInt8.le_iff_toNat_le.mp long
    have admitted : ByteCountRule.eventLog.admits (v.byte 2) = true := decide_eq_true long
    rw [if_pos admitted, if_pos long']
    refine .word rfl rfl rfl (.word rfl rfl rfl (.word rfl rfl rfl ?_))
    exact tiles_events (.trailer 0 (by omega))
  · have long' : ¬ 6 ≤ (v.byte 2).toNat := fun h => long (UInt8.le_iff_toNat_le.mpr h)
    have refused : ¬ ByteCountRule.eventLog.admits (v.byte 2) = true := fun h => long (of_decide_eq_true h)
    rw [if_neg refused, if_neg long']
    exact .trailer _ (by omega)

theorem tiles_written (target : WriteTarget) :
    Tiles v 2 (ResponseLayout.writeMultiplePlan target v)
      (written v target.space target.maxQuantity target.noun) :=
  .require 8 (.word rfl rfl rfl (.word rfl rfl rfl (.trailer 0 (by omega))))

theorem tiles_serverReport : Tiles v 2 (ResponseLayout.reportServerIdPlan v) (serverReport v) := by
  refine .require 7 (.await (by omega) (.require _ (.byte rfl rfl rfl (.byte rfl rfl rfl ?_))))
  have pos : (v.byte 2 ≠ 0) = (0 < (v.byte 2).toNat) := by
    rw [Nat.pos_iff_ne_zero, ne_eq, ne_eq, ← UInt8.toNat_inj]
    rfl
  simp only [pos]
  refine tiles_block (by omega) (fun _ => rfl) _ ?_
  exact .byte rfl rfl rfl (.trailer 0 (by omega))

theorem tiles_requestBody (n : Nat) {layout : RequestLayout}
    (h : RequestLayout.ofCode? (v.byte 1) = some layout) :
    Tiles v 2 (layout.plan n v) (requestBody v n (v.byte 1)) := by
  unfold RequestLayout.ofCode? at h
  split at h
  case h_16 => cases h
  all_goals
    rename_i code
    obtain rfl := Option.some.inj h
    rw [code]
  · exact tiles_read _ _
  · exact tiles_read _ _
  · exact tiles_read _ _
  · exact tiles_read _ _
  · exact tiles_writeCoil
  · exact tiles_writeRegister
  · exact .trailer 0 (by omega)
  · exact tiles_diagnostics n
  · exact .trailer 0 (by omega)
  · exact .trailer 0 (by omega)
  · exact tiles_writeCoils
  · exact tiles_writeRegisters
  · exact .trailer 0 (by omega)
  · exact tiles_maskWrite
  · exact tiles_exchange

theorem tiles_responseBody (n : Nat) {layout : ResponseLayout}
    (h : ResponseLayout.ofCode? (v.byte 1) = some layout)
    (plain : FunctionCode.hasExceptionBit (v.byte 1) = false) :
    Tiles v 2 (layout.plan n v) (responseBody v n (v.byte 1)) := by
  unfold ResponseLayout.ofCode? at h
  split at h
  case h_16 =>
    simp [FunctionCode.ofException?, plain] at h
  all_goals
    rename_i code
    obtain rfl := Option.some.inj h
    rw [code]
  · exact tiles_statesRead _
  · exact tiles_statesRead _
  · exact tiles_registersRead
  · exact tiles_registersRead
  · exact tiles_writeCoil
  · exact tiles_writeRegister
  · exact .require 5 (.byte rfl rfl rfl (.trailer 0 (by omega)))
  · exact tiles_diagnostics n
  · exact .require 8 (.word rfl rfl rfl (.word rfl rfl rfl (.trailer 0 (by omega))))
  · exact tiles_eventLog
  · exact tiles_written .coils
  · exact tiles_written .registers
  · exact tiles_serverReport
  · exact tiles_maskWrite
  · exact tiles_registersRead

/-- Only exceptions have the exception bit. -/
theorem eq_exception_of_bit {code : UInt8} {layout : ResponseLayout}
    (h : ResponseLayout.ofCode? code = some layout) (bit : FunctionCode.hasExceptionBit code = true) :
    layout = .exception := by
  unfold ResponseLayout.ofCode? at h
  split at h
  case h_16 =>
    split at h
    · exact (Option.some.inj h).symm
    · cases h
  all_goals exact absurd bit (by decide)

theorem tiles_exception (h : ResponseLayout.ofCode? (v.byte 1) = some .exception) :
    Tiles v 2 (ResponseLayout.exceptionPlan v) [exception v, checksum v 0] := by
  rw [ResponseLayout.exceptionPlan_eq h]
  exact .require 5 (.await (by omega) (.byte rfl rfl rfl (.trailer 0 (by omega))))

end FieldTable

/-- The name that a plain function code has in the table of names. -/
theorem Field.functionNote_eq {code : UInt8} {said : Note} (h : functionNote code = .ok said) :
    said = .function code (functionName code) := by
  unfold functionNote FunctionCode.ofByte at h
  split at h
  case h_2 => cases h
  case h_1 function hf =>
    split at hf
    case isTrue => cases hf
    obtain rfl := Except.ok.inj hf
    split at h
    case h_2 => cases h
    case h_1 name hn =>
      rw [functionName, hn]
      exact (Except.ok.inj h).symm

theorem Field.exceptionNote_eq {code : UInt8} {said : Note} (h : exceptionNote code = .ok said) :
    said = .exceptionFunction code (functionName (code &&& 0x7F)) := by
  unfold exceptionNote at h
  split at h
  case h_2 => cases h
  case h_1 name hn =>
    obtain ⟨function, hf, hname⟩ := Option.bind_eq_some_iff.mp hn
    obtain ⟨-, rfl, -⟩ := FunctionCode.ofException?_eq_some_iff.mp hf
    rw [functionName, hname]
    exact (Except.ok.inj h).symm

/-- All fields of a frame but the server id, which both roles have in front. -/
theorem tiles_framePlan {role : Role} {v : Bytes} {said : Note} {p : Plan} {slots : List Slot}
    (body : Tiles v 1 (.due 1 said :: p) slots) :
    ∃ q, framePlan role (some (.ok said, p)) v = .await 3 :: q ∧ Tiles v 0 q (serverId v role :: slots) :=
  ⟨_, rfl, .field (holds_serverId v role) body⟩

/-- A frame of a known function has the fields of the table. -/
theorem tiles_plan (role : Role) (n : Nat) {v : Bytes}
    (known : (role.grammar n).recognizes (v.byte 1) = true) :
    ∃ p, (role.grammar n).plan v = .await 3 :: p ∧ Tiles v 0 p (role.fields n v) := by
  cases role with
  | request =>
    obtain ⟨layout, hl⟩ := Option.isSome_iff_exists.mp known
    obtain ⟨name, hn⟩ := RequestLayout.functionNote_of_ofCode? hl
    have plan : (requestGrammar n).plan v =
        framePlan .request (some (.ok (.function (v.byte 1) name), layout.plan n v)) v := by
      simp only [requestGrammar, hl, Option.map_some, hn]
    rw [Role.grammar, plan]
    exact tiles_framePlan (.byte rfl (Field.functionNote_eq hn).symm rfl (tiles_requestBody n hl))
  | response =>
    obtain ⟨layout, hl⟩ := Option.isSome_iff_exists.mp known
    obtain ⟨said, hn⟩ := ResponseLayout.functionNote_of_ofCode? hl
    have plan : (responseGrammar n).plan v =
        framePlan .response (some (.ok said, layout.plan n v)) v := by
      simp only [responseGrammar, hl, Option.map_some, hn]
    rw [Role.grammar, plan, Role.fields]
    refine tiles_framePlan ?_
    cases bit : FunctionCode.hasExceptionBit (v.byte 1) with
    | true =>
      obtain rfl := eq_exception_of_bit hl bit
      obtain rfl := Field.exceptionNote_eq hn
      exact .byte rfl rfl rfl (tiles_exception hl)
    | false =>
      have plain : layout ≠ .exception := by
        rintro rfl
        obtain ⟨function, hf⟩ := ResponseLayout.ofException?_of_exception hl
        have set := (FunctionCode.ofException?_eq_some_iff.mp hf).1
        rw [bit] at set
        cases set
      have hn : Field.functionNote (v.byte 1) = .ok said := by
        cases layout with
        | exception => exact absurd rfl plain
        | _ => exact hn
      obtain rfl := Field.functionNote_eq hn
      exact .byte rfl rfl rfl (tiles_responseBody n hl bit)

/-- Of a frame with a known function, four bytes or more, a parse reports the fields of the table that
have arrived. -/
theorem Grammar.reports_parse (role : Role) (n : Nat) (f : Frame) (h4 : Limits.minFrameLength ≤ f.length)
    (hc : f.covered = 0) (known : (role.grammar n).recognizes (f.values.byte 1) = true) :
    ((role.grammar n).parse f).reports.map Report.row =
      ((entries 0 (role.fields n f.values)).filter fun e => e.last < f.length).map Entry.row := by
  obtain ⟨p, hp, tiles⟩ := tiles_plan role n known
  have passed : Passed f (.await 3) := h4
  rw [parse_eq_sweep, hp, sweep_cons_of_passed p passed, tiles.reports_sweep f rfl hc, Frame.length_values]

theorem Role.says_plan (role : Role) (n : Nat) (v : Bytes) :
    ∀ item ∈ (role.grammar n).plan v, item.Says fun _ said => said.ofField = true := by
  let P (_ : Nat) (said : Note) : Prop := said.ofField = true
  have awaits : (Item.await 3).Says P := trivial
  cases known : (role.grammar n).recognizes (v.byte 1) with
  | true =>
    obtain ⟨p, hp, tiles⟩ := tiles_plan role n known
    rw [hp]
    exact List.forall_mem_cons.mpr ⟨awaits, tiles.says⟩
  | false =>
    have server : (Field.serverId role v).Says P := fun said hs => Except.ok.inj hs ▸ rfl
    have pending : Item.pending.Says P := trivial
    rw [role.plan_of_unknown n known]
    show ∀ item ∈ [.await 3, Field.serverId role v, .pending], item.Says P
    rw [List.forall_mem_cons, List.forall_mem_cons, List.forall_mem_singleton]
    exact ⟨awaits, server, pending⟩

theorem Grammar.ofField_of_mem_parse (role : Role) (n : Nat) (f : Frame) :
    ∀ r ∈ ((role.grammar n).parse f).reports, r.covers.isSome ∧ r.note.ofField = true := by
  rw [parse_eq_sweep]
  intro r hmem
  obtain ⟨first, last, covers, ofField⟩ := Plan.mem_sweep (role.says_plan n f.values) f r hmem
  exact ⟨covers ▸ rfl, ofField⟩

/-- A parse of a new frame of four bytes or more reports the fields of the table that have arrived, each with
its first and last byte, its category and its text, from the start of the first byte to the end of the last.
A field is an error if its value breaks its rule. -/
theorem parse_eq_table (role : Role) (n : Nat) (start : Time) (bytes : List Byte)
    (h4 : Limits.minFrameLength ≤ bytes.length)
    (known : (role.grammar n).recognizes (Bytes.byte (bytes.map Byte.value) 1) = true) :
    let v : Bytes := bytes.map Byte.value
    let o := (role.grammar n).parse (.filled role start bytes)
    (∃ progress, o.result = .ok progress) ∧
    o.reports.map (fun r => (r.covers, r.span.category, r.span.text)) =
      ((entries 0 (role.fields n v)).filter fun e => e.last < v.length).map
        (fun e => (some (e.first, e.last), e.category, e.note.text)) ∧
    (∀ r ∈ o.reports, r.Fits bytes) ∧
    ∀ s ∈ role.fields n v, ∀ first, (s.entry first).category = .error ↔ s.keeps first = false := by
  intro v o
  have hv : (Frame.filled role start bytes).values = v := Frame.values_filled role start bytes
  have rows := Grammar.reports_parse role n (.filled role start bytes) h4 rfl (hv ▸ known)
  rw [← Frame.length_values, hv] at rows
  have texts := congrArg (List.map fun row => (row.1, row.2.1, row.2.2.text)) rows
  rw [List.map_map, List.map_map] at texts
  exact ⟨(role.lawful_grammar n).parse_ok _, texts, ((role.grammar n).evolves_parse _).fits,
    fun s _ first => s.entry_category_eq_error⟩

/-- A request to read no registers at all, cut off before its check sum. -/
def emptyQuery : List Byte :=
  [⟨0x11, 0, 8⟩, ⟨0x03, 10, 18⟩, ⟨0x00, 20, 28⟩, ⟨0x6B, 30, 38⟩, ⟨0x00, 40, 48⟩, ⟨0x00, 50, 58⟩]

theorem parse_emptyQuery :
    (Limits.minFrameLength ≤ emptyQuery.length ∧
      (Role.request.grammar 2).recognizes (Bytes.byte (emptyQuery.map Byte.value) 1) = true) ∧
    ((Role.request.grammar 2).parse (.filled .request 0 emptyQuery)).reports.map
        (fun r => (r.covers, r.span.category, r.span.text)) =
      [(some (0, 0), .serverId, "Slave ID: 17"),
        (some (1, 1), .function, "Function 3: Read Holding Registers"),
        (some (2, 3), .address, "Start at address 0x6B / 40108"),
        (some (4, 5), .error, "Quantity 0 is out of range (1..=125)")] := by
  have h4 : Limits.minFrameLength ≤ emptyQuery.length := by decide
  have known : (Role.request.grammar 2).recognizes (Bytes.byte (emptyQuery.map Byte.value) 1) = true := rfl
  refine ⟨⟨h4, known⟩, (parse_eq_table .request 2 0 emptyQuery h4 known).2.1.trans ?_⟩
  decide +kernel

end ModbusRtu
