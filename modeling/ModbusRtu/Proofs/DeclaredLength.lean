import ModbusRtu.Proofs.Lawful

/-! The length that a frame declares. The function code fixes it, up to a byte count that some frames carry.
As soon as four bytes are there the frame is known to need no less and no more than what it declares by then,
and this is all that its end depends on: with fewer bytes it is too short, and what is behind them is too
long. -/

namespace ModbusRtu

open Item Plan

/-- The length that a request declares, `n` being the length of diagnostics data. A byte count still to come
counts as zero. -/
def requestLength (n : Nat) (v : Bytes) : Nat :=
  match v.byte 1 with
  | 1 | 2 | 3 | 4 | 5 | 6 => 8
  | 7 | 11 | 12 | 17 => 4
  | 8 => 6 + n
  | 15 | 16 => 9 + (v.byte 6).toNat
  | 22 => 10
  | 23 => 13 + (v.byte 10).toNat
  | _ => Limits.minFrameLength

/-- The length that a reply declares. -/
def responseLength (n : Nat) (v : Bytes) : Nat :=
  if FunctionCode.hasExceptionBit (v.byte 1) then 5
  else
    match v.byte 1 with
    | 1 | 2 | 3 | 4 | 12 | 23 => 5 + (v.byte 2).toNat
    | 5 | 6 | 11 | 15 | 16 => 8
    | 7 => 5
    | 8 => 6 + n
    | 17 => 7 + (v.byte 2).toNat
    | 22 => 10
    | _ => Limits.minFrameLength

def Role.declaredLength (n : Nat) (v : Bytes) : Role → Nat
  | request => requestLength n v
  | response => responseLength n v

namespace Item

theorem demand_le_apply (item : Item) (f : Frame) : item.demand ≤ (item.apply f).state.minimumLength := by
  cases item with
  | require length => exact Nat.le_max_right _ _
  | trailer last =>
    have evolves := Frame.evolves_reportIfNew (f.require (last + 1)) last (f.trailerNote last)
    exact Nat.le_trans (Nat.le_max_right _ _) evolves.minimumLength
  | _ => exact Nat.zero_le _

theorem minimumLength_field (last : Nat) (note : Except Fault Note) (f : Frame) :
    ((field last note).apply f).state.minimumLength = f.minimumLength := by
  rcases field_cases last note f with ⟨-, h⟩ | ⟨-, h⟩ | ⟨said, -, hc, hl, h⟩ | ⟨fault, -, -, -, h⟩
  · rw [h]
    rfl
  · rw [h]
    rfl
  · obtain ⟨first, final, -, -, hr⟩ := Frame.report_of_due said hc hl
    rw [h, hr]
    rfl
  · rw [h]
    rfl

end Item

namespace Plan

/-- With `n` bytes received, a sweep gets as far as an item that asks for `total`. -/
inductive Asks (n total : Nat) : Plan → Prop
  | here {item : Item} {p : Plan} (h : total ≤ item.demand) : Asks n total (item :: p)
  | later {item : Item} {p : Plan} (ready : ¬ item.Waits n) (rest : Asks n total p) :
      Asks n total (item :: p)

theorem Asks.le_sweep {n total : Nat} {p : Plan} (h : Asks n total p) (hs : p.Sound) (f : Frame)
    (hn : f.length = n) : total ≤ (p.sweep f).state.minimumLength := by
  induction h generalizing f with
  | @here item p h =>
    refine Nat.le_trans h ?_
    by_cases hw : item.Waits f.length
    · rw [sweep_cons_of_waits p hw]
      exact Nat.le_max_right _ _
    · rw [(sweep_cons_state_result p (sound_cons.mp hs).1 hw).1]
      exact Nat.le_trans (item.demand_le_apply f) (evolves_sweep p _).minimumLength
  | @later item p ready rest ih =>
    obtain ⟨hi, hrest⟩ := sound_cons.mp hs
    rw [(sweep_cons_state_result p hi (hn ▸ ready)).1]
    exact ih hrest _ ((evolves_apply item f).length.trans hn)

theorem Laid.minimumLength_sweep_le {total first minimum : Nat} {p : Plan} (h : Laid total first minimum p)
    (f : Frame) (hm : f.minimumLength ≤ minimum) : (p.sweep f).state.minimumLength ≤ total := by
  have waits {item : Item} {f : Frame} (p : Plan) (hw : item.Waits f.length)
      (hd : max f.minimumLength item.demand ≤ total) : (sweep (item :: p) f).state.minimumLength ≤ total := by
    rw [sweep_cons_of_waits p hw]
    exact hd
  induction h generalizing f with
  | require length rest ih => exact ih (f.require length) (by simp only [Frame.require]; omega)
  | @await first minimum index p hi rest ih =>
    have limit := rest.minimum_le
    by_cases hw : (Item.await index).Waits f.length
    · exact waits p hw (by simp only [demand]; omega)
    · have passed : Passed f (.await index) := Nat.not_le.mp hw
      rw [sweep_cons_of_passed p passed]
      exact ih f hm
  | @field first minimum last p said h rest ih =>
    have limit := rest.minimum_le
    by_cases hw : (Item.due last said).Waits f.length
    · exact waits p hw (by simp only [Item.due, demand]; omega)
    · rw [(sweep_cons_state_result p (sound_due last said) hw).1]
      exact ih _ (Nat.le_trans (Nat.le_of_eq (minimumLength_field _ _ _)) hm)
  | @trailer first minimum last h =>
    obtain ⟨hf, h3, hmin, ht⟩ := h
    by_cases hw : (Item.trailer last).Waits f.length
    · exact waits [] hw (by simp only [demand]; omega)
    · have sound : (Item.trailer last).Sound := h3
      have asked : (f.require (last + 1)).minimumLength ≤ total := by simp only [Frame.require]; omega
      rw [(sweep_cons_state_result [] sound hw).1]
      exact Nat.le_trans (Nat.le_of_eq (minimumLength_field _ _ _)) asked

end Plan

section Layouts

variable {bytes : Bytes}

theorem Plan.Asks.at_once (n total : Nat) (p : Plan) : Asks n total (.require total :: p) :=
  .here (Nat.le_refl total)

theorem RequestLayout.asks_writePlan (target : WriteTarget) (bytes : Bytes) :
    Asks bytes.length (9 + (bytes.byte 6).toNat) (writePlan target bytes) := by
  by_cases h : 6 < bytes.length
  · refine .later id (.later (Nat.not_le.mpr (by omega)) (.later (Nat.not_le.mpr (by omega)) ?_))
    exact .later (Nat.not_le.mpr h) (.at_once _ _ _)
  · rw [Bytes.byte_of_length_le (Nat.not_lt.mp h)]
    exact .at_once _ 9 _

theorem RequestLayout.asks_exchangePlan (bytes : Bytes) :
    Asks bytes.length (13 + (bytes.byte 10).toNat) (exchangePlan bytes) := by
  by_cases h : 10 < bytes.length
  · refine .later id (.later (Nat.not_le.mpr (by omega)) (.later (Nat.not_le.mpr (by omega)) ?_))
    refine .later (Nat.not_le.mpr (by omega)) (.later (Nat.not_le.mpr (by omega)) ?_)
    exact .later (Nat.not_le.mpr h) (.at_once _ _ _)
  · rw [Bytes.byte_of_length_le (Nat.not_lt.mp h)]
    exact .at_once _ 13 _

theorem RequestLayout.asks_plan (n : Nat) (layout : RequestLayout) (bytes : Bytes) :
    Asks bytes.length (layout.total n bytes) (layout.plan n bytes) := by
  cases layout with
  | readBits space => exact .at_once _ _ _
  | readRegisters space => exact .at_once _ _ _
  | writeSingleCoil => exact .at_once _ _ _
  | writeSingleRegister => exact .at_once _ _ _
  | noData => exact .here (Nat.le_refl 4)
  | diagnostics => exact .at_once _ _ _
  | writeMultiple target => exact asks_writePlan target bytes
  | maskWriteRegister => exact .at_once _ _ _
  | readWriteMultipleRegisters => exact asks_exchangePlan bytes

/-- The byte count of a reply is its third byte, which is there before anything is asked for. -/
theorem ResponseLayout.asks_plan (n : Nat) (layout : ResponseLayout) {bytes : Bytes} (h : 2 < bytes.length) :
    Asks bytes.length (layout.total n bytes) (layout.plan n bytes) := by
  have counted (base total : Nat) (p : Plan) :
      Asks bytes.length total (.require base :: .await 2 :: .require total :: p) :=
    .later id (.later (Nat.not_le.mpr h) (.at_once _ _ _))
  cases layout with
  | readBits space => exact counted 5 _ _
  | readRegisters => exact counted 5 _ _
  | writeSingleCoil => exact .at_once _ _ _
  | writeSingleRegister => exact .at_once _ _ _
  | readExceptionStatus => exact .at_once _ _ _
  | diagnostics => exact .at_once _ _ _
  | commEventCounter => exact .at_once _ _ _
  | commEventLog => exact counted 5 _ _
  | writeMultiple target => exact .at_once _ _ _
  | reportServerId => exact counted 7 _ _
  | maskWriteRegister => exact .at_once _ _ _
  | exception => exact .at_once _ _ _

theorem RequestLayout.total_eq (n : Nat) {layout : RequestLayout} (h : ofCode? (bytes.byte 1) = some layout) :
    layout.total n bytes = requestLength n bytes := by
  unfold ofCode? at h
  split at h
  case h_16 => cases h
  all_goals
    rename_i code
    obtain rfl := Option.some.inj h
    rw [requestLength, code]
    rfl

theorem ResponseLayout.total_eq (n : Nat) {layout : ResponseLayout}
    (h : ofCode? (bytes.byte 1) = some layout) : layout.total n bytes = responseLength n bytes := by
  unfold ofCode? at h
  split at h
  case h_16 =>
    split at h
    case isFalse => cases h
    case isTrue announced =>
      obtain rfl := Option.some.inj h
      obtain ⟨function, hf⟩ := Option.isSome_iff_exists.mp announced
      rw [responseLength, if_pos (FunctionCode.ofException?_eq_some_iff.mp hf).1]
      rfl
  all_goals
    rename_i code
    obtain rfl := Option.some.inj h
    rw [responseLength, code]
    rfl

end Layouts

namespace Role

variable {v : Bytes}

theorem laid_declared (role : Role) (n : Nat) (known : (role.grammar n).recognizes (v.byte 1) = true) :
    Laid (role.declaredLength n v) 0 4 ((role.grammar n).plan v) := by
  cases role with
  | request =>
    obtain ⟨layout, hl⟩ := Option.isSome_iff_exists.mp known
    obtain ⟨name, hn⟩ := RequestLayout.functionNote_of_ofCode? hl
    simp only [declaredLength, ← RequestLayout.total_eq n hl, grammar, requestGrammar, hl, Option.map_some,
      hn]
    exact laid_framePlan .request (RequestLayout.laid_plan n layout v)
  | response =>
    obtain ⟨layout, hl⟩ := Option.isSome_iff_exists.mp known
    obtain ⟨said, hn⟩ := ResponseLayout.functionNote_of_ofCode? hl
    simp only [declaredLength, ← ResponseLayout.total_eq n hl, grammar, responseGrammar, hl, Option.map_some,
      hn]
    exact laid_framePlan .response (ResponseLayout.laid_plan n hl)

/-- Server id and function are there with the first four bytes, and what is left is up to the layout. -/
theorem asks_framePlan {role : Role} {function : Except Fault Note} {p : Plan} {total : Nat}
    (h4 : Limits.minFrameLength ≤ v.length) (h : Asks v.length total p) :
    Asks v.length total (framePlan role (some (function, p)) v) := by
  have h4 : 4 ≤ v.length := h4
  refine .later (Nat.not_le.mpr h4) (.later (Nat.not_le.mpr (by omega)) ?_)
  exact .later (Nat.not_le.mpr (by omega)) h

theorem asks_declared (role : Role) (n : Nat) (h4 : Limits.minFrameLength ≤ v.length)
    (known : (role.grammar n).recognizes (v.byte 1) = true) :
    Asks v.length (role.declaredLength n v) ((role.grammar n).plan v) := by
  cases role with
  | request =>
    obtain ⟨layout, hl⟩ := Option.isSome_iff_exists.mp known
    simp only [declaredLength, ← RequestLayout.total_eq n hl, grammar, requestGrammar, hl, Option.map_some]
    exact asks_framePlan h4 (RequestLayout.asks_plan n layout v)
  | response =>
    obtain ⟨layout, hl⟩ := Option.isSome_iff_exists.mp known
    simp only [declaredLength, ← ResponseLayout.total_eq n hl, grammar, responseGrammar, hl, Option.map_some]
    exact asks_framePlan h4 (ResponseLayout.asks_plan n layout (Nat.lt_of_succ_lt h4))

end Role

namespace Grammar

/-- What a parse leaves of a frame that declares `total` bytes. -/
structure Measured (total : Nat) (f : Frame) (o : Outcome Frame Progress) : Prop where
  minimumLength : o.state.minimumLength = total
  result : o.result = .ok (if total ≤ f.length then .settled else .waiting)
  covered : total ≤ f.length → o.state.covered = total

theorem measured_parse (role : Role) (n : Nat) {f : Frame} (hc : f.covered = 0) (hm : f.minimumLength = 4)
    (h4 : Limits.minFrameLength ≤ f.length) (known : (role.grammar n).recognizes (f.values.byte 1) = true) :
    Measured (role.declaredLength n f.values) f ((role.grammar n).parse f) := by
  have laid := role.laid_declared n known
  have asks := role.asks_declared n (f.length_values.symm ▸ h4) known
  have least := asks.le_sweep laid.sound f f.length_values.symm
  have most := laid.minimumLength_sweep_le f (Nat.le_of_eq hm)
  rw [parse_eq_sweep]
  by_cases hl : role.declaredLength n f.values ≤ f.length
  · have long := laid.sweep_long f (Nat.le_of_eq hc) hm hl
    exact ⟨long.minimumLength, by rw [if_pos hl, long.result], fun _ => long.covered⟩
  · have short := (laid.sweep_short f (Nat.le_of_eq hm.symm) (Nat.not_le.mp hl)).1
    exact ⟨Nat.le_antisymm most least, by rw [if_neg hl, short], fun h => absurd h hl⟩

end Grammar

end ModbusRtu
