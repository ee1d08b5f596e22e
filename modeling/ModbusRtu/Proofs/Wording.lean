import ModbusRtu.Note.Text

/-! What the words leave of a value. Labels, limits and positions in a note are fixed by its field, so if the
value keeps the rule of the field it can be told from the text: fixed widths and ends of numbers are never in
doubt. Of values that break their rule not all can be told. -/

namespace ModbusRtu.Note

open Numeral

/-- The notes of a field tell the values that keep its rule apart by their texts. -/
def Legible {α : Type} (keeps : α → Bool) (note : α → Note) : Prop :=
  ∀ a b, keeps a = true → keeps b = true → (note a).text = (note b).text → a = b

/-- A field whose rule no value keeps tells nothing. -/
theorem legible_never {α : Type} (note : α → Note) : Legible (fun _ => false) note := nofun

/-- An id that may stand in a frame is behind the same words, whether or not it is the broadcast. -/
theorem serverIdText_of_keeps {role : Role} {id : UInt8}
    (h : ((role = .request || id ≠ 0) && id ≤ 247) = true) :
    ∃ rest : String, rest.toList.takeWhile Char.isDigit = [] ∧
      serverIdText role id = "Slave ID: " ++ (decimal id.toNat ++ rest) := by
  unfold serverIdText
  by_cases broadcast : id = Limits.broadcastId
  · subst broadcast
    cases role with
    | request => exact ⟨" (broadcast)", rfl, by decide +kernel⟩
    | response => cases h
  · have admitted : id ≤ Limits.maxServerId := of_decide_eq_true (Bool.and_eq_true_iff.mp h).2
    exact ⟨"", rfl, by rw [if_neg broadcast, if_pos admitted, String.append_empty]⟩

theorem legible_serverId (role : Role) :
    Legible (fun id => (role = .request || id ≠ 0) && id ≤ 247) (serverId role) := by
  intro a b ha hb h
  obtain ⟨s, hs, text⟩ := serverIdText_of_keeps ha
  obtain ⟨t, ht, text'⟩ := serverIdText_of_keeps hb
  rw [show (serverId role a).text = _ from text, show (serverId role b).text = _ from text',
    String.append_right_inj] at h
  exact UInt8.toNat_inj.mp (decimal_append_inj hs ht h)

/-- A number, a colon and a name. -/
theorem decimal_colon_inj {m n : Nat} {s name name' : String}
    (h : s ++ decimal m ++ ": " ++ name = s ++ decimal n ++ ": " ++ name') : m = n := by
  have colon (name : String) : (": " ++ name).toList.takeWhile Char.isDigit = [] := by
    rw [String.toList_append]
    rfl
  simp only [String.append_assoc, String.append_right_inj] at h
  exact decimal_append_inj (colon name) (colon name') h

theorem legible_function (name : UInt8 → String) :
    Legible (fun _ => true) fun code => function code (name code) :=
  fun _ _ _ _ h => UInt8.toNat_inj.mp (decimal_colon_inj h)

theorem legible_exceptionFunction (name : UInt8 → String) :
    Legible (fun _ => true) fun code => exceptionFunction code (name code) := by
  intro a b _ _ h
  have h : "Function " ++ hexByte a ++ ": " ++ name a ++ " exception" =
    "Function " ++ hexByte b ++ ": " ++ name b ++ " exception" := h
  simp only [String.append_assoc, String.append_right_inj] at h
  exact (hexByte_append_inj h).1

/-- Whatever is before the slash, the number behind it can be told. -/
theorem decimal_slash_inj {m n : Nat} {s t : String} (h : s ++ " / " ++ decimal m = t ++ " / " ++ decimal n) :
    m = n := by
  have slash : " / " = " /" ++ " " := by decide
  rw [slash, ← String.append_assoc, ← String.append_assoc] at h
  exact append_decimal_inj h

theorem legible_address (label : String) (space : AddressSpace) :
    Legible (fun _ => true) (address label space) :=
  fun _ _ _ _ h => UInt16.toNat_inj.mp (Nat.add_left_cancel (decimal_slash_inj h))

theorem legible_quantity (limit : UInt16) (verb noun : String) :
    Legible (fun amount => 1 ≤ amount && amount ≤ limit) (quantity ⟨limit, verb, noun⟩) := by
  intro a b ha hb h
  have said {amount : UInt16} (kept : (1 ≤ amount && amount ≤ limit) = true) :
      (quantity ⟨limit, verb, noun⟩ amount).text = verb ++ " " ++ decimal amount.toNat ++ " " ++ noun :=
    if_pos kept
  rw [said ha, said hb, String.append_left_inj, String.append_left_inj, String.append_right_inj] at h
  exact decimalWord_inj h

theorem legible_byteCount : Legible (fun _ => true) byteCount :=
  fun _ _ _ _ h => decimalByte_inj ((String.append_right_inj _).mp h)

theorem legible_ruledByteCount (rule : ByteCountRule) : Legible rule.admits (ruledByteCount rule) := by
  intro a b ha hb h
  have said {count : UInt8} (kept : rule.admits count = true) :
      (ruledByteCount rule count).text = byteCountText count :=
    if_pos kept
  rw [said ha, said hb] at h
  exact legible_byteCount a b rfl rfl h

theorem legible_register (index : Nat) : Legible (fun _ => true) (register index) :=
  fun _ _ _ _ h => UInt16.toNat_inj.mp (decimal_slash_inj h)

theorem legible_registerValue : Legible (fun _ => true) registerValue :=
  fun _ _ _ _ h => UInt16.toNat_inj.mp (decimal_slash_inj h)

theorem legible_unpairedByte : Legible (fun _ => true) unpairedByte :=
  fun _ _ _ _ h => hexByte_inj ((String.append_right_inj _).mp h)

theorem legible_bits (unit : String) (index : Nat) : Legible (fun _ => true) (bits unit index) :=
  fun _ _ _ _ h => binaryByte_inj ((String.append_right_inj _).mp h)

theorem legible_event (index : Nat) : Legible (fun _ => true) (event index) :=
  fun _ _ _ _ h => hexByte_inj ((String.append_right_inj _).mp h)

theorem legible_mask (label : String) : Legible (fun _ => true) (mask label) :=
  fun _ _ _ _ h => hexWord_inj ((String.append_right_inj _).mp h)

theorem legible_counter (label : String) : Legible (fun _ => true) (counter label) :=
  fun _ _ _ _ h => decimalWord_inj ((String.append_right_inj _).mp h)

theorem legible_exceptionStatus : Legible (fun _ => true) exceptionStatus :=
  fun _ _ _ _ h => binaryByte_inj ((String.append_right_inj _).mp h)

theorem legible_serverIdentity : Legible (fun _ => true) serverIdentity :=
  fun _ _ _ _ h => decimalByte_inj ((String.append_right_inj _).mp h)

theorem legible_diagnosticData : Legible (fun _ => true) diagnosticData :=
  fun _ _ _ _ h => hexBytes_inj ((String.append_right_inj _).mp h)

theorem legible_deviceData : Legible (fun _ => true) deviceData :=
  fun _ _ _ _ h => hexBytes_inj ((String.append_right_inj _).mp h)

theorem legible_subfunction :
    Legible (fun code => (Subfunction.ofWord? code).isSome) subfunction := by
  intro a b ha hb h
  have said {code : UInt16} (kept : (Subfunction.ofWord? code).isSome = true) :
      ∃ name, (subfunction code).text = "Subfunction " ++ decimal code.toNat ++ ": " ++ name := by
    obtain ⟨known, hk⟩ := Option.isSome_iff_exists.mp kept
    refine ⟨known.name, ?_⟩
    show subfunctionText code = _
    unfold subfunctionText
    rw [hk]
  obtain ⟨name, text⟩ := said ha
  obtain ⟨name', text'⟩ := said hb
  rw [text, text'] at h
  exact UInt16.toNat_inj.mp (decimal_colon_inj h)

/-- Of two values that may be there, each has words of its own. -/
theorem legible_pair {α : Type} [DecidableEq α] {x y : α} {note : α → Note}
    (apart : (note x).text ≠ (note y).text) : Legible (fun a => a = x || a = y) note := by
  intro a b ha hb h
  simp only [Bool.or_eq_true, decide_eq_true_eq] at ha hb
  rcases ha with rfl | rfl
  · rcases hb with rfl | rfl
    · rfl
    · exact absurd h apart
  · rcases hb with rfl | rfl
    · exact absurd h.symm apart
    · rfl

theorem legible_coilValue : Legible (fun value => value = 0x0000 || value = 0xFF00) coilValue :=
  legible_pair (by decide)

theorem legible_commStatus : Legible (fun value => value = 0x0000 || value = 0xFFFF) commStatus :=
  legible_pair (by decide)

theorem legible_runIndicator : Legible (fun value => value = 0x00 || value = 0xFF) runIndicator :=
  legible_pair (by decide)

end ModbusRtu.Note
