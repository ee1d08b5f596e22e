import ModbusRtu.Proofs.DeclaredLength
import ModbusRtu.Proofs.Register
import ModbusRtu.Proofs.Verdict

/-! Bursts. If all the bits that a disturbance inverts lie within sixteen in a row, the first of them enters a
clear register, the others join it there before anything can fall out, and no number of shifts clears it
again. So no frame in order turns into another, and no frame without error into another. -/

namespace ModbusRtu

namespace Checksum

theorem word_cons_true_ne_zero (bits : List Bool) : word (true :: bits) ≠ 0 := by
  intro h
  have low : (word (true :: bits)).toNat.testBit 0 = true := by
    rw [word, UInt16.toNat_xor, UInt16.toNat_shiftLeft, Nat.testBit_xor, Nat.testBit_mod_two_pow,
      show (1 : UInt16).toNat % 16 = 1 from rfl, Nat.testBit_shiftLeft]
    rfl
  rw [h] at low
  cases low

theorem foldl_feed_ne_zero_of_burst {bits : List Bool} (set : true ∈ bits) {first : Nat}
    (window : ∀ k, bits[k]? = some true → first ≤ k ∧ k < first + 16) : bits.foldl feed 0 ≠ 0 := by
  obtain ⟨before, rest, rfl, clear⟩ := List.eq_append_cons_of_mem set
  have start : first ≤ before.length := (window before.length (by simp)).1
  have behind : true ∉ rest.drop 15 := by
    intro hmem
    obtain ⟨k, hk⟩ := List.mem_iff_getElem?.mp hmem
    rw [List.getElem?_drop] at hk
    have place : (before ++ true :: rest)[before.length + (15 + k + 1)]? = some true := by
      rw [List.getElem?_append_right (Nat.le_add_right _ _), Nat.add_sub_cancel_left]
      exact hk
    have near := (window _ place).2
    omega
  have enters : (true :: rest.take 15).length ≤ 16 := by
    rw [List.length_cons, List.length_take]
    omega
  -- a clear register stays clear up to the burst; behind it there are shifts only
  rw [List.foldl_append, foldl_feed_clear clear, shifts_zero, ← List.take_append_drop 15 rest,
    ← List.cons_append, List.foldl_append, foldl_feed_clear behind, foldl_feed enters, UInt16.zero_xor]
  exact fun cleared => word_cons_true_ne_zero _ (shifts_eq_zero (shifts_eq_zero cleared))

theorem mismatch_of_burst {frame pattern : Bytes} (h : checkFrame frame = .ok ())
    (hl : pattern.length = frame.length) {first : Nat}
    (window : ∀ k, pattern.bit k = true → first ≤ k ∧ k < first + 16) (set : ∃ k, pattern.bit k = true) :
    Mismatch (frame.corrupt pattern) := by
  refine mismatch_of_difference h (Bytes.length_corrupt hl) ?_
  rw [Bytes.difference_eq (Bytes.bit_corrupt hl)]
  refine foldl_feed_ne_zero_of_burst ?_ fun k hk => (?_ : first ≤ k ∧ k < first + 16)
  · obtain ⟨k, hk⟩ := set
    have within : k < 8 * frame.length := by
      refine Nat.not_le.mp fun beyond => ?_
      rw [Bytes.bit_of_le (hl ▸ beyond)] at hk
      cases hk
    exact List.mem_map.mpr ⟨k, List.mem_range.mpr within, hk⟩
  · obtain ⟨within, hbit⟩ := List.getElem?_eq_some_iff.mp hk
    rw [List.getElem_map, List.getElem_range] at hbit
    exact window k hbit

end Checksum

theorem Plan.Laid.checkFrame_of_accepts {total first minimum : Nat} {p : Plan} {v : Bytes}
    (h : Laid total first minimum p) (accepts : p.Accepts v) :
    Checksum.checkFrame (v.take total) = .ok () := by
  induction h with
  | require length rest ih => exact ih (accepts_cons.mp accepts).2
  | await h rest ih => exact ih (accepts_cons.mp accepts).2
  | field said h rest ih => exact ih (accepts_cons.mp accepts).2
  | trailer h => exact h.2.2.2 ▸ (accepts_cons.mp accepts).1

theorem Role.checkFrame_of_live (role : Role) (n : Nat) (start : Time) {bytes : List Byte} (h : bytes ≠ [])
    (options : CloseOptions)
    (clean : ((role.grammar n).live (.opened role start) bytes options).state.hasError = false) :
    Checksum.checkFrame (bytes.map Byte.value) = .ok () := by
  let f := Frame.filled role start bytes
  have hv : f.values = bytes.map Byte.value := Frame.values_filled role start bytes
  obtain ⟨-, parsed, hp, he⟩ := (role.lawful_grammar n).live_spec role start h options
  obtain ⟨hparse, sound⟩ := he.mp clean
  obtain ⟨-, known⟩ := (role.grammar n).known_of_not_flawed (f := f) (Nat.le_refl _)
    (role.plan_of_unknown n) rfl sound
  have laid := role.laid_declared n known
  obtain ⟨length, -, accepts⟩ :=
    ((role.grammar n).parse_known laid known rfl rfl rfl hp).mp ⟨hparse, sound⟩
  have whole := laid.checkFrame_of_accepts accepts
  rwa [← length, ← f.length_values, List.take_length, hv] at whole

/-- No burst turns a frame with the right check sum into another, and none turns a frame that closes without
an error into another, whatever becomes of the times. -/
theorem burst_detected (frame pattern : Bytes) (hl : pattern.length = frame.length) (first : Nat)
    (window : ∀ k, pattern.bit k = true → first ≤ k ∧ k < first + 16) (set : ∃ k, pattern.bit k = true) :
    (Checksum.checkFrame frame = .ok () → Checksum.Mismatch (frame.corrupt pattern)) ∧
    ∀ (role : Role) (n : Nat) (start : Time) (bytes : List Byte) (options : CloseOptions),
      bytes.map Byte.value = frame →
      ((role.grammar n).live (.opened role start) bytes options).state.hasError = false →
      ∀ (start : Time) (disturbed : List Byte) (options : CloseOptions),
        disturbed.map Byte.value = frame.corrupt pattern →
        let o := (role.grammar n).live (.opened role start) disturbed options
        o.result = .ok () ∧ o.state.hasError = true := by
  have spoiled (h : Checksum.checkFrame frame = .ok ()) := Checksum.mismatch_of_burst h hl window set
  have nonempty : frame ≠ [] := by
    rintro rfl
    obtain ⟨k, hk⟩ := set
    rw [Bytes.bit_of_le (hl ▸ Nat.zero_le k)] at hk
    cases hk
  refine ⟨spoiled, fun role n start bytes options hbytes clean start' disturbed options' hdisturbed => ?_⟩
  have hb : bytes ≠ [] := fun empty => nonempty (hbytes ▸ empty ▸ rfl)
  have hd : disturbed ≠ [] := by
    intro empty
    have hlen := congrArg List.length hdisturbed
    rw [empty, Bytes.length_corrupt hl] at hlen
    exact nonempty (List.length_eq_zero_iff.mp hlen.symm)
  have order := role.checkFrame_of_live n start hb options clean
  obtain ⟨expected, actual, mismatch⟩ := spoiled (hbytes ▸ order)
  refine ⟨((role.lawful_grammar n).live_spec role start' hd options').1, ?_⟩
  refine Bool.of_not_eq_false fun clean' => ?_
  have order' := role.checkFrame_of_live n start' hd options' clean'
  rw [hdisturbed, mismatch] at order'
  cases order'

/-- Ten bits of the query for the exception status, from the last bit of its function to the first of the
upper half of its check sum. -/
theorem burst_detected_statusQuery :
    let frame : Bytes := [0x11, 0x07, 0x4C, 0x22]
    let pattern : Bytes := [0x00, 0x80, 0xFF, 0x01]
    (pattern.length = frame.length ∧ (∀ k, pattern.bit k = true → 15 ≤ k ∧ k < 15 + 16) ∧
      ∃ k, pattern.bit k = true) ∧
    Checksum.checkFrame frame = .ok () ∧ Checksum.Mismatch (frame.corrupt pattern) := by
  intro frame pattern
  have sum : Checksum.crc [0x11, 0x07] = Word.join 0x22 0x4C := by decide +kernel
  have order : Checksum.checkFrame frame = .ok () := (if_neg (by decide)).trans (if_pos sum)
  have window : ∀ k, pattern.bit k = true → 15 ≤ k ∧ k < 15 + 16 := by
    have all : ∀ k < 32, pattern.bit k = true → 15 ≤ k ∧ k < 15 + 16 := by decide
    intro k hk
    by_cases h : k < 32
    · exact all k h hk
    · rw [Bytes.bit_of_le (Nat.not_lt.mp h)] at hk
      cases hk
  have set : ∃ k, pattern.bit k = true := ⟨15, by decide⟩
  exact ⟨⟨rfl, window, set⟩, order, (burst_detected frame pattern rfl 15 window set).1 order⟩

end ModbusRtu
