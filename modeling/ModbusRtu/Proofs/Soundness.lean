import ModbusRtu.Proofs.Sweep

/-! Plans that cannot fail. A sweep faults only on a note that is a fault itself, on a check sum over fewer
than four bytes, or on an item that is broken: the cursor never leaves the frame, because a report is
made only when its last byte is there and not yet covered. -/

namespace ModbusRtu

namespace Frame

theorem slice?_zero {f : Frame} {count : Nat} (h : count ≤ f.length) :
    f.slice? 0 count = some (f.values.take count) := by
  simp only [slice?, Nat.zero_add, h, if_true, Bytes.slice, List.drop_zero]

/-- The check sum is compared with what should follow the bytes before it on the line. -/
theorem trailerNote_eq {f : Frame} {last split : Nat} (h3 : 3 ≤ last) (hl : last < f.length)
    (hs : last = split + 1) :
    f.trailerNote last =
      .ok (if f.values.slice split 2 = Checksum.trailer (f.values.take split) then .checksumCorrect
        else .checksumExpected (Checksum.crc (f.values.take split))) := by
  subst hs
  have hm : ¬ split + 1 + 1 < Limits.minFrameLength := by
    simp only [Limits.minFrameLength]
    omega
  have hlen : split + 2 ≤ f.values.length := f.length_values.symm ▸ hl
  obtain ⟨actual, hcheck⟩ := Checksum.checkFrame_take (by omega : 2 ≤ split) hlen
  simp only [trailerNote, hm, if_false, slice?_zero (Nat.succ_le_of_lt hl), hcheck]
  by_cases right : f.values.slice split 2 = Checksum.trailer (f.values.take split)
  · simp only [right, if_true]
  · simp only [right, if_false]

theorem trailerNote_ok {f : Frame} {last : Nat} (h3 : 3 ≤ last) (hl : last < f.length) :
    ∃ note, f.trailerNote last = .ok note :=
  ⟨_, trailerNote_eq h3 hl (Nat.sub_add_cancel (by omega)).symm⟩

end Frame

namespace Item

open ModbusRtu.Frame

def Sound : Item → Prop
  | field _ note => ∃ said, note = .ok said
  | trailer last => 3 ≤ last
  | broken _ => False
  | _ => True

theorem sound_due (last : Nat) (note : Note) : (due last note).Sound := ⟨note, rfl⟩

theorem field_ok (last : Nat) (said : Note) (f : Frame) :
    ∃ progress, ((field last (.ok said)).apply f).result = .ok progress := by
  rcases field_cases last (.ok said) f with ⟨-, h⟩ | ⟨-, h⟩ | ⟨told, -, hc, hl, h⟩ | ⟨fault, hf, -⟩
  · exact ⟨_, by rw [h]; rfl⟩
  · exact ⟨_, by rw [h]; rfl⟩
  · obtain ⟨first, final, -, -, hr⟩ := report_of_due told hc hl
    exact ⟨_, by rw [h, hr]⟩
  · cases hf

theorem apply_ok {item : Item} (h : item.Sound) (f : Frame) :
    ∃ progress, (item.apply f).result = .ok progress := by
  cases item with
  | require length => exact ⟨_, rfl⟩
  | await index => exact ⟨_, rfl⟩
  | field last note =>
    obtain ⟨said, rfl⟩ := h
    exact field_ok last said f
  | trailer last =>
    rw [trailer_apply]
    by_cases hl : last < f.length
    · obtain ⟨said, hs⟩ := trailerNote_ok h hl
      rw [hs]
      exact field_ok last said _
    · have hw : (f.require (last + 1)).length ≤ last := Nat.not_lt.mp hl
      exact ⟨_, by rw [apply, reportIfNew_of_length_le _ hw]; rfl⟩
  | pending => exact ⟨_, rfl⟩
  | broken fault => exact h.elim

end Item

namespace Plan

def Sound (p : Plan) : Prop := ∀ item ∈ p, item.Sound

theorem sound_cons {item : Item} {p : Plan} : Sound (item :: p) ↔ item.Sound ∧ p.Sound := by
  simp [Sound]

/-- An item that does not wait does its part, and the sweep goes on. -/
theorem sweep_cons_of_ready {item : Item} {f : Frame} (p : Plan) (hs : item.Sound)
    (hw : ¬ item.Waits f.length) :
    sweep (item :: p) f = (item.apply f).andThen fun g _ => p.sweep g := by
  obtain ⟨progress, hr⟩ := Item.apply_ok hs f
  have hp : progress ≠ .waiting := fun he => Item.not_waiting hw (he ▸ hr)
  rw [sweep, Outcome.andThen_eq_of_ok hr, Outcome.andThen_eq_of_ok hr]
  cases progress with
  | settled => rfl
  | reported => rfl
  | waiting => exact absurd rfl hp

theorem sweep_cons_state_result {item : Item} {f : Frame} (p : Plan) (hs : item.Sound)
    (hw : ¬ item.Waits f.length) :
    (sweep (item :: p) f).state = (p.sweep (item.apply f).state).state ∧
      (sweep (item :: p) f).result = (p.sweep (item.apply f).state).result := by
  obtain ⟨progress, hr⟩ := Item.apply_ok hs f
  rw [sweep_cons_of_ready p hs hw, Outcome.andThen_eq_of_ok hr]
  exact ⟨rfl, rfl⟩

theorem sweep_trailer {last : Nat} {f : Frame} {said : Note} (h : f.trailerNote last = .ok said) :
    sweep [.trailer last] f = sweep [.due last said] (f.require (last + 1)) := by
  rw [Item.due, ← h]
  rfl

/-- A field that is due is reported, and the sweep goes on behind it. -/
theorem sweep_cons_due {f : Frame} {last : Nat} (said : Note) (p : Plan) (hc : f.covered ≤ last)
    (hl : last < f.length) :
    ∃ r : Report, r.note = said ∧ r.covers = some (f.covered, last) ∧
      sweep (.due last said :: p) f = ⟨(p.sweep (f.reportedTo last said)).state,
        r :: (p.sweep (f.reportedTo last said)).reports, (p.sweep (f.reportedTo last said)).result⟩ := by
  have ready : ¬ (Item.due last said).Waits f.length := Nat.not_le.mpr hl
  obtain ⟨first, final, -, -, hr⟩ := Frame.report_of_due said hc hl
  have ha : (Item.due last said).apply f = f.report last said := Frame.reportIfNew_of_due said hc hl
  refine ⟨⟨f.role, said, first.start, final.stop, some (f.covered, last)⟩, rfl, rfl, ?_⟩
  rw [sweep_cons_of_ready p (Item.sound_due last said) ready, ha, hr]
  rfl

theorem sweep_cons_of_due {f : Frame} {last : Nat} (said : Note) (p : Plan) (hc : f.covered ≤ last)
    (hl : last < f.length) :
    (sweep (.due last said :: p) f).state = (p.sweep (f.reportedTo last said)).state ∧
      (sweep (.due last said :: p) f).result = (p.sweep (f.reportedTo last said)).result := by
  obtain ⟨r, -, -, hs⟩ := sweep_cons_due said p hc hl
  rw [hs]
  exact ⟨rfl, rfl⟩

theorem sweep_ok {p : Plan} (h : p.Sound) (f : Frame) :
    ∃ progress, (p.sweep f).result = .ok progress := by
  induction p generalizing f with
  | nil => exact ⟨_, rfl⟩
  | cons item rest ih =>
    obtain ⟨hi, hrest⟩ := sound_cons.mp h
    obtain ⟨progress, hr⟩ := Item.apply_ok hi f
    simp only [sweep, Outcome.andThen_eq_of_ok hr]
    cases progress with
    | settled => exact ih hrest _
    | reported => exact ih hrest _
    | waiting => exact ⟨_, rfl⟩

end Plan

end ModbusRtu
