import ModbusRtu.Proofs.Arrival

/-! Plans laid out in order. The fields of a recognised frame follow each other on the line, each ends
below the length that the frame is known to need by then, and the check sum ends at that length. So a
frame that is long enough is swept to its end, and one that is not is known to be too short. -/

namespace ModbusRtu

open Item

namespace Plan

/-- The fields of the plan end at `first` or later and below the length required so far, which starts
from `minimum`; the check sum ends a frame of length `total`. -/
inductive Laid (total : Nat) : Nat → Nat → Plan → Prop
  | require {first minimum : Nat} {p : Plan} (length : Nat)
      (rest : Laid total first (max minimum length) p) :
      Laid total first minimum (.require length :: p)
  | await {first minimum index : Nat} {p : Plan} (h : index < minimum)
      (rest : Laid total first minimum p) : Laid total first minimum (.await index :: p)
  | field {first minimum last : Nat} {p : Plan} (said : Note) (h : first ≤ last ∧ last < minimum)
      (rest : Laid total (last + 1) minimum p) : Laid total first minimum (.due last said :: p)
  | trailer {first minimum last : Nat}
      (h : first ≤ last ∧ 3 ≤ last ∧ minimum ≤ total ∧ last + 1 = total) :
      Laid total first minimum [.trailer last]

theorem Laid.of_le {total first next minimum : Nat} {p : Plan} (h : Laid total next minimum p)
    (hn : first ≤ next) : Laid total first minimum p := by
  induction h generalizing first with
  | require length rest ih => exact .require length (ih hn)
  | await h rest ih => exact .await h (ih hn)
  | field said h rest ih => exact .field said ⟨Nat.le_trans hn h.1, h.2⟩ rest
  | trailer h => exact .trailer ⟨Nat.le_trans hn h.1, h.2⟩

/-- Repeated fields, which end in the order of their places and below `next`. -/
theorem Laid.map {total first minimum next : Nat} {p : Plan} (last : Nat → Nat) (said : Nat → Note)
    (places : List Nat) (ordered : places.Pairwise fun i j => last i < last j)
    (hf : ∀ i ∈ places, first ≤ last i) (hl : ∀ i ∈ places, last i < next) (hn : first ≤ next)
    (hm : next ≤ minimum) (rest : Laid total next minimum p) :
    Laid total first minimum (places.map (fun i => .due (last i) (said i)) ++ p) := by
  induction places generalizing first with
  | nil => exact rest.of_le hn
  | cons i places ih =>
    obtain ⟨hi, ordered⟩ := List.pairwise_cons.mp ordered
    have hlast := hl i (by simp)
    refine .field (said i) ⟨hf i (by simp), Nat.lt_of_lt_of_le hlast hm⟩ (ih ordered ?_ ?_ hlast)
    · exact fun j hj => hi j hj
    · exact fun j hj => hl j (by simp [hj])

theorem Laid.sound {total first minimum : Nat} {p : Plan} (h : Laid total first minimum p) : p.Sound := by
  induction h with
  | require length rest ih => exact sound_cons.mpr ⟨trivial, ih⟩
  | await h rest ih => exact sound_cons.mpr ⟨trivial, ih⟩
  | field said h rest ih => exact sound_cons.mpr ⟨sound_due _ said, ih⟩
  | trailer h => exact sound_cons.mpr ⟨h.2.1, by simp [Sound]⟩

theorem Laid.minimum_le {total first minimum : Nat} {p : Plan} (h : Laid total first minimum p) :
    minimum ≤ total := by
  induction h with
  | require length rest ih => exact Nat.le_trans (Nat.le_max_left _ _) ih
  | await h rest ih => exact ih
  | field said h rest ih => exact ih
  | trailer h => exact h.2.2.1

/-- A frame that has not all its bytes yet is known to need more. -/
theorem Laid.sweep_short {total first minimum : Nat} {p : Plan} (h : Laid total first minimum p)
    (f : Frame) (hm : minimum ≤ f.minimumLength) (hl : f.length < total) :
    (p.sweep f).result = .ok .waiting ∧ f.length < (p.sweep f).state.minimumLength := by
  have waits {item : Item} {f : Frame} (rest : Plan) (hw : item.Waits f.length)
      (hd : f.length < max f.minimumLength item.demand) :
      (sweep (item :: rest) f).result = .ok .waiting ∧
        f.length < (sweep (item :: rest) f).state.minimumLength := by
    rw [sweep_cons_of_waits rest hw]
    exact ⟨rfl, hd⟩
  induction h generalizing f with
  | require length rest ih =>
    exact ih (f.require length) (by simp only [Frame.require]; omega) hl
  | @await first minimum index p hi rest ih =>
    by_cases hw : (Item.await index).Waits f.length
    · have hw' : f.length ≤ index := hw
      exact waits p hw (by omega)
    · have passed : Passed f (.await index) := Nat.not_le.mp hw
      rw [sweep_cons_of_passed p passed]
      exact ih f hm hl
  | @field first minimum last p said h rest ih =>
    obtain ⟨hf, hlast⟩ := h
    by_cases hw : (Item.due last said).Waits f.length
    · have hw' : f.length ≤ last := hw
      exact waits p hw (by omega)
    · have hb := (evolves_apply (.due last said) f).length
      have hg := (evolves_apply (.due last said) f).minimumLength
      obtain ⟨hstate, hresult⟩ := sweep_cons_state_result p (sound_due last said) hw
      rw [hstate, hresult, ← hb]
      exact ih _ (Nat.le_trans hm hg) (hb ▸ hl)
  | @trailer first minimum last h =>
    obtain ⟨hf, h3, hmin, ht⟩ := h
    have hw : f.length ≤ last := by omega
    exact waits [] hw (by simp only [demand]; omega)

end Plan

/-- What the item says of the frame `frame` is no error. -/
def Item.Accepts (frame : Bytes) : Item → Prop
  | field _ (.ok said) => said.isError = false
  | trailer last => Checksum.checkFrame (frame.take (last + 1)) = .ok ()
  | _ => True

theorem Frame.isError_trailerNote {f : Frame} {last : Nat} {note : Note} (h3 : 3 ≤ last)
    (hl : last < f.length) (h : f.trailerNote last = .ok note) :
    note.isError = false ↔ Checksum.checkFrame (f.values.take (last + 1)) = .ok () := by
  obtain ⟨split, rfl⟩ : ∃ split, last = split + 1 := ⟨last - 1, by omega⟩
  have hlen : split + 2 ≤ f.values.length := f.length_values.symm ▸ hl
  obtain ⟨actual, hcheck⟩ := Checksum.checkFrame_take (by omega : 2 ≤ split) hlen
  rw [trailerNote_eq h3 hl rfl] at h
  obtain rfl := Except.ok.inj h
  rw [hcheck]
  by_cases right : f.values.slice split 2 = Checksum.trailer (f.values.take split)
  · rw [if_pos right, if_pos right]
    exact iff_of_true rfl rfl
  · rw [if_neg right, if_neg right]
    exact iff_of_false nofun nofun

namespace Plan

def Accepts (frame : Bytes) (p : Plan) : Prop := ∀ item ∈ p, item.Accepts frame

theorem accepts_cons {frame : Bytes} {item : Item} {p : Plan} :
    Accepts frame (item :: p) ↔ item.Accepts frame ∧ p.Accepts frame := by
  simp [Accepts]

theorem accepts_append {frame : Bytes} {p q : Plan} :
    Accepts frame (p ++ q) ↔ p.Accepts frame ∧ q.Accepts frame := by
  simp only [Accepts, List.mem_append]
  exact ⟨fun h => ⟨fun i hi => h i (Or.inl hi), fun i hi => h i (Or.inr hi)⟩,
    fun h i hi => hi.elim (h.1 i) (h.2 i)⟩

/-- What a sweep over a frame that has all its bytes leaves behind. -/
structure Done (total : Nat) (accepted : Prop) (f : Frame) (o : Outcome Frame Progress) : Prop where
  result : o.result = .ok .settled
  covered : o.state.covered = total
  minimumLength : o.state.minimumLength = total
  hasError : o.state.hasError = false ↔ f.hasError = false ∧ accepted

theorem Laid.sweep_long {total first minimum : Nat} {p : Plan} (h : Laid total first minimum p)
    (f : Frame) (hc : f.covered ≤ first) (hm : f.minimumLength = minimum) (hl : total ≤ f.length) :
    Done total (p.Accepts f.values) f (p.sweep f) := by
  induction h generalizing f with
  | require length rest ih =>
    obtain ⟨hr, hcov, hmin, herr⟩ := ih (f.require length) hc (by simp only [Frame.require, hm]) hl
    refine ⟨hr, hcov, hmin, herr.trans ?_⟩
    simp only [accepts_cons, Item.Accepts, true_and]
    exact Iff.rfl
  | @await first minimum index p hi rest ih =>
    have passed : Passed f (.await index) := Nat.lt_of_lt_of_le hi (Nat.le_trans rest.minimum_le hl)
    rw [sweep_cons_of_passed p passed]
    obtain ⟨hr, hcov, hmin, herr⟩ := ih f hc hm hl
    refine ⟨hr, hcov, hmin, herr.trans ?_⟩
    simp only [accepts_cons, Item.Accepts, true_and]
  | @field first minimum last p said h rest ih =>
    obtain ⟨hf, hlast⟩ := h
    have hw : last < f.length := Nat.lt_of_lt_of_le hlast (Nat.le_trans rest.minimum_le hl)
    obtain ⟨hstate, hresult⟩ := sweep_cons_of_due said p (Nat.le_trans hc hf) hw
    obtain ⟨hr, hcov, hmin, herr⟩ := ih (f.reportedTo last said) (Nat.le_refl _) hm hl
    refine ⟨hresult.trans hr, by rw [hstate, hcov], by rw [hstate, hmin], ?_⟩
    rw [hstate, herr]
    simp only [accepts_cons, Item.due, Item.Accepts, Frame.reportedTo, Bool.or_eq_false_iff, and_assoc]
    exact Iff.rfl
  | @trailer first minimum last h =>
    obtain ⟨hf, h3, hmin, ht⟩ := h
    have hw : last < f.length := by omega
    obtain ⟨note, hn⟩ := Frame.trailerNote_ok h3 hw
    obtain ⟨hstate, hresult⟩ :=
      sweep_cons_of_due (f := f.require (last + 1)) note [] (Nat.le_trans hc hf) hw
    rw [sweep_trailer hn]
    refine ⟨hresult, by rw [hstate]; exact ht, ?_, ?_⟩
    · rw [hstate]
      show max f.minimumLength (last + 1) = total
      omega
    · rw [hstate]
      simp only [accepts_cons, Item.Accepts, ← Frame.isError_trailerNote h3 hw hn]
      simp [sweep, Outcome.done, Frame.reportedTo, Frame.require, Accepts]

end Plan

end ModbusRtu
