import ModbusRtu.Proofs.Soundness

/-! Bytes that arrive between two parses. A plan is made anew from all bytes received, so a parse of a
prefix must have followed the same items as a parse of the whole, up to where it had to wait. `Agree`
says so of two plans, and it is all that is needed for the second parse to take up where the first one
stopped. -/

namespace ModbusRtu

open Item

namespace Frame

/-- The frame after `more` has arrived. -/
def extend (f : Frame) (more : List Byte) : Frame :=
  { f with
    bytes := f.bytes ++ more
    lastRead := more.foldl (fun time b => time.later b.stop) f.lastRead }

theorem extend_nil (f : Frame) : f.extend [] = f := by
  simp [extend]

theorem extend_cons (f : Frame) (b : Byte) (more : List Byte) :
    f.extend (b :: more) = (f.append b).extend more := by
  simp [extend, append]

theorem extend_append (f : Frame) (more rest : List Byte) :
    f.extend (more ++ rest) = (f.extend more).extend rest := by
  simp [extend]

theorem values_extend (f : Frame) (more : List Byte) :
    (f.extend more).values = f.values ++ more.map Byte.value := by
  simp [extend, values]

theorem grows_extend (f : Frame) (more : List Byte) : Grows f (f.extend more) :=
  ⟨List.prefix_append _ _, Nat.le_refl _, Nat.le_refl _⟩

/-- A new frame with `bytes`, none of them parsed yet. -/
def filled (role : Role) (start : Time) (bytes : List Byte) : Frame := (opened role start).extend bytes

theorem values_filled (role : Role) (start : Time) (bytes : List Byte) :
    (filled role start bytes).values = bytes.map Byte.value :=
  values_extend _ _

theorem report_extend {f : Frame} {last : Nat} (note : Note) (more : List Byte) (hc : f.covered ≤ last)
    (hl : last < f.length) :
    (f.extend more).report last note = (f.report last note).mapState (·.extend more) := by
  have hfirst : f.covered < f.bytes.length := Nat.lt_of_le_of_lt hc hl
  have hfinal : last < f.bytes.length := hl
  simp only [report, extend, List.getElem?_append_left hfirst, List.getElem?_append_left hfinal,
    List.getElem?_eq_getElem hfirst, List.getElem?_eq_getElem hfinal, Outcome.mapState]

theorem slice?_extend {f : Frame} {start count : Nat} (more : List Byte) (h : start + count ≤ f.length) :
    (f.extend more).slice? start count = f.slice? start count := by
  have hm : start + count ≤ (f.extend more).length := Nat.le_trans h (grows_extend f more).length
  simp only [slice?, h, hm, if_true, values_extend]
  rw [Bytes.slice_append _ (by rw [length_values]; exact h)]

theorem trailerNote_extend {f : Frame} {last : Nat} (more : List Byte) (h : last < f.length) :
    (f.extend more).trailerNote last = f.trailerNote last := by
  have hs : 0 + (last + 1) ≤ f.length := by omega
  simp only [trailerNote, slice?_extend more hs]

end Frame

namespace Item

open ModbusRtu.Frame

theorem field_extend {f : Frame} {last : Nat} (note : Except Fault Note) (more : List Byte)
    (h : last < f.length) :
    (field last note).apply (f.extend more) = ((field last note).apply f).mapState (·.extend more) := by
  have hm : last < (f.extend more).length := Nat.lt_of_lt_of_le h (grows_extend f more).length
  rcases field_cases last note f with ⟨hl, -⟩ | ⟨hd, ha⟩ | ⟨said, rfl, hc, -, ha⟩ | ⟨fault, rfl, hc, -, ha⟩
  · exact absurd h (Nat.not_lt.mpr hl)
  · rw [ha, apply_of_passed (hd.of_grows (grows_extend f more))]
    rfl
  · rw [ha, ← report_extend said more hc h]
    exact reportIfNew_of_due said hc hm
  · rw [ha]
    exact reportIfNew_of_fault fault hc hm

/-- An item that does not wait has all it reads, and does with more bytes what it did without. -/
theorem apply_extend {item : Item} {f : Frame} (more : List Byte) (h : ¬ item.Waits f.length) :
    item.apply (f.extend more) = (item.apply f).mapState (·.extend more) := by
  cases item with
  | require length => rfl
  | await index =>
    have hi : index < f.length := Nat.not_le.mp h
    have hm : index < (f.extend more).length := Nat.lt_of_lt_of_le hi (grows_extend f more).length
    simp only [apply, hi, hm, if_true]
    rfl
  | field last note => exact field_extend note more (Nat.not_le.mp h)
  | trailer last =>
    have hl : last < f.length := Nat.not_le.mp h
    rw [trailer_apply, trailerNote_extend more hl]
    exact field_extend (f := f.require (last + 1)) (f.trailerNote last) more hl
  | pending => exact (h trivial).elim
  | broken fault => rfl

/-- What an item required before it waited, it requires again. -/
theorem apply_require_demand (item : Item) (f : Frame) (more : List Byte) :
    item.apply ((f.require item.demand).extend more) = item.apply (f.extend more) := by
  have twice (length : Nat) : ((f.require length).extend more).require length =
      (f.extend more).require length := require_of_le (Nat.le_max_right _ _)
  cases item with
  | require length => simp only [demand, apply, twice]
  | trailer last =>
    simp only [demand, trailer_apply, twice]
    rfl
  | _ => simp only [demand, require_zero]

end Item

namespace Plan

/-- With `n` bytes received, both plans lead to the same items, up to the first that has to wait. Of a
field that waits they know the place, not yet the note. -/
inductive Agree (n : Nat) : Plan → Plan → Prop
  | nil : Agree n [] []
  | cons (item : Item) {p q : Plan} (rest : ¬ item.Waits n → Agree n p q) :
      Agree n (item :: p) (item :: q)
  | field (last : Nat) {said told : Except Fault Note} {p q : Plan} (same : last < n → said = told)
      (rest : last < n → Agree n p q) : Agree n (.field last said :: p) (.field last told :: q)

theorem Agree.refl (n : Nat) (p : Plan) : Agree n p p := by
  induction p with
  | nil => exact .nil
  | cons item rest ih => exact .cons item fun _ => ih

theorem Agree.append {n : Nat} {p q p' q' : Plan} (h : Agree n p q) (h' : Agree n p' q') :
    Agree n (p ++ p') (q ++ q') := by
  induction h with
  | nil => exact h'
  | cons item rest ih => exact .cons item ih
  | field last same rest ih => exact .field last same ih

/-- Fields laid out one after another, of which each reads no further than its own last byte. -/
theorem Agree.map {n : Nat} {α : Type} (last : α → Nat) {said told : α → Note} (places : List α)
    (h : ∀ a ∈ places, last a < n → said a = told a) :
    Agree n (places.map fun a => .due (last a) (said a)) (places.map fun a => .due (last a) (told a)) := by
  induction places with
  | nil => exact .nil
  | cons a rest ih =>
    refine .field (last a) (fun hl => by rw [h a (by simp) hl]) (fun _ => ?_)
    exact ih fun b hb => h b (by simp [hb])

/-- The step of the induction below for an item that does not wait. -/
theorem sweep_cons_extend {item : Item} {f : Frame} {p q : Plan} (more : List Byte) (hs : item.Sound)
    (hw : ¬ item.Waits f.length)
    (ih : ∀ g : Frame, g.length = f.length →
      q.sweep (g.extend more) = (p.sweep g).andThen fun h _ => q.sweep (h.extend more)) :
    sweep (item :: q) (f.extend more) =
      (sweep (item :: p) f).andThen fun h _ => sweep (item :: q) (h.extend more) := by
  obtain ⟨progress, hr⟩ := apply_ok hs f
  have hp : progress ≠ .waiting := fun he => not_waiting hw (he ▸ hr)
  have hl := (evolves_apply item f).length
  rw [sweep_cons_of_ready p hs hw, Outcome.andThen_assoc, sweep, apply_extend more hw,
    Outcome.mapState_andThen_of_ok hr]
  apply Outcome.andThen_congr
  intro told ht
  obtain rfl : progress = told := Except.ok.inj (hr.symm.trans ht)
  -- the second sweep meets the item again, behind the cursor
  have goOn : q.sweep ((item.apply f).state.extend more) =
      (p.sweep (item.apply f).state).andThen fun h _ => sweep (item :: q) (h.extend more) := by
    rw [ih _ hl]
    apply Outcome.andThen_congr
    intro _ _
    have hg := (evolves_sweep p (item.apply f).state).grows.trans (Frame.grows_extend _ more)
    exact (sweep_cons_of_passed q ((passed_of_apply hr hp).of_grows hg)).symm
  cases progress with
  | settled => exact goOn
  | reported => exact goOn
  | waiting => exact absurd rfl hp

theorem sweep_extend {p q : Plan} {n : Nat} (h : Agree n p q) (hs : p.Sound) (f : Frame)
    (hn : f.length = n) (more : List Byte) :
    q.sweep (f.extend more) = (p.sweep f).andThen fun g _ => q.sweep (g.extend more) := by
  induction h generalizing f with
  | nil => rfl
  | @cons item p q rest ih =>
    obtain ⟨hi, hrest⟩ := sound_cons.mp hs
    by_cases hw : item.Waits n
    · rw [← hn] at hw
      rw [sweep_cons_of_waits p hw, Outcome.done_andThen, sweep, sweep, apply_require_demand]
    · exact sweep_cons_extend more hi (hn ▸ hw) fun g hg => ih hw hrest g (hg.trans hn)
  | @field last said told p q same rest ih =>
    obtain ⟨hi, hrest⟩ := sound_cons.mp hs
    by_cases hl : last < n
    · obtain rfl := same hl
      have hw : ¬ (Item.field last said).Waits f.length := by
        rw [hn]; exact Nat.not_le.mpr hl
      exact sweep_cons_extend more hi hw fun g hg => ih hl hrest g (hg.trans hn)
    · have hw : (Item.field last said).Waits f.length := by
        rw [hn]; exact Nat.not_lt.mp hl
      rw [sweep_cons_of_waits p hw, Outcome.done_andThen]
      simp only [demand, Frame.require_zero]

end Plan

namespace Grammar

/-- No plan of the grammar can fail, and what it plans for a prefix it never has to take back. -/
structure Lawful (g : Grammar) : Prop where
  sound : ∀ bytes : Bytes, (g.plan bytes).Sound
  causal : ∀ bytes more : Bytes, Plan.Agree bytes.length (g.plan bytes) (g.plan (bytes ++ more))

theorem Lawful.parse_ok {g : Grammar} (hg : g.Lawful) (f : Frame) :
    ∃ progress, (g.parse f).result = .ok progress := by
  rw [parse_eq_sweep]
  exact Plan.sweep_ok (hg.sound _) f

/-- Parsing early changes nothing: what it reports is what a later parse would have begun with. -/
theorem Lawful.parse_extend {g : Grammar} (hg : g.Lawful) (f : Frame) (more : List Byte) :
    g.parse (f.extend more) = (g.parse f).andThen fun h _ => g.parse (h.extend more) := by
  have hp := hg.causal f.values (more.map Byte.value)
  rw [parse_eq_sweep, Frame.values_extend, Plan.sweep_extend hp (hg.sound _) f f.length_values.symm,
    parse_eq_sweep g f]
  apply Outcome.andThen_congr
  intro progress _
  have hv := (g.evolves_parse f).values
  rw [parse_eq_sweep] at hv
  rw [parse_eq_sweep, Frame.values_extend, hv]

end Grammar

end ModbusRtu
