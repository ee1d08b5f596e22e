import ModbusRtu.Proofs.Promptness

/-! Times within a frame. What is said of a frame, and when it is said, depends on the values of its bytes, on
their number and on the cursor; times only tell where on the clock a report is put. So frames with the same
values go through the same steps, whatever their times are. -/

namespace ModbusRtu

/-- What is said of which bytes, without the time. -/
def Report.untimed (r : Report) : Role × Note × Option (Nat × Nat) := (r.role, r.note, r.covers)

/-- Two frames that differ in nothing but times. -/
structure Frame.Alike (f g : Frame) : Prop where
  role : f.role = g.role
  values : f.values = g.values
  minimumLength : f.minimumLength = g.minimumLength
  covered : f.covered = g.covered
  hasError : f.hasError = g.hasError
  errorRanges : f.errorRanges = g.errorRanges

/-- Two outcomes that differ in nothing but times. -/
structure Outcome.Alike {α : Type} (o p : Outcome Frame α) : Prop where
  state : o.state.Alike p.state
  reports : o.reports.map Report.untimed = p.reports.map Report.untimed
  result : o.result = p.result

namespace Outcome

variable {α β : Type} {f g : Frame} {o p : Outcome Frame α}

theorem alike_done (h : f.Alike g) (a : α) : (done f a).Alike (done g a) := ⟨h, rfl, rfl⟩

theorem alike_failed (h : f.Alike g) (fault : Fault) :
    (failed f fault : Outcome Frame α).Alike (failed g fault) :=
  ⟨h, rfl, rfl⟩

theorem Alike.andThen {next next' : Frame → α → Outcome Frame β} (h : o.Alike p)
    (hn : ∀ f g a, Frame.Alike f g → (next f a).Alike (next' g a)) :
    (o.andThen next).Alike (p.andThen next') := by
  cases hr : o.result with
  | error fault =>
    have hr' : p.result = .error fault := h.result.symm.trans hr
    simp only [Outcome.andThen, hr, hr']
    exact ⟨h.state, h.reports, rfl⟩
  | ok a =>
    obtain ⟨state, reports, result⟩ := hn _ _ a h.state
    rw [andThen_eq_of_ok hr, andThen_eq_of_ok (h.result.symm.trans hr)]
    refine ⟨state, ?_, result⟩
    rw [List.map_append, List.map_append, h.reports, reports]

end Outcome

namespace Frame

open Outcome

variable {f g : Frame}

theorem alike_opened (role : Role) (start start' : Time) : (opened role start).Alike (opened role start') :=
  ⟨rfl, rfl, rfl, rfl, rfl, rfl⟩

namespace Alike

theorem length (h : f.Alike g) : f.length = g.length := by
  rw [← f.length_values, ← g.length_values, h.values]

theorem value? (h : f.Alike g) (index : Nat) : f.value? index = g.value? index := by
  have same := congrArg (fun values : Bytes => values[index]?) h.values
  simp only [Frame.values, List.getElem?_map] at same
  exact same

/-- Both frames have a byte at a place, or none of them has. -/
theorem getElem? (h : f.Alike g) (index : Nat) :
    (f.bytes[index]? = none ∧ g.bytes[index]? = none) ∨
      ∃ b c, f.bytes[index]? = some b ∧ g.bytes[index]? = some c := by
  have length : f.bytes.length = g.bytes.length := h.length
  by_cases hi : index < f.bytes.length
  · exact Or.inr ⟨_, _, List.getElem?_eq_getElem hi, List.getElem?_eq_getElem (length ▸ hi)⟩
  · have beyond := Nat.not_lt.mp hi
    exact Or.inl ⟨List.getElem?_eq_none beyond, List.getElem?_eq_none (length ▸ beyond)⟩

theorem require (h : f.Alike g) (n : Nat) : (f.require n).Alike (g.require n) :=
  { h with minimumLength := congrArg (max · n) h.minimumLength }

theorem append (h : f.Alike g) {b c : Byte} (hv : b.value = c.value) : (f.append b).Alike (g.append c) := by
  refine { h with values := ?_ }
  show (f.bytes ++ [b]).map Byte.value = (g.bytes ++ [c]).map Byte.value
  rw [List.map_append, List.map_append, List.map_singleton, List.map_singleton, hv]
  exact congrArg (· ++ [c.value]) h.values

theorem lastCovered? (h : f.Alike g) : f.lastCovered? = g.lastCovered? := by
  rw [Frame.lastCovered?, Frame.lastCovered?, h.covered]

theorem errorCovers (h : f.Alike g) : f.errorCovers = g.errorCovers := by
  funext index
  rw [Frame.errorCovers, Frame.errorCovers, h.errorRanges]

theorem lastIndex (h : f.Alike g) : f.lastIndex = g.lastIndex := congrArg (· - 1) h.length

theorem isEmpty (h : f.Alike g) : f.bytes.isEmpty = g.bytes.isEmpty := by
  have length : f.bytes.length = g.bytes.length := h.length
  rw [Bool.eq_iff_iff, List.isEmpty_iff_length_eq_zero, List.isEmpty_iff_length_eq_zero, length]

theorem trailerNote (h : f.Alike g) (last : Nat) : f.trailerNote last = g.trailerNote last := by
  simp only [Frame.trailerNote, slice?, h.length, h.values]

theorem report (h : f.Alike g) (last : Nat) (note : Note) : (f.report last note).Alike (g.report last note) := by
  have first := h.getElem? f.covered
  have final := h.getElem? last
  simp only [Frame.report, ← h.covered]
  rcases first with ⟨hf, hg⟩ | ⟨_, _, hf, hg⟩
  · rw [hf, hg]
    exact alike_failed h _
  rcases final with ⟨hf', hg'⟩ | ⟨_, _, hf', hg'⟩
  · rw [hf, hg, hf', hg']
    exact alike_failed h _
  · rw [hf, hg, hf', hg']
    refine ⟨{ h with covered := rfl, hasError := ?_, errorRanges := ?_ }, ?_, rfl⟩
    · exact congrArg (· || note.isError) h.hasError
    · simp only [h.errorRanges]
    · simp only [List.map_singleton, Report.untimed, h.role]

theorem reportIfNew (h : f.Alike g) (last : Nat) (note : Except Fault Note) :
    (f.reportIfNew last note).Alike (g.reportIfNew last note) := by
  simp only [Frame.reportIfNew, whenDue, h.length, h.covered]
  split
  · exact alike_done h _
  split
  · exact alike_done h _
  cases note with
  | ok note => exact h.report last note
  | error fault => exact alike_failed h fault

theorem reportBetween (h : f.Alike g) (start stop start' stop' : Time) (note : Note) :
    (f.reportBetween start stop note).Alike (g.reportBetween start' stop' note) := by
  refine ⟨{ h with hasError := congrArg (· || note.isError) h.hasError }, ?_, rfl⟩
  simp only [Frame.reportBetween, List.map_singleton, Report.untimed, h.role]

end Alike

end Frame

open ModbusRtu.Outcome ModbusRtu.Frame

theorem Item.alike_apply (item : Item) {f g : Frame} (h : f.Alike g) : (item.apply f).Alike (item.apply g) := by
  cases item with
  | require length => exact alike_done (h.require length) _
  | await index =>
    simp only [apply, h.length]
    exact alike_done h _
  | field last note => exact h.reportIfNew last note
  | trailer last =>
    rw [trailer_apply, trailer_apply, h.trailerNote last]
    exact (h.require (last + 1)).reportIfNew last _
  | pending => exact alike_done h _
  | broken fault => exact alike_failed h fault

theorem Plan.alike_run (p : Plan) {f g : Frame} (h : f.Alike g) : (p.run f).Alike (p.run g) := by
  induction p generalizing f g with
  | nil => exact alike_done h _
  | cons item rest ih =>
    refine (item.alike_apply h).andThen fun f g progress h => ?_
    cases progress with
    | settled => exact ih h
    | reported => exact alike_done h _
    | waiting => exact alike_done h _

namespace Grammar

theorem alike_pass (g : Grammar) {f f' : Frame} (h : f.Alike f') : (g.pass f).Alike (g.pass f') := by
  rw [pass, pass, follow, follow, h.values]
  exact Plan.alike_run _ h

theorem alike_passes (g : Grammar) (n : Nat) {f f' : Frame} (h : f.Alike f') :
    (g.passes n f).Alike (g.passes n f') := by
  induction n generalizing f f' with
  | zero => exact g.alike_pass h
  | succ n ih =>
    refine (g.alike_pass h).andThen fun f f' progress h => ?_
    cases progress with
    | reported => exact ih h
    | settled => exact alike_done h _
    | waiting => exact alike_done h _

theorem alike_parse (g : Grammar) {f f' : Frame} (h : f.Alike f') : (g.parse f).Alike (g.parse f') := by
  rw [parse, parse, h.length, h.covered]
  exact g.alike_passes _ h

theorem alike_push (g : Grammar) {f f' : Frame} (h : f.Alike f') {b b' : Byte} (hv : b.value = b'.value) :
    (g.push f b).Alike (g.push f' b') :=
  g.alike_parse (h.append hv)

/-- The same values, pushed one by one. -/
theorem alike_deliver (g : Grammar) {f f' : Frame} (h : f.Alike f') {bytes bytes' : List Byte}
    (same : bytes.map Byte.value = bytes'.map Byte.value) :
    (g.deliver f (bytes.map Delivery.push)).Alike (g.deliver f' (bytes'.map Delivery.push)) := by
  have fromOutcome {o o' : Outcome Frame (Option Progress)} (ho : o.Alike o') :
      ((bytes.map Delivery.push).foldl (fun o d => o.andThen fun f _ => g.handle f d) o).Alike
        ((bytes'.map Delivery.push).foldl (fun o d => o.andThen fun f _ => g.handle f d) o') := by
    induction bytes generalizing bytes' o o' with
    | nil =>
      obtain rfl := List.map_eq_nil_iff.mp same.symm
      exact ho
    | cons b bytes ih =>
      obtain ⟨b', bytes', rfl, hv, rest⟩ := List.map_eq_cons_iff.mp same.symm
      refine ih rest.symm (ho.andThen fun f f' _ h => ?_)
      exact (g.alike_push h hv.symm).andThen fun f f' progress h => alike_done h (some progress)
  exact fromOutcome (alike_done h none)

end Grammar

namespace Frame.Alike

variable {f g : Frame}

/-- Whether there are ends of a span, not where they are. -/
def Found (times times' : Except Fault (Time × Time)) : Prop :=
  times.map (fun _ => ()) = times'.map fun _ => ()

theorem reportWithin (h : f.Alike g) {times times' : Except Fault (Time × Time)} (found : Found times times')
    (note : Note) : (f.reportWithin times note).Alike (g.reportWithin times' note) := by
  cases times with
  | ok ends =>
    cases times' with
    | ok ends' => exact h.reportBetween _ _ _ _ note
    | error fault => cases found
  | error fault =>
    cases times' with
    | ok ends' => cases found
    | error fault' =>
      obtain rfl := Except.error.inj found
      exact alike_failed h fault

theorem found_byteAt (h : f.Alike g) (index : Nat) (ends ends' : Byte → Time × Time) :
    Found ((f.byteAt index).map ends) ((g.byteAt index).map ends') := by
  rw [byteAt, byteAt]
  rcases h.getElem? index with ⟨hf, hg⟩ | ⟨_, _, hf, hg⟩
  · rw [hf, hg]
    rfl
  · rw [hf, hg]
    rfl

theorem found_oversizedTimes (h : f.Alike g) (margin margin' : Time) :
    Found (f.oversizedTimes margin) (g.oversizedTimes margin') := by
  rw [oversizedTimes, oversizedTimes, h.errorCovers, h.lastIndex]
  split
  · exact h.found_byteAt _ _ _
  · exact h.found_byteAt _ _ _

theorem found_tooShortTimes (h : f.Alike g) (margin margin' : Time) :
    Found (f.tooShortTimes margin) (g.tooShortTimes margin') := by
  rw [tooShortTimes, tooShortTimes, h.lastCovered?]
  split
  · exact h.found_byteAt _ _ _
  · rfl

theorem found_wholeTimes (h : f.Alike g) : Found f.wholeTimes g.wholeTimes := by
  rw [wholeTimes, wholeTimes, h.lastIndex, byteAt, byteAt, byteAt, byteAt]
  rcases h.getElem? 0 with ⟨hf, hg⟩ | ⟨_, _, hf, hg⟩
  · rw [hf, hg]
    rfl
  rcases h.getElem? g.lastIndex with ⟨hf', hg'⟩ | ⟨_, _, hf', hg'⟩
  · rw [hf, hg, hf', hg']
    rfl
  · rw [hf, hg, hf', hg']
    rfl

theorem reportUnknown (h : f.Alike g) (recognizes : UInt8 → Bool) :
    (f.reportUnknown recognizes).Alike (g.reportUnknown recognizes) := by
  simp only [Frame.reportUnknown, h.value? 1, h.length, h.lastIndex]
  split
  · split
    · exact (h.reportIfNew _ _).andThen fun _ _ _ h => alike_done h ()
    · exact alike_done h ()
  · exact alike_done h ()

theorem reportOversized (h : f.Alike g) (margin margin' : Time) :
    (f.reportOversized margin).Alike (g.reportOversized margin') := by
  simp only [Frame.reportOversized, h.length, h.lastIndex]
  split
  · refine (h.reportIfNew _ _).andThen fun f g progress h => ?_
    cases progress with
    | settled => exact h.reportWithin (h.found_oversizedTimes margin margin') _
    | reported => exact alike_done h ()
    | waiting => exact alike_done h ()
  · exact alike_done h ()

theorem reportLength (h : f.Alike g) (parsed : Progress) (margin margin' : Time) :
    (f.reportLength parsed margin).Alike (g.reportLength parsed margin') := by
  simp only [Frame.reportLength, h.length, h.minimumLength, h.lastIndex]
  split
  · exact h.reportWithin (h.found_tooShortTimes margin margin') _
  split
  · exact (h.reportIfNew _ _).andThen fun _ _ _ h => alike_done h ()
  · exact alike_done h ()

theorem markErrors (h : f.Alike g) (wanted : Bool) : (f.markErrors wanted).Alike (g.markErrors wanted) := by
  rw [Frame.markErrors, Frame.markErrors, h.hasError]
  split
  · exact h.reportWithin h.found_wholeTimes _
  · exact alike_done h ()

end Frame.Alike

theorem Grammar.alike_close (g : Grammar) (margin margin' : Time) (wanted : Bool) {f f' : Frame}
    (h : f.Alike f') : (g.close ⟨margin, wanted⟩ f).Alike (g.close ⟨margin', wanted⟩ f') := by
  refine (g.alike_parse h).andThen fun f f' parsed h => ?_
  rw [h.isEmpty]
  split
  · exact alike_done h ()
  refine (h.reportUnknown _).andThen fun f f' _ h => ?_
  refine (h.reportOversized margin margin').andThen fun f f' _ h => ?_
  exact (h.reportLength parsed margin margin').andThen fun f f' _ h => h.markErrors wanted

/-- What can be seen of an outcome, apart from times. -/
structure Sight (α : Type) where
  said : List (Category × String)
  result : Except Fault α
  minimumLength : Nat
  lastCovered? : Option Nat
  hasError : Bool
  errorCovers : Nat → Bool

def Outcome.sight {α : Type} (o : Outcome Frame α) : Sight α where
  said := o.reports.map fun r => (r.span.category, r.span.text)
  result := o.result
  minimumLength := o.state.minimumLength
  lastCovered? := o.state.lastCovered?
  hasError := o.state.hasError
  errorCovers := o.state.errorCovers

theorem Outcome.Alike.sight {α : Type} {o p : Outcome Frame α} (h : o.Alike p) : o.sight = p.sight := by
  have said := congrArg (List.map fun r => (r.2.1.category, r.2.1.text)) h.reports
  rw [List.map_map, List.map_map] at said
  simp only [Outcome.sight, Sight.mk.injEq]
  exact ⟨said, h.result, h.state.minimumLength, h.state.lastCovered?, h.state.hasError, h.state.errorCovers⟩

/-- Two frames with the same values, pushed one by one and closed, show the same at every push and at the end,
whatever their times, their starts and the margins are. No push and no end of a frame fails. -/
theorem times_immaterial (role : Role) (n : Nat) (wanted : Bool) (start start' margin margin' : Time)
    (bytes bytes' : List Byte) (same : bytes.map Byte.value = bytes'.map Byte.value) :
    let g := role.grammar n
    let pushed (start : Time) (bytes : List Byte) := g.deliver (.opened role start) (bytes.map Delivery.push)
    (∀ k b b', bytes[k]? = some b → bytes'[k]? = some b' →
      let o := g.push (pushed start (bytes.take k)).state b
      (∃ progress, o.result = .ok progress) ∧ o.sight = (g.push (pushed start' (bytes'.take k)).state b').sight) ∧
    let o := g.close ⟨margin, wanted⟩ (pushed start bytes).state
    o.result = .ok () ∧ o.sight = (g.close ⟨margin', wanted⟩ (pushed start' bytes').state).sight := by
  intro g pushed
  have hg : g.Lawful := role.lawful_grammar n
  have alike {xs ys : List Byte} (same : xs.map Byte.value = ys.map Byte.value) :=
    (g.alike_deliver (alike_opened role start start') same).state
  refine ⟨fun k b b' hb hb' => ⟨hg.parse_ok _, ?_⟩, ?_, ?_⟩
  · have first : (bytes.take k).map Byte.value = (bytes'.take k).map Byte.value := by
      rw [List.map_take, List.map_take, same]
    have value := congrArg (fun values => values[k]?) same
    simp only [List.getElem?_map, hb, hb', Option.map_some, Option.some.injEq] at value
    exact (g.alike_push (alike first) value).sight
  · obtain ⟨parsed, hp⟩ := hg.parse_ok (pushed start bytes).state
    obtain ⟨-, state, -⟩ := Grammar.deliver_push_eq role n start bytes
    have evolves := g.evolves_parse (.filled role start bytes)
    refine g.close_ok _ ?_ hp
    rw [show (pushed start bytes).state = _ from state, evolves.length]
    exact evolves.within (Nat.zero_le _)
  · exact (g.alike_close margin margin' wanted (alike same)).sight

/-- The query for the exception status with its times turned around, from a later start on. -/
theorem times_immaterial_statusQuery :
    let turned : List Byte := statusQuery.map fun b => ⟨b.value, b.stop, b.start⟩
    let g := Role.request.grammar 2
    let pushed (start : Time) (bytes : List Byte) := g.deliver (.opened .request start) (bytes.map Delivery.push)
    statusQuery.map Byte.value = turned.map Byte.value ∧
      (g.push (pushed 0 (statusQuery.take 3)).state ⟨0x22, 30, 38⟩).sight =
        (g.push (pushed 500 (turned.take 3)).state ⟨0x22, 38, 30⟩).sight ∧
      (g.close ⟨10, true⟩ (pushed 0 statusQuery).state).sight =
        (g.close ⟨0, true⟩ (pushed 500 turned).state).sight := by
  intro turned g pushed
  have same : statusQuery.map Byte.value = turned.map Byte.value := rfl
  obtain ⟨push, -, close⟩ := times_immaterial .request 2 true 0 500 10 0 statusQuery turned same
  exact ⟨same, (push 3 ⟨0x22, 30, 38⟩ ⟨0x22, 38, 30⟩ rfl rfl).2, close⟩

end ModbusRtu
