import ModbusRtu.Proofs.FieldTable
import ModbusRtu.Proofs.Schedule

/-! The end of a frame. Each closing check either finds nothing and leaves the frame as it is, or reports
an error. None of them can fail on a frame that has bytes, since the cursor never passes the last one. -/

namespace ModbusRtu

/-- What is said of a frame as a whole because it is wrong. -/
def Note.Closing (note : Note) : Prop := note.isError = true ∧ note.ofField = false

theorem Note.isError_iff {note : Note} : note.isError = true ↔ note.category = .error := decide_eq_true_iff

namespace Frame

theorem evolves_reportBetween (f : Frame) (start stop : Time) (note : Note) :
    f.Evolves (f.reportBetween start stop note) := by
  exact {
    role := rfl
    bytes := rfl
    start := rfl
    lastRead := rfl
    minimumLength := Nat.le_refl _
    covered := Nat.le_refl _
    within := id
    reports := fun r hmem => by rw [List.mem_singleton.mp hmem]
    fits := fun r hmem => by
      rw [List.mem_singleton.mp hmem]
      nofun
    indexes := by simp [reportBetween, Report.indexes]
    hasError := by simp [reportBetween]
    errorRanges := by
      cases he : note.isError with
      | true => simp [reportBetween, Report.errorRanges, he]
      | false => simp [reportBetween, Report.errorRanges, he] }

theorem evolves_reportWithin (f : Frame) (times : Except Fault (Time × Time)) (note : Note) :
    f.Evolves (f.reportWithin times note) := by
  cases times with
  | ok ends => exact evolves_reportBetween f _ _ note
  | error fault => exact .failed f fault

/-- The bytes that no report covers yet, reported with one note. -/
def reportRest (f : Frame) (note : Note) : Outcome Frame Unit :=
  (f.reportIfNew f.lastIndex (.ok note)).andThen fun f _ => .done f ()

theorem evolves_reportRest (f : Frame) (note : Note) : f.Evolves (f.reportRest note) :=
  (evolves_reportIfNew f _ _).andThen fun _ => .done _ ()

theorem evolves_reportUnknown (f : Frame) (recognizes : UInt8 → Bool) :
    f.Evolves (f.reportUnknown recognizes) := by
  unfold reportUnknown
  split
  · split
    · exact evolves_reportRest f _
    · exact .done f ()
  · exact .done f ()

theorem evolves_reportOversized (f : Frame) (margin : Time) : f.Evolves (f.reportOversized margin) := by
  unfold reportOversized
  split
  · refine (evolves_reportIfNew f _ _).andThen fun progress => ?_
    split
    · exact evolves_reportWithin _ _ _
    · exact .done _ ()
  · exact .done f ()

theorem evolves_reportLength (f : Frame) (parsed : Progress) (margin : Time) :
    f.Evolves (f.reportLength parsed margin) := by
  unfold reportLength
  split
  · exact evolves_reportWithin f _ _
  split
  · exact evolves_reportRest f _
  · exact .done f ()

theorem evolves_markErrors (f : Frame) (wanted : Bool) : f.Evolves (f.markErrors wanted) := by
  unfold markErrors
  split
  · exact evolves_reportWithin f _ _
  · exact .done f ()

/-- A frame that has bytes, with the cursor among them or right behind. -/
structure Held (f : Frame) : Prop where
  nonempty : f.bytes ≠ []
  covered : f.covered ≤ f.length

theorem Held.length_pos {f : Frame} (h : f.Held) : 0 < f.length := List.length_pos_iff.mpr h.nonempty

theorem Evolves.held {α : Type} {f : Frame} {o : Outcome Frame α} (h : Evolves f o) (hf : f.Held) :
    o.state.Held :=
  ⟨h.bytes ▸ hf.nonempty, h.length ▸ h.within hf.covered⟩

theorem held_filled (role : Role) (start : Time) {bytes : List Byte} (h : bytes ≠ []) :
    (filled role start bytes).Held :=
  ⟨h, Nat.zero_le _⟩

/-- `o` reports errors on `f` as a whole if `found`, and else leaves `f` alone. -/
structure Raises (f : Frame) (found : Prop) (o : Outcome Frame Unit) : Prop where
  evolves : f.Evolves o
  quiet : ¬ found → o = .done f ()
  raised : found → o.reports ≠ []
  closing : ∀ r ∈ o.reports, r.note.Closing
  result : o.result = .ok ()

theorem Raises.done {f : Frame} {found : Prop} (h : ¬ found) : Raises f found (.done f ()) :=
  ⟨.done f (), fun _ => rfl, fun hfound => absurd hfound h, List.forall_mem_nil _, rfl⟩

theorem Raises.of_reports {f : Frame} {found : Prop} {o : Outcome Frame Unit} (evolves : f.Evolves o)
    (h : found) {r : Report} (hr : o.reports = [r]) (closing : r.note.Closing) (ok : o.result = .ok ()) :
    Raises f found o := by
  refine ⟨evolves, fun hn => absurd h hn, fun _ => hr ▸ List.cons_ne_nil r [], fun r' hmem => ?_, ok⟩
  rw [hr] at hmem
  exact List.mem_singleton.mp hmem ▸ closing

theorem Raises.congr {f : Frame} {found other : Prop} {o : Outcome Frame Unit} (h : Raises f found o)
    (hiff : found ↔ other) : Raises f other o := by
  rwa [← propext hiff]

theorem Raises.hasError_eq_false {f : Frame} {found : Prop} {o : Outcome Frame Unit}
    (h : Raises f found o) : o.state.hasError = false ↔ f.hasError = false ∧ ¬ found := by
  constructor
  · intro clean
    rw [h.evolves.hasError, Bool.or_eq_false_iff] at clean
    refine ⟨clean.1, fun hc => ?_⟩
    obtain ⟨r, hmem⟩ := List.exists_mem_of_ne_nil _ (h.raised hc)
    have := List.any_eq_false.mp clean.2 r hmem
    exact this (h.closing r hmem).1
  · rintro ⟨clean, hn⟩
    rw [h.quiet hn]
    exact clean

/-- Two checks one after the other. The second sees the frame as it was unless the first found something,
and then there is an error anyhow. -/
theorem Raises.andThen {f : Frame} {found : Prop} {later : Frame → Prop} {o : Outcome Frame Unit}
    {next : Frame → Outcome Frame Unit} (h : Raises f found o)
    (hn : ∀ g : Frame, g.Held → Raises g (later g) (next g)) (hf : f.Held) :
    Raises f (found ∨ later f) (o.andThen fun g _ => next g) := by
  have second := hn o.state (h.evolves.held hf)
  have evolves : Evolves f (o.andThen fun g _ => next g) := h.evolves.andThen fun _ => second.evolves
  rw [Outcome.andThen_eq_of_ok h.result] at evolves ⊢
  refine ⟨evolves, fun none => ?_, fun either => ?_, fun r hmem => ?_, second.result⟩
  · have hq := h.quiet fun hc => none (Or.inl hc)
    have hs : o.state = f := congrArg Outcome.state hq
    have hr : o.reports = [] := congrArg Outcome.reports hq
    rw [hs, hr, (hn f hf).quiet fun hc => none (Or.inr hc)]
    rfl
  · by_cases hc : found
    · exact List.append_ne_nil_of_left_ne_nil (h.raised hc) _
    · have hs : o.state = f := congrArg Outcome.state (h.quiet hc)
      rw [hs]
      exact List.append_ne_nil_of_right_ne_nil _ ((hn f hf).raised (either.resolve_left hc))
  · rcases List.mem_append.mp hmem with hmem | hmem
    · exact h.closing r hmem
    · exact second.closing r hmem

theorem byteAt_of_lt {f : Frame} {index : Nat} (h : index < f.length) :
    ∃ b, f.bytes[index]? = some b ∧ f.byteAt index = .ok b := by
  have hb : f.bytes[index]? = some f.bytes[index] := List.getElem?_eq_getElem h
  exact ⟨_, hb, by simp only [byteAt, hb]⟩

theorem lastIndex_lt {f : Frame} (hf : f.Held) : f.lastIndex < f.length :=
  Nat.sub_lt hf.length_pos Nat.one_pos

theorem reportRest_eq {f : Frame} (note : Note) (h : f.covered < f.length) :
    ∃ first final, f.bytes[f.covered]? = some first ∧ f.bytes[f.lastIndex]? = some final ∧
      f.reportRest note = ⟨f.reportedTo f.lastIndex note,
        [⟨f.role, note, first.start, final.stop, some (f.covered, f.lastIndex)⟩], .ok ()⟩ := by
  have hc : f.covered ≤ f.lastIndex := Nat.le_sub_one_of_lt h
  have hl : f.lastIndex < f.length := Nat.sub_one_lt_of_lt h
  obtain ⟨first, final, hfirst, hfinal, hr⟩ := report_of_due note hc hl
  refine ⟨first, final, hfirst, hfinal, ?_⟩
  rw [reportRest, reportIfNew_of_due note hc hl, hr]
  rfl

theorem reportRest_of_left {f : Frame} (note : Note) (h : f.covered < f.length) :
    ∃ r : Report, r.note = note ∧ r.covers = some (f.covered, f.lastIndex) ∧
      f.reportRest note = ⟨f.reportedTo f.lastIndex note, [r], .ok ()⟩ := by
  obtain ⟨first, final, -, -, hr⟩ := reportRest_eq note h
  exact ⟨_, rfl, rfl, hr⟩

theorem reportIfNew_of_covered {f : Frame} (note : Note) (hf : f.Held) (h : ¬ f.covered < f.length) :
    f.reportIfNew f.lastIndex (.ok note) = .done f .settled :=
  reportIfNew_of_lt_covered _ (lastIndex_lt hf) (Nat.lt_of_lt_of_le (lastIndex_lt hf) (Nat.not_lt.mp h))

/-- Where the bytes that reports cover end in time, or where the frame starts if there are none. -/
def reportedUntil (f : Frame) : Time :=
  match f.lastCovered?.bind fun index => f.bytes[index]? with
  | some final => final.stop
  | none => f.start

theorem reportedUntil_eq {f : Frame} {index : Nat} {final : Byte} (hc : f.covered = index + 1)
    (hb : f.bytes[index]? = some final) : f.reportedUntil = final.stop := by
  have hl : f.lastCovered? = some index := by simp [lastCovered?, hc]
  simp only [reportedUntil, hl, Option.bind_some, hb]

theorem reportedUntil_zero {f : Frame} (hc : f.covered = 0) : f.reportedUntil = f.start := by
  have hl : f.lastCovered? = none := by simp [lastCovered?, hc]
  simp only [reportedUntil, hl, Option.bind_none]

/-- A span beside the cursor keeps clear of the errors that cover bytes: it starts where the covered bytes
end, or it is the span of a byte that no error covers. -/
inductive Clear (f : Frame) (start stop : Time) : Prop
  | behind (h : start = f.reportedUntil)
  | free {index : Nat} {b : Byte} (hb : f.bytes[index]? = some b) (h : f.errorCovers index = false)
      (ends : start = b.start ∧ stop = b.stop)

/-- What a closing check makes of `f`: an error if `found`, and else nothing. The error covers all the
bytes that are left, or it is beside the cursor. -/
inductive Check (f : Frame) (found : Prop) (note : Note) : Outcome Frame Unit → Prop
  | quiet (h : ¬ found) : Check f found note (.done f ())
  | rest (h : found) (left : f.covered < f.length) : Check f found note (f.reportRest note)
  | aside {start stop : Time} (h : found) (clear : f.Clear start stop) :
      Check f found note (f.reportBetween start stop note)

section Check

variable {f : Frame} {found : Prop} {note : Note} {o : Outcome Frame Unit}

theorem Check.raises (h : Check f found note o) (closing : note.Closing) : Raises f found o := by
  cases h with
  | quiet h => exact .done h
  | rest h left =>
    have evolves := evolves_reportRest f note
    obtain ⟨r, rfl, -, hr⟩ := reportRest_of_left note left
    rw [hr] at evolves ⊢
    exact .of_reports evolves h rfl closing rfl
  | aside h clear => exact .of_reports (evolves_reportBetween f _ _ note) h rfl closing rfl

theorem Check.congr {other : Prop} (h : Check f found note o) (hiff : found ↔ other) :
    Check f other note o := by
  rwa [← propext hiff]

end Check

theorem check_reportRest {f : Frame} (note : Note) (hf : f.Held) :
    Check f (f.covered < f.length) note (f.reportRest note) := by
  by_cases h : f.covered < f.length
  · exact .rest h h
  · rw [reportRest, reportIfNew_of_covered note hf h]
    exact .quiet h

/-- The frame has a function that the grammar does not know, and bytes that say nothing for that reason. -/
def Unknown (f : Frame) (recognizes : UInt8 → Bool) : Prop :=
  Limits.minFrameLength ≤ f.length ∧ recognizes (f.values.byte 1) = false ∧ f.covered < f.length

theorem value?_one {f : Frame} (h : Limits.minFrameLength ≤ f.length) :
    f.value? 1 = some (f.values.byte 1) :=
  value?_eq_some_byte (Nat.lt_of_lt_of_le (by decide) h)

theorem reportUnknown_of_unknown {f : Frame} {recognizes : UInt8 → Bool} (h : f.Unknown recognizes) :
    f.reportUnknown recognizes = f.reportRest (.unknownFunction (f.values.byte 1)) := by
  rw [reportUnknown, value?_one h.1]
  exact if_pos ⟨h.1, h.2.1⟩

theorem reportUnknown_of_not_unknown {f : Frame} {recognizes : UInt8 → Bool} (hf : f.Held)
    (h : ¬ f.Unknown recognizes) : f.reportUnknown recognizes = .done f () := by
  rw [reportUnknown]
  cases hv : f.value? 1 with
  | none => rfl
  | some code =>
    refine ite_eq_right_iff.mpr ?_
    rintro ⟨hlong, hcode⟩
    obtain rfl : code = f.values.byte 1 := Option.some.inj (hv.symm.trans (value?_one hlong))
    have left : ¬ f.covered < f.length := fun left => h ⟨hlong, hcode, left⟩
    rw [reportIfNew_of_covered _ hf left]
    rfl

theorem check_reportUnknown {f : Frame} (recognizes : UInt8 → Bool) (hf : f.Held) :
    Check f (f.Unknown recognizes) (.unknownFunction (f.values.byte 1)) (f.reportUnknown recognizes) := by
  by_cases h : f.Unknown recognizes
  · rw [reportUnknown_of_unknown h]
    exact .rest h h.2.2
  · rw [reportUnknown_of_not_unknown hf h]
    exact .quiet h

/-- Nothing is left to cover, so the error on the size goes beside the cursor. -/
theorem oversizedTimes_clear {f : Frame} (margin : Time) (h : Limits.maxFrameLength < f.length)
    (hc : f.covered = f.length) :
    ∃ start stop, f.oversizedTimes margin = .ok (start, stop) ∧ f.Clear start stop := by
  unfold oversizedTimes
  by_cases taken : f.errorCovers Limits.maxFrameLength
  · have hl : f.lastIndex < f.length := Nat.sub_one_lt_of_lt h
    obtain ⟨final, hb, hfinal⟩ := byteAt_of_lt hl
    have hlast : f.covered = f.lastIndex + 1 := by
      simp only [lastIndex]
      omega
    rw [if_pos taken, hfinal]
    exact ⟨_, _, rfl, .behind (reportedUntil_eq hlast hb).symm⟩
  · obtain ⟨crossing, hb, hcrossing⟩ := byteAt_of_lt h
    rw [if_neg taken, hcrossing]
    exact ⟨_, _, rfl, .free hb (Bool.eq_false_iff.mpr taken) ⟨rfl, rfl⟩⟩

theorem reportOversized_of_left {f : Frame} (margin : Time) (h : Limits.maxFrameLength < f.length)
    (left : f.covered < f.length) : f.reportOversized margin = f.reportRest .oversized := by
  have hc : f.covered ≤ f.lastIndex := Nat.le_sub_one_of_lt left
  have hl : f.lastIndex < f.length := Nat.sub_one_lt_of_lt h
  obtain ⟨first, final, -, -, hr⟩ := report_of_due .oversized hc hl
  rw [reportOversized, if_pos h, reportRest, reportIfNew_of_due _ hc hl, hr]
  rfl

theorem reportOversized_of_covered {f : Frame} (margin : Time) (hf : f.Held)
    (h : Limits.maxFrameLength < f.length) (left : ¬ f.covered < f.length) :
    f.reportOversized margin = f.reportWithin (f.oversizedTimes margin) .oversized := by
  rw [reportOversized, if_pos h, reportIfNew_of_covered _ hf left]
  rfl

theorem check_reportOversized {f : Frame} (margin : Time) (hf : f.Held) :
    Check f (Limits.maxFrameLength < f.length) .oversized (f.reportOversized margin) := by
  by_cases h : Limits.maxFrameLength < f.length
  · by_cases left : f.covered < f.length
    · rw [reportOversized_of_left margin h left]
      exact .rest h left
    · have hc : f.covered = f.length := Nat.le_antisymm hf.covered (Nat.not_lt.mp left)
      obtain ⟨start, stop, times, clear⟩ := oversizedTimes_clear margin h hc
      rw [reportOversized_of_covered margin hf h left, times]
      exact .aside h clear
  · rw [reportOversized, if_neg h]
    exact .quiet h

/-- The frame is known to need more bytes than it has. -/
def Short (f : Frame) : Prop := f.length ≤ Limits.maxFrameLength ∧ f.length < f.minimumLength

theorem tooShortTimes_eq {f : Frame} (margin : Time) (hf : f.Held) :
    f.tooShortTimes margin = .ok (f.reportedUntil, f.lastRead.plus margin) := by
  unfold tooShortTimes
  cases hc : f.covered with
  | zero =>
    have hl : f.lastCovered? = none := by simp [lastCovered?, hc]
    rw [hl, reportedUntil_zero hc]
  | succ index =>
    have hl : f.lastCovered? = some index := by simp [lastCovered?, hc]
    have hi : index < f.length := Nat.lt_of_lt_of_le (hc ▸ Nat.lt_succ_self index) hf.covered
    obtain ⟨final, hb, hfinal⟩ := byteAt_of_lt hi
    simp only [hl, hfinal, reportedUntil_eq hc hb]
    rfl

theorem reportLength_of_short {f : Frame} (parsed : Progress) (margin : Time) (hf : f.Held) (h : f.Short) :
    f.reportLength parsed margin =
      f.reportBetween f.reportedUntil (f.lastRead.plus margin) .tooShort := by
  have hs : f.length ≤ Limits.maxFrameLength ∧ f.length < f.minimumLength := h
  rw [reportLength, if_pos hs, tooShortTimes_eq margin hf, reportWithin]

theorem check_reportLength {f : Frame} (parsed : Progress) (margin : Time) (hf : f.Held) (h : ¬ f.Short) :
    Check f (parsed = .settled ∧ f.covered < f.length) .tooLong (f.reportLength parsed margin) := by
  have hs : ¬ (f.length ≤ Limits.maxFrameLength ∧ f.length < f.minimumLength) := h
  rw [reportLength, if_neg hs]
  by_cases hp : parsed = .settled
  · rw [if_pos hp]
    exact (check_reportRest .tooLong hf).congr (and_iff_right hp).symm
  · rw [if_neg hp]
    exact .quiet fun h => hp h.1

theorem raises_reportLength {f : Frame} (parsed : Progress) (margin : Time) (hf : f.Held) :
    Raises f (f.Short ∨ parsed = .settled ∧ f.covered < f.length) (f.reportLength parsed margin) := by
  by_cases h : f.Short
  · rw [reportLength_of_short parsed margin hf h]
    exact .of_reports (evolves_reportBetween f _ _ _) (Or.inl h) rfl ⟨rfl, rfl⟩ rfl
  · exact ((check_reportLength parsed margin hf h).raises ⟨rfl, rfl⟩).congr (or_iff_right h).symm

/-- The mark spans the whole frame, and changes nothing but what is reported. -/
theorem markErrors_eq {f : Frame} (wanted : Bool) (hf : f.Held) :
    ∃ first final, f.bytes[0]? = some first ∧ f.bytes[f.lastIndex]? = some final ∧
      f.markErrors wanted = ⟨f, if wanted && f.hasError then
        [⟨f.role, .frameWithError, first.start, final.stop, none⟩] else [], .ok ()⟩ := by
  obtain ⟨first, hb, hfirst⟩ := byteAt_of_lt hf.length_pos
  obtain ⟨final, hb', hfinal⟩ := byteAt_of_lt (lastIndex_lt hf)
  have times : f.wholeTimes = .ok (first.start, final.stop) := by
    rw [wholeTimes, hfirst, hfinal]
  have same : { f with hasError := f.hasError || Note.frameWithError.isError } = f := by
    rw [show Note.frameWithError.isError = false from rfl, Bool.or_false]
  refine ⟨first, final, hb, hb', ?_⟩
  by_cases h : wanted && f.hasError
  · rw [markErrors, if_pos h, if_pos h, times, reportWithin, reportBetween, same]
  · rw [markErrors, if_neg h, if_neg h, Outcome.done]

theorem markErrors_cases {f : Frame} (wanted : Bool) (hf : f.Held) :
    f.markErrors wanted = .done f () ∨
      ∃ r : Report, r.note = .frameWithError ∧ r.covers = none ∧ f.markErrors wanted = ⟨f, [r], .ok ()⟩ := by
  obtain ⟨first, final, -, -, hm⟩ := markErrors_eq wanted hf
  rw [hm]
  split
  · exact Or.inr ⟨_, rfl, rfl, rfl⟩
  · exact Or.inl rfl

theorem note_eq_of_markErrors {f : Frame} (wanted : Bool) (hf : f.Held) :
    ∀ r ∈ (f.markErrors wanted).reports, r.note = .frameWithError := by
  rcases markErrors_cases wanted hf with h | ⟨mark, note, -, h⟩
  · rw [h]
    exact List.forall_mem_nil _
  · rw [h]
    intro r hmem
    rw [List.mem_singleton.mp hmem, note]

theorem markErrors_ok {f : Frame} (wanted : Bool) (hf : f.Held) :
    (f.markErrors wanted).result = .ok () ∧ (f.markErrors wanted).state = f := by
  rcases markErrors_cases wanted hf with h | ⟨r, -, -, h⟩
  · rw [h]
    exact ⟨rfl, rfl⟩
  · rw [h]
    exact ⟨rfl, rfl⟩

/-- What is wrong with a frame that was parsed to the end, apart from what its fields said. -/
def Flawed (f : Frame) (recognizes : UInt8 → Bool) (parsed : Progress) : Prop :=
  f.Unknown recognizes ∨ Limits.maxFrameLength < f.length ∨ f.Short ∨
    parsed = .settled ∧ f.covered < f.length

/-- The closing checks in their order. -/
def checks (f : Frame) (recognizes : UInt8 → Bool) (parsed : Progress) (margin : Time) :
    Outcome Frame Unit :=
  (f.reportUnknown recognizes).andThen fun f _ =>
    (f.reportOversized margin).andThen fun f _ => f.reportLength parsed margin

theorem raises_checks {f : Frame} (recognizes : UInt8 → Bool) (parsed : Progress) (margin : Time)
    (hf : f.Held) : Raises f (f.Flawed recognizes parsed) (f.checks recognizes parsed margin) := by
  have unknown := (check_reportUnknown recognizes hf).raises ⟨rfl, rfl⟩
  have oversized (g : Frame) (hg : g.Held) := (check_reportOversized margin hg).raises ⟨rfl, rfl⟩
  exact unknown.andThen (fun g hg =>
    (oversized g hg).andThen (fun g hg => raises_reportLength parsed margin hg) hg) hf

theorem Evolves.covered_of_all {α : Type} {f : Frame} {o : Outcome Frame α} (h : f.Evolves o)
    (hc : f.covered = f.length) : o.state.covered = f.length :=
  Nat.le_antisymm (h.within (Nat.le_of_eq hc)) (hc ▸ h.covered)

theorem covered_reportRest {f : Frame} (note : Note) (left : f.covered < f.length) :
    (f.reportRest note).state.covered = f.length := by
  obtain ⟨r, -, -, hr⟩ := reportRest_of_left note left
  rw [hr]
  exact Nat.sub_add_cancel (Nat.one_le_of_lt left)

theorem covered_reportOversized {f : Frame} (margin : Time) (hf : f.Held)
    (h : Limits.maxFrameLength < f.length) : (f.reportOversized margin).state.covered = f.length := by
  by_cases left : f.covered < f.length
  · rw [reportOversized_of_left margin h left]
    exact covered_reportRest _ left
  · exact (evolves_reportOversized f margin).covered_of_all
      (Nat.le_antisymm hf.covered (Nat.not_lt.mp left))

section Checks

variable {f : Frame} (recognizes : UInt8 → Bool) (parsed : Progress) (margin : Time)

/-- The size of a frame over the limit is the last thing said of it, since then all its bytes are covered. -/
theorem checks_of_long (hf : f.Held) (h : Limits.maxFrameLength < f.length) :
    f.checks recognizes parsed margin =
      (f.reportUnknown recognizes).andThen fun f _ => f.reportOversized margin := by
  refine Outcome.andThen_congr fun _ _ => ?_
  have evolves := evolves_reportUnknown f recognizes
  have held := evolves.held hf
  have long : Limits.maxFrameLength < (f.reportUnknown recognizes).state.length := evolves.length ▸ h
  refine Eq.trans (Outcome.andThen_congr fun _ _ => ?_) (Outcome.andThen_done _)
  have evolves' := evolves_reportOversized (f.reportUnknown recognizes).state margin
  have covered := covered_reportOversized margin held long
  have notShort : ¬ ((f.reportUnknown recognizes).state.reportOversized margin).state.Short := by
    rintro ⟨limit, -⟩
    rw [evolves'.length] at limit
    exact Nat.not_lt.mpr limit long
  refine ((check_reportLength parsed margin (evolves'.held held) notShort).raises ⟨rfl, rfl⟩).quiet ?_
  rintro ⟨-, left⟩
  rw [covered, evolves'.length] at left
  exact Nat.lt_irrefl _ left

theorem checks_of_not_long (h : ¬ Limits.maxFrameLength < f.length) :
    f.checks recognizes parsed margin =
      (f.reportUnknown recognizes).andThen fun f _ => f.reportLength parsed margin := by
  refine Outcome.andThen_congr fun _ _ => ?_
  have short : ¬ Limits.maxFrameLength < (f.reportUnknown recognizes).state.length :=
    (evolves_reportUnknown f recognizes).length ▸ h
  rw [reportOversized, if_neg short, Outcome.done_andThen]

end Checks

end Frame

namespace Grammar

open ModbusRtu.Frame

theorem close_eq_checks (g : Grammar) (options : CloseOptions) {f : Frame} (hf : f.Held) :
    g.close options f = (g.parse f).andThen fun h parsed =>
      (h.checks g.recognizes parsed options.margin).andThen fun h _ => h.markErrors options.markErrors := by
  refine Outcome.andThen_congr fun parsed _ => ?_
  have hh := ((g.evolves_parse f).held hf).nonempty
  simp only [List.isEmpty_eq_false_iff.mpr hh, Bool.false_eq_true, if_false, checks, Outcome.andThen_assoc]

theorem evolves_close (g : Grammar) (options : CloseOptions) (f : Frame) : f.Evolves (g.close options f) := by
  refine (g.evolves_parse f).andThen fun parsed => ?_
  split
  · exact .done _ ()
  refine (evolves_reportUnknown _ _).andThen fun _ => ?_
  refine (evolves_reportOversized _ _).andThen fun _ => ?_
  exact (evolves_reportLength _ parsed _).andThen fun _ => evolves_markErrors _ _

/-- Closing a frame that has bytes comes to a parse, the closing checks and the mark. -/
theorem close_eq_stages (g : Grammar) (options : CloseOptions) {f : Frame} (hf : f.Held) {parsed : Progress}
    (hp : (g.parse f).result = .ok parsed) :
    let parse := g.parse f
    let checks := parse.state.checks g.recognizes parsed options.margin
    let mark := checks.state.markErrors options.markErrors
    parse.state.Held ∧ checks.state.Held ∧
    parse.state.Raises (parse.state.Flawed g.recognizes parsed) checks ∧
    g.close options f = ⟨checks.state, parse.reports ++ (checks.reports ++ mark.reports), .ok ()⟩ := by
  intro parse checks mark
  have held := (g.evolves_parse f).held hf
  have spec := raises_checks g.recognizes parsed options.margin held
  have held' := spec.evolves.held held
  obtain ⟨hr, hs⟩ := markErrors_ok options.markErrors held'
  refine ⟨held, held', spec, ?_⟩
  rw [g.close_eq_checks options hf, Outcome.andThen_eq_of_ok hp, Outcome.andThen_eq_of_ok spec.result, hr, hs]

/-- Closing a frame that has bytes always succeeds. The closed frame has an error exactly if one of its
fields had one or something is wrong with it as a whole. -/
theorem close_spec (g : Grammar) (options : CloseOptions) {f : Frame} (hf : f.Held) {parsed : Progress}
    (hp : (g.parse f).result = .ok parsed) :
    (g.close options f).result = .ok () ∧
      ((g.close options f).state.hasError = false ↔
        (g.parse f).state.hasError = false ∧ ¬ (g.parse f).state.Flawed g.recognizes parsed) := by
  obtain ⟨-, -, spec, stages⟩ := g.close_eq_stages options hf hp
  rw [stages]
  exact ⟨rfl, spec.hasError_eq_false⟩

/-- Nor does it fail on a frame that has none. -/
theorem close_ok (g : Grammar) (options : CloseOptions) {f : Frame} (hc : f.covered ≤ f.length)
    {parsed : Progress} (hp : (g.parse f).result = .ok parsed) : (g.close options f).result = .ok () := by
  by_cases h : f.bytes = []
  · have empty : (g.parse f).state.bytes.isEmpty = true := by
      rw [(g.evolves_parse f).bytes, h]
      rfl
    rw [close, Outcome.andThen_eq_of_ok hp]
    simp only [empty, if_true, Outcome.done]
  · exact (g.close_spec options ⟨h, hc⟩ hp).1

end Grammar

end ModbusRtu
