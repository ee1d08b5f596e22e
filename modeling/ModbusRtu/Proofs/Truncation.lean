import ModbusRtu.Proofs.Intact
import ModbusRtu.Proofs.Promptness

/-! Frames cut off or run over. A frame without an error declares its own length, and what is cut from it or put
behind it does not change what it declares. So each part of it is too short, each longer run of bytes goes on
where the frame ends, and this is the one error there is: the fields that are there are reported as before. -/

namespace ModbusRtu

open FieldTable

theorem Bytes.EqUpTo.append {k : Nat} {v : Bytes} (more : Bytes) (h : k ≤ v.length) : EqUpTo k v (v ++ more) :=
  fun _ hi => (byte_append more (Nat.lt_of_lt_of_le hi h)).symm

theorem Role.declaredLength_append (role : Role) (n : Nat) {v : Bytes} (more : Bytes)
    (h4 : Limits.minFrameLength ≤ v.length) (long : role.declaredLength n v ≤ v.length) :
    role.declaredLength n (v ++ more) = role.declaredLength n v := by
  have code : v.byte 1 = Bytes.byte (v ++ more) 1 :=
    (Bytes.byte_append more (Nat.lt_of_lt_of_le (by decide) h4)).symm
  exact role.declaredLength_congr n code (.append more (Nat.le_trans (Nat.sub_le _ 2) long))

theorem Role.lt_declaredLength_of_append (role : Role) (n : Nat) {front rest : Bytes}
    (h4 : Limits.minFrameLength ≤ front.length) (some : rest ≠ [])
    (length : (front ++ rest).length = role.declaredLength n (front ++ rest)) :
    front.length < role.declaredLength n front := by
  refine Nat.not_le.mp fun long => ?_
  rw [role.declaredLength_append n rest h4 long, List.length_append] at length
  have := List.length_pos_iff.mpr some
  omega

/-- The reports are `said`, which no error is among, one error, and the mark on the whole frame if it is
wanted. -/
def FailsWith (wanted : Bool) (said : List Report) (error : Report) (reports : List Report) : Prop :=
  (∃ mark, reports = said ++ error :: mark ∧ mark.map Report.note = if wanted then [.frameWithError] else []) ∧
    reports.filter (fun r => r.span.category = .error) = [error]

theorem FailsWith.of_mark {wanted : Bool} {said : List Report} {error : Report} {mark : List Report}
    (quiet : ∀ r ∈ said, r.note.isError = false) (wrong : error.note.isError = true)
    (marks : mark.map Report.note = if wanted then [.frameWithError] else []) :
    FailsWith wanted said error (said ++ error :: mark) := by
  refine ⟨⟨mark, rfl, marks⟩, ?_⟩
  have before : said.filter (fun r => r.span.category = .error) = [] := List.filter_eq_nil_iff.mpr fun r hr =>
    Bool.eq_false_iff.mp (quiet r hr)
  have behind : mark.filter (fun r => r.span.category = .error) = [] := by
    refine List.filter_eq_nil_iff.mpr fun r hr same => ?_
    have note : r.note ∈ mark.map Report.note := List.mem_map_of_mem hr
    have error : r.note.category = .error := of_decide_eq_true same
    rw [marks] at note
    split at note
    · rw [List.mem_singleton.mp note] at error
      cases error
    · cases note
  have here : error.span.category = .error := Note.isError_iff.mp wrong
  simp only [List.filter_append, List.filter_cons, before, here, behind, decide_true, if_true, List.nil_append]

theorem Frame.checks_of_left {f : Frame} (recognizes : UInt8 → Bool) (parsed : Progress) (margin : Time)
    (hf : f.Held) (known : ¬ f.Unknown recognizes) (long : Limits.maxFrameLength < f.length)
    (left : f.covered < f.length) : f.checks recognizes parsed margin = f.reportRest .oversized := by
  rw [checks_of_long recognizes parsed margin hf long, reportUnknown_of_not_unknown hf known,
    Outcome.done_andThen, reportOversized_of_left margin long left]

namespace Grammar

section Life

variable (role : Role) (n : Nat) (start : Time) {bytes : List Byte} (h : bytes ≠ []) (options : CloseOptions)

include h

theorem live_failsWith {parsed : Progress}
    (hp : ((role.grammar n).parse (.filled role start bytes)).result = .ok parsed)
    (quiet : ∀ r ∈ ((role.grammar n).parse (.filled role start bytes)).reports, r.note.isError = false) {r : Report}
    (said : (((role.grammar n).parse (.filled role start bytes)).state.checks (role.grammar n).recognizes parsed
      options.margin).reports = [r]) :
    let o := (role.grammar n).live (.opened role start) bytes options
    o.result = .ok () ∧
      FailsWith options.markErrors ((role.grammar n).parse (.filled role start bytes)).reports r o.reports := by
  intro o
  obtain ⟨told, ht, -, held, spec, live⟩ := (role.lawful_grammar n).live_eq_stages role start h options
  obtain rfl : parsed = told := Except.ok.inj (hp.symm.trans ht)
  have wrong : r.note.isError = true := (spec.closing r (said ▸ List.mem_singleton_self r)).1
  have error := spec.evolves.hasError
  rw [said, List.any_cons, wrong, Bool.true_or, Bool.or_true] at error
  obtain ⟨first, final, -, -, mark⟩ := Frame.markErrors_eq options.markErrors held
  rw [error, Bool.and_true] at mark
  rw [show o = _ from live, mark, said]
  refine ⟨rfl, .of_mark quiet wrong ?_⟩
  split
  · rfl
  · rfl

end Life

theorem reports_parse_front (role : Role) (n : Nat) (start : Time) {front : List Byte} (rest : List Byte)
    (h4 : Limits.minFrameLength ≤ front.length) :
    ((role.grammar n).parse (.filled role start front)).reports =
      ((role.grammar n).parse (.filled role start (front ++ rest))).reports.filter
        fun r => r.covers.any fun range => range.2 < front.length := by
  rw [reports_filled_append, List.filter_append, List.filter_eq_self.mpr, List.filter_eq_nil_iff.mpr,
    List.append_nil]
  · intro r hr inside
    obtain ⟨first, last, covers, behind⟩ := late role n (.filled role start front) h4 rest r hr
    rw [covers, Option.any_some, decide_eq_true_eq] at inside
    exact Nat.not_le.mpr inside behind
  · intro r hr
    obtain ⟨⟨first, last⟩, covers⟩ := Option.isSome_iff_exists.mp (ofField_of_mem_parse role n _ r hr).1
    obtain ⟨-, -, final, -, hfinal, -⟩ := ((role.grammar n).evolves_parse _).fits r hr first last covers
    have inside : last < front.length := (List.getElem?_eq_some_iff.mp hfinal).1
    rw [covers, Option.any_some, decide_eq_true_eq]
    exact inside

/-- A part of a frame in order is too short, and nothing else is wrong with it. -/
theorem live_front {role : Role} {n : Nat} {front rest : List Byte}
    (intact : role.Intact n ((front ++ rest).map Byte.value)) (some : front ≠ []) (more : rest ≠ []) (start : Time)
    (options : CloseOptions) :
    let o := (role.grammar n).live (.opened role start) front options
    let whole := (role.grammar n).parse (.filled role start (front ++ rest))
    o.result = .ok () ∧ ∃ short, short.note = .tooShort ∧
      FailsWith options.markErrors (if Limits.minFrameLength ≤ front.length then
        whole.reports.filter fun r => r.covers.any fun range => range.2 < front.length else []) short o.reports := by
  intro o whole
  have hg := role.lawful_grammar n
  by_cases h4 : Limits.minFrameLength ≤ front.length
  · have part := reports_parse_front role n start rest h4
    have quiet : ∀ r ∈ ((role.grammar n).parse (.filled role start front)).reports, r.note.isError = false :=
      fun r hr => intact.quiet start r (List.mem_filter.mp (part ▸ hr)).1
    rw [if_pos h4, ← part]
    rw [List.map_append] at intact
    have hl : Limits.minFrameLength ≤ (front.map Byte.value).length := by rwa [List.length_map]
    have known := intact.known
    rw [Bytes.byte_append _ (Nat.lt_of_lt_of_le (by decide) hl)] at known
    have limit : front.length ≤ Limits.maxFrameLength := by
      have := intact.limit
      simp only [List.length_append, List.length_map] at this
      omega
    have short := role.lt_declaredLength_of_append n hl (fun none => more (List.map_eq_nil_iff.mp none)) intact.length
    rw [List.length_map] at short
    obtain ⟨parsed, hp⟩ := hg.parse_ok (.filled role start front)
    obtain ⟨said, -⟩ := checks_declared role n start some h4 limit known options.margin hp
    cases said with
    | @short r _ said note =>
      obtain ⟨ok, fails⟩ := live_failsWith role n start some options hp quiet said
      exact ⟨ok, r, note, fails⟩
    | exact same => exact absurd same (Nat.ne_of_lt short)
    | long long => exact absurd long (Nat.lt_asymm short)
  · obtain ⟨first, final, -, -, reports⟩ := live_tiny role n start some options (Nat.not_le.mp h4)
    rw [if_neg h4]
    refine ⟨(hg.live_spec role start some options).1,
      ⟨role, .tooShort, start, o.state.lastRead.plus options.margin, none⟩, rfl, ?_⟩
    rw [show o.reports = _ from reports]
    refine .of_mark (List.forall_mem_nil _) rfl ?_
    split
    · rfl
    · rfl

theorem checks_oversized (role : Role) (n : Nat) (start : Time) {bytes : List Byte}
    (known : (role.grammar n).recognizes (Bytes.byte (bytes.map Byte.value) 1) = true)
    (beyond : Limits.maxFrameLength < bytes.length)
    (longer : role.declaredLength n (bytes.map Byte.value) < bytes.length) (parsed : Progress) (margin : Time) :
    ∃ r, (((role.grammar n).parse (.filled role start bytes)).state.checks (role.grammar n).recognizes parsed
        margin).reports = [r] ∧
      r.note = .oversized ∧ r.covers = some (role.declaredLength n (bytes.map Byte.value), bytes.length - 1) := by
  let f := Frame.filled role start bytes
  have hv : f.values = bytes.map Byte.value := Frame.values_filled role start bytes
  have nonempty : bytes ≠ [] := List.length_pos_iff.mp (Nat.zero_lt_of_lt beyond)
  have h4 : Limits.minFrameLength ≤ bytes.length := Nat.le_of_lt (Nat.lt_trans (by decide) beyond)
  have evolves := (role.grammar n).evolves_parse f
  have length : ((role.grammar n).parse f).state.length = bytes.length := evolves.length
  have measured := measured_parse role n (f := f) rfl rfl h4 (hv ▸ known)
  rw [hv] at measured
  have covered := measured.covered (Nat.le_of_lt longer)
  have left : ((role.grammar n).parse f).state.covered < ((role.grammar n).parse f).state.length := by
    rwa [covered, length]
  have checks := Frame.checks_of_left (role.grammar n).recognizes parsed margin
    (evolves.held (Frame.held_filled role start nonempty))
    ((role.grammar n).not_unknown_parse (f := f) (hv ▸ known)) (length ▸ beyond) left
  obtain ⟨r, note, covers, said⟩ := Frame.reportRest_of_left .oversized left
  rw [show Frame.checks _ _ _ _ = _ from checks, said]
  rw [covered, Frame.lastIndex, length] at covers
  exact ⟨r, rfl, note, covers⟩

section Overrun

variable {role : Role} {n : Nat} {bytes : List Byte} (intact : role.Intact n (bytes.map Byte.value))
    (more : List Byte)

include intact

theorem overrun_declared :
    (Limits.minFrameLength ≤ (bytes ++ more).length ∧
      (role.grammar n).recognizes (Bytes.byte ((bytes ++ more).map Byte.value) 1) = true) ∧
      role.declaredLength n ((bytes ++ more).map Byte.value) = bytes.length := by
  have h4 : Limits.minFrameLength ≤ (bytes.map Byte.value).length :=
    Nat.le_trans (role.four_le_declaredLength n intact.known) (Nat.le_of_eq intact.length.symm)
  rw [List.map_append, role.declaredLength_append n _ h4 (Nat.le_of_eq intact.length.symm), ← intact.length_eq,
    Bytes.byte_append _ (Nat.lt_of_lt_of_le (by decide) h4)]
  rw [List.length_map] at h4
  refine ⟨⟨Nat.le_trans h4 ?_, intact.known⟩, rfl⟩
  rw [List.length_append]
  exact Nat.le_add_right _ _

theorem reports_parse_overrun (start : Time) :
    ((role.grammar n).parse (.filled role start (bytes ++ more))).reports =
      ((role.grammar n).parse (.filled role start bytes)).reports := by
  obtain ⟨⟨-, known⟩, total⟩ := overrun_declared intact more
  have h4 : Limits.minFrameLength ≤ bytes.length :=
    Nat.le_trans (role.four_le_declaredLength n intact.known) (Nat.le_of_eq intact.length_eq.symm)
  have long : role.declaredLength n ((bytes ++ more).map Byte.value) ≤ (bytes ++ more).length := by
    rw [total, List.length_append]
    exact Nat.le_add_right _ _
  have rows := reports_parse_whole role n start known long
  have parts := reports_filled_append role n start bytes more
  rw [parts, List.append_right_eq_self, List.eq_nil_iff_forall_not_mem]
  intro r hr
  -- it would have to end behind the frame, where no field does
  obtain ⟨first, last, covers, behind⟩ := late role n (.filled role start bytes) h4 more r hr
  obtain ⟨e, he, same, -⟩ := Report.exists_entry rows (parts ▸ List.mem_append_right _ hr)
  have ends := role.last_lt_of_mem_entries n known e he
  rw [covers, Option.some.injEq, Prod.mk.injEq] at same
  rw [total, ← same.2] at ends
  exact Nat.not_le.mpr ends behind

/-- Bytes behind a frame in order are too much, and nothing else is wrong with it. -/
theorem live_overrun (some : more ≠ []) (start : Time) (options : CloseOptions) :
    let o := (role.grammar n).live (.opened role start) (bytes ++ more) options
    o.result = .ok () ∧ ∃ long,
      long.note = (if (bytes ++ more).length ≤ Limits.maxFrameLength then .tooLong else .oversized) ∧
      long.covers = Option.some (bytes.length, (bytes ++ more).length - 1) ∧
      FailsWith options.markErrors ((role.grammar n).parse (.filled role start bytes)).reports long o.reports := by
  intro o
  have hg := role.lawful_grammar n
  have nonempty : bytes ++ more ≠ [] := List.append_ne_nil_of_right_ne_nil _ some
  obtain ⟨⟨h4, known⟩, total⟩ := overrun_declared intact more
  have same := reports_parse_overrun intact more start
  have quiet : ∀ r ∈ ((role.grammar n).parse (.filled role start (bytes ++ more))).reports, r.note.isError = false :=
    same ▸ intact.quiet start
  have longer : bytes.length < (bytes ++ more).length := by
    rw [List.length_append]
    exact Nat.lt_add_of_pos_right (List.length_pos_iff.mpr some)
  obtain ⟨parsed, hp⟩ := hg.parse_ok (.filled role start (bytes ++ more))
  suffices h : ∃ long, (((role.grammar n).parse (.filled role start (bytes ++ more))).state.checks
      (role.grammar n).recognizes parsed options.margin).reports = [long] ∧
      long.note = (if (bytes ++ more).length ≤ Limits.maxFrameLength then .tooLong else .oversized) ∧
      long.covers = Option.some (bytes.length, (bytes ++ more).length - 1) by
    obtain ⟨long, said, note, covers⟩ := h
    obtain ⟨ok, fails⟩ := live_failsWith role n start nonempty options hp quiet said
    exact ⟨ok, long, note, covers, same ▸ fails⟩
  by_cases limit : (bytes ++ more).length ≤ Limits.maxFrameLength
  · obtain ⟨said, -⟩ := checks_declared role n start nonempty h4 limit known options.margin hp
    rw [total] at said
    rw [if_pos limit]
    cases said with
    | short short => exact absurd short (Nat.lt_asymm longer)
    | exact same => exact absurd same (Nat.ne_of_gt longer)
    | @long r _ said note covers => exact ⟨r, said, note, covers⟩
  · have declared : role.declaredLength n ((bytes ++ more).map Byte.value) < (bytes ++ more).length := total ▸ longer
    obtain ⟨r, said, note, covers⟩ :=
      checks_oversized role n start known (Nat.not_le.mp limit) declared parsed options.margin
    rw [total] at covers
    rw [if_neg limit]
    exact ⟨r, said, note, covers⟩

end Overrun

end Grammar

/-- Take any frame that closes without an error. A part of it is too short: of the spans of the frame just those
are reported that end in the part, or none if it has fewer than four bytes. With more bytes behind it, all spans
of the frame are reported, and these bytes are too long, or over the size limit if all together are. Either way
this is the one error, and after it there is nothing but the mark on the whole frame. -/
theorem part_and_overrun_reported (role : Role) (n : Nat) (start : Time) (bytes : List Byte) (h : bytes ≠ [])
    (options : CloseOptions)
    (clean : ((role.grammar n).live (.opened role start) bytes options).state.hasError = false) (start' : Time)
    (options' : CloseOptions) :
    let spans := ((role.grammar n).live (.opened role start) bytes options).reports
    (∀ front rest, bytes = front ++ rest → front ≠ [] → rest ≠ [] →
      let o := (role.grammar n).live (.opened role start') front options'
      o.result = .ok () ∧ ∃ short, short.span.text = "Message too short or not finished" ∧
        FailsWith options'.markErrors (if 4 ≤ front.length then
          spans.filter fun r => r.covers.any fun range => range.2 < front.length else []) short o.reports) ∧
    ∀ more, more ≠ [] →
      let o := (role.grammar n).live (.opened role start') (bytes ++ more) options'
      o.result = .ok () ∧ ∃ long, long.span.text = (if (bytes ++ more).length ≤ 256 then "Message too long"
          else "Modbus data frames are limited to 256 bytes") ∧
        long.covers = some (bytes.length, (bytes ++ more).length - 1) ∧ long.Fits (bytes ++ more) ∧
        FailsWith options'.markErrors spans long o.reports := by
  intro spans
  have intact := role.intact_of_live n start h options clean
  have fields : spans = ((role.grammar n).parse (.filled role start' bytes)).reports :=
    (Grammar.reports_live_of_clean role n start h options clean).2.trans (intact.reports_eq start start')
  rw [fields]
  refine ⟨?_, fun more some => ?_⟩
  · rintro front rest rfl some more
    obtain ⟨ok, short, note, fails⟩ := Grammar.live_front intact some more start' options'
    exact ⟨ok, short, congrArg Note.text note, fails⟩
  · obtain ⟨ok, long, note, covers, fails⟩ := Grammar.live_overrun intact more some start' options'
    obtain ⟨mark, reports, -⟩ := fails.1
    have mem : long ∈ ((role.grammar n).live (.opened role start') (bytes ++ more) options').reports := by
      rw [reports]
      exact List.mem_append_right _ List.mem_cons_self
    refine ⟨ok, long, ?_, covers, ((role.lawful_grammar n).evolves_live role start' _ options').fits long mem, fails⟩
    rw [show long.span.text = long.note.text from rfl, note, show Limits.maxFrameLength = 256 from rfl]
    split
    · rfl
    · rfl

theorem part_and_overrun_reported_statusQuery :
    let o := (Role.request.grammar 2).live (.opened .request 0) statusQuery ⟨10, true⟩
    let part := (Role.request.grammar 2).live (.opened .request 0) (statusQuery.take 3) ⟨10, true⟩
    let longer := (Role.request.grammar 2).live (.opened .request 0) (statusQuery ++ statusQuery) ⟨10, true⟩
    (statusQuery ≠ [] ∧ o.state.hasError = false) ∧
    (∃ short, short.span.text = "Message too short or not finished" ∧ FailsWith true [] short part.reports) ∧
    ∃ long, long.span.text = "Message too long" ∧ long.covers = some (4, 7) ∧
      FailsWith true o.reports long longer.reports := by
  have some : statusQuery ≠ [] := List.cons_ne_nil _ _
  have clean : ((Role.request.grammar 2).live (.opened .request 0) statusQuery ⟨10, true⟩).state.hasError = false := by
    decide +kernel
  obtain ⟨part, overrun⟩ := part_and_overrun_reported .request 2 0 statusQuery some ⟨10, true⟩ clean 0 ⟨10, true⟩
  have front := part (statusQuery.take 3) (statusQuery.drop 3) rfl (List.cons_ne_nil _ _) (List.cons_ne_nil _ _)
  obtain ⟨-, long, text, covers, -, fails⟩ := overrun statusQuery some
  exact ⟨⟨some, clean⟩, front.2, long, text, covers, fails⟩

end ModbusRtu
