import ModbusRtu.Proofs.Coverage

/-! Reports of one category never overlap. Those that cover bytes follow each other like the bytes do. At
most one error is beside the cursor, and it keeps clear of the errors that cover bytes; the mark on the
whole frame has a category of its own. -/

namespace ModbusRtu

def Span.Overlaps (a b : Span) : Prop := a.start < b.stop ∧ b.start < a.stop

/-- Two spans do not get in each other's way on their row. -/
def Span.Apart (a b : Span) : Prop := a.category = b.category → ¬ a.Overlaps b

theorem Span.apart_of_le {a b : Span} (h : a.stop ≤ b.start ∨ b.stop ≤ a.start) : a.Apart b := by
  rintro - ⟨hab, hba⟩
  rcases h with h | h
  · exact UInt64.not_lt.mpr h hba
  · exact UInt64.not_lt.mpr h hab

/-- Bytes one after the other in time. -/
structure InTime (bytes : List Byte) : Prop where
  forward : ∀ b ∈ bytes, b.start ≤ b.stop
  following : ∀ pair ∈ bytes.zip bytes.tail, pair.1.stop ≤ pair.2.start

namespace InTime

variable {bytes : List Byte}

theorem stop_le_next (h : InTime bytes) {i : Nat} {a b : Byte} (ha : bytes[i]? = some a)
    (hb : bytes[i + 1]? = some b) : a.stop ≤ b.start := by
  have next : (bytes.zip bytes.tail)[i]? = some (a, b) :=
    List.getElem?_zip_eq_some.mpr ⟨ha, List.getElem?_tail.trans hb⟩
  exact h.following (a, b) (List.mem_of_getElem? next)

theorem stop_le_start (h : InTime bytes) {i j : Nat} {a b : Byte} (hij : i < j) (ha : bytes[i]? = some a)
    (hb : bytes[j]? = some b) : a.stop ≤ b.start := by
  induction j generalizing b with
  | zero => exact absurd hij (Nat.not_lt_zero i)
  | succ j ih =>
    rcases Nat.eq_or_lt_of_le (Nat.le_of_lt_succ hij) with rfl | hlt
    · exact h.stop_le_next ha hb
    · have hj : j < bytes.length := Nat.lt_of_succ_lt (List.getElem?_eq_some_iff.mp hb).1
      have hc : bytes[j]? = some bytes[j] := List.getElem?_eq_getElem hj
      have forward := h.forward bytes[j] (List.getElem_mem hj)
      exact UInt64.le_trans (ih hlt hc) (UInt64.le_trans forward (h.stop_le_next hc hb))

theorem stop_le_stop (h : InTime bytes) {i j : Nat} {a b : Byte} (hij : i ≤ j) (ha : bytes[i]? = some a)
    (hb : bytes[j]? = some b) : a.stop ≤ b.stop := by
  rcases Nat.eq_or_lt_of_le hij with rfl | hij
  · obtain rfl := Option.some.inj (ha.symm.trans hb)
    exact UInt64.le_refl _
  · exact UInt64.le_trans (h.stop_le_start hij ha hb) (h.forward b (List.mem_of_getElem? hb))

end InTime

theorem Report.mem_indexes {r : Report} {first last index : Nat} (h : r.covers = some (first, last)) :
    index ∈ r.indexes ↔ first ≤ index ∧ index ≤ last := by
  rw [indexes, h, List.mem_range'_1]
  omega

namespace Frame

section Tied

variable {α : Type} {f : Frame} {o : Outcome Frame α}

theorem Evolves.pairwise_tied (h : Evolves f o) (ordered : InTime f.bytes)
    (tied : ∀ r ∈ o.reports, r.covers.isSome) : o.reports.Pairwise fun a b => a.stop ≤ b.start := by
  have increasing : (o.reports.flatMap Report.indexes).Pairwise (· < ·) := by
    rw [h.indexes]
    exact List.pairwise_lt_range'
  refine (List.pairwise_flatMap.mp increasing).2.imp_of_mem fun {a b} ha hb before => ?_
  obtain ⟨⟨first, last⟩, hca⟩ := Option.isSome_iff_exists.mp (tied a ha)
  obtain ⟨⟨first', last'⟩, hcb⟩ := Option.isSome_iff_exists.mp (tied b hb)
  obtain ⟨hle, -, final, -, hfinal, -, stop⟩ := h.fits a ha first last hca
  obtain ⟨hle', head, -, hhead, -, start, -⟩ := h.fits b hb first' last' hcb
  have hlt : last < first' := before last ((Report.mem_indexes hca).mpr ⟨hle, Nat.le_refl _⟩) first'
    ((Report.mem_indexes hcb).mpr ⟨Nat.le_refl _, hle'⟩)
  rw [stop, start]
  exact ordered.stop_le_start hlt hfinal hhead

theorem Evolves.apart_tied (h : Evolves f o) (ordered : InTime f.bytes)
    (tied : ∀ r ∈ o.reports, r.covers.isSome) : o.reports.Pairwise fun a b => a.span.Apart b.span :=
  (h.pairwise_tied ordered tied).imp fun le => Span.apart_of_le (Or.inl le)

theorem Evolves.stop_le_reportedUntil (h : Evolves f o) (ordered : InTime f.bytes) (hc : f.covered = 0)
    {r : Report} (hr : r ∈ o.reports) (tied : r.covers.isSome) : r.stop ≤ o.state.reportedUntil := by
  obtain ⟨⟨first, last⟩, hcovers⟩ := Option.isSome_iff_exists.mp tied
  obtain ⟨hle, -, final, -, hfinal, -, hstop⟩ := h.fits r hr first last hcovers
  have hmem : last ∈ o.reports.flatMap Report.indexes :=
    List.mem_flatMap.mpr ⟨r, hr, (Report.mem_indexes hcovers).mpr ⟨hle, Nat.le_refl _⟩⟩
  rw [h.indexes, List.mem_range'_1] at hmem
  obtain ⟨index, hindex⟩ : ∃ index, o.state.covered = index + 1 := ⟨o.state.covered - 1, by omega⟩
  have within : o.state.covered ≤ f.length := h.within (Nat.le_trans (Nat.le_of_eq hc) (Nat.zero_le _))
  have hi : index < f.bytes.length := Nat.lt_of_lt_of_le (hindex ▸ Nat.lt_succ_self index) within
  have hbyte : f.bytes[index]? = some f.bytes[index] := List.getElem?_eq_getElem hi
  rw [hstop, reportedUntil_eq hindex (show o.state.bytes[index]? = _ by rw [h.bytes, hbyte])]
  exact ordered.stop_le_stop (by omega) hfinal hbyte

/-- What keeps clear of the errors that cover bytes is before or after each of them. -/
theorem Evolves.le_of_clear (h : Evolves f o) (ordered : InTime f.bytes) (hc : f.covered = 0)
    {r : Report} (hr : r ∈ o.reports) (tied : r.covers.isSome) (he : r.note.isError = true)
    {start stop : Time} (clear : o.state.Clear start stop) : r.stop ≤ start ∨ stop ≤ r.start := by
  cases clear with
  | behind hb => exact Or.inl (hb ▸ h.stop_le_reportedUntil ordered hc hr tied)
  | @free index b hbyte hfree ends =>
    obtain ⟨⟨first, last⟩, hcovers⟩ := Option.isSome_iff_exists.mp tied
    obtain ⟨-, head, final, hhead, hfinal, hstart, hstop⟩ := h.fits r hr first last hcovers
    have hrange : (first, last) ∈ o.state.errorRanges := by
      rw [h.errorRanges]
      exact List.mem_append_right _ (List.mem_filterMap.mpr ⟨r, List.mem_filter.mpr ⟨hr, he⟩, hcovers⟩)
    -- the byte is in no range of errors, so it is on one side of this one
    have outside := List.any_eq_false.mp hfree (first, last) hrange
    rw [Bool.and_eq_true, decide_eq_true_eq, decide_eq_true_eq] at outside
    rw [h.bytes] at hbyte
    rcases Nat.lt_or_ge index first with hlt | hge
    · exact Or.inr (ends.2 ▸ hstart ▸ ordered.stop_le_start hlt hbyte hhead)
    · have hlt : last < index := Nat.not_le.mp fun hle => outside ⟨hge, hle⟩
      exact Or.inl (ends.1 ▸ hstop ▸ ordered.stop_le_start hlt hfinal hbyte)

theorem Evolves.apart_of_clear (h : Evolves f o) (ordered : InTime f.bytes) (hc : f.covered = 0)
    (tied : ∀ r ∈ o.reports, r.covers.isSome) {r : Report} (he : r.note.isError = true)
    (clear : o.state.Clear r.start r.stop) : ∀ a ∈ o.reports, a.span.Apart r.span := by
  intro a ha same
  have error : a.note.isError = true := Note.isError_iff.mpr (same.trans (Note.isError_iff.mp he))
  exact Span.apart_of_le (h.le_of_clear ordered hc ha (tied a ha) error clear) same

end Tied

theorem tied_reportRest {f : Frame} (note : Note) (left : f.covered < f.length) :
    ∀ r ∈ (f.reportRest note).reports, r.covers.isSome := by
  obtain ⟨r, -, covers, hr⟩ := reportRest_of_left note left
  rw [hr]
  intro r' hmem
  rw [List.mem_singleton.mp hmem, covers]
  rfl

theorem tied_reportUnknown {f : Frame} (recognizes : UInt8 → Bool) (hf : f.Held) :
    ∀ r ∈ (f.reportUnknown recognizes).reports, r.covers.isSome := by
  by_cases h : f.Unknown recognizes
  · rw [reportUnknown_of_unknown h]
    exact tied_reportRest _ h.2.2
  · rw [reportUnknown_of_not_unknown hf h]
    exact List.forall_mem_nil _

theorem Check.tied_or_aside {f : Frame} {found : Prop} {note : Note} {o : Outcome Frame Unit}
    (h : Check f found note o) :
    (∀ r ∈ o.reports, r.covers.isSome) ∨
      ∃ r : Report, o.reports = [r] ∧ r.note = note ∧ f.Clear r.start r.stop := by
  cases h with
  | quiet h => exact Or.inl (List.forall_mem_nil _)
  | rest h left => exact Or.inl (tied_reportRest note left)
  | aside h clear => exact Or.inr ⟨_, rfl, rfl, clear⟩

theorem Evolves.apart_check {α : Type} {f : Frame} {o : Outcome Frame α} (h : Evolves f o)
    (ordered : InTime f.bytes) (hc : f.covered = 0) (tied : ∀ r ∈ o.reports, r.covers.isSome)
    {found : Prop} {note : Note} {second : Outcome Frame Unit} (check : Check o.state found note second)
    (closing : note.Closing) : (o.reports ++ second.reports).Pairwise fun a b => a.span.Apart b.span := by
  rcases check.tied_or_aside with more | ⟨r, hr, rfl, clear⟩
  · exact (h.trans (check.raises closing).evolves).apart_tied ordered
      (List.forall_mem_append.mpr ⟨tied, more⟩)
  · rw [hr]
    refine List.pairwise_append.mpr ⟨h.apart_tied ordered tied, List.pairwise_singleton _ _, ?_⟩
    intro a ha b hb
    rw [List.mem_singleton.mp hb]
    exact h.apart_of_clear ordered hc tied closing.1 clear a ha

theorem exists_check_reportLength {f : Frame} (parsed : Progress) (margin : Time) (hf : f.Held) :
    ∃ found note, Check f found note (f.reportLength parsed margin) ∧ note.Closing := by
  by_cases short : f.Short
  · rw [reportLength_of_short parsed margin hf short]
    exact ⟨f.Short, .tooShort, .aside short (.behind rfl), rfl, rfl⟩
  · exact ⟨_, _, check_reportLength parsed margin hf short, rfl, rfl⟩

/-- After the check on unknown functions only one check can find something, for a frame is not too large
and too short at once. -/
theorem checks_eq {f : Frame} (recognizes : UInt8 → Bool) (parsed : Progress) (margin : Time)
    (hf : f.Held) :
    let g := (f.reportUnknown recognizes).state
    ∃ next found note, f.checks recognizes parsed margin = (f.reportUnknown recognizes).andThen next ∧
      Check g found note (next g ()) ∧ note.Closing := by
  intro g
  have held : g.Held := (evolves_reportUnknown f recognizes).held hf
  by_cases long : Limits.maxFrameLength < f.length
  · exact ⟨_, _, _, checks_of_long recognizes parsed margin hf long, check_reportOversized margin held,
      rfl, rfl⟩
  · obtain ⟨found, note, check, closing⟩ := exists_check_reportLength parsed margin held
    exact ⟨_, found, note, checks_of_not_long recognizes parsed margin long, check, closing⟩

end Frame

theorem Note.kind_of_ofField {note : Note} (h : note.ofField = true) : note.kind ≠ .errorIndication := by
  cases note with
  | frameWithError => cases h
  | other category text => cases h
  | _ => nofun

theorem Note.category_of_ofField {note : Note} (h : note.ofField = true) :
    note.category ≠ .errorIndication := by
  rw [category]
  cases note.accepted with
  | true => exact kind_of_ofField h
  | false =>
    intro same
    cases same

/-- What fields and closing checks report never overlaps in one category. -/
theorem Grammar.pairwise_apart (role : Role) (n : Nat) {f : Frame} (hf : f.Held) (hc : f.covered = 0)
    (ordered : InTime f.bytes) (parsed : Progress) (margin : Time) :
    let parse := (role.grammar n).parse f
    let checks := parse.state.checks (role.grammar n).recognizes parsed margin
    (parse.reports ++ checks.reports).Pairwise fun a b => a.span.Apart b.span := by
  intro parse checks
  have parses : f.Evolves parse := (role.grammar n).evolves_parse f
  have held := parses.held hf
  let unknown := parse.state.reportUnknown (role.grammar n).recognizes
  have raises := (Frame.check_reportUnknown (role.grammar n).recognizes held).raises ⟨rfl, rfl⟩
  have tied : ∀ r ∈ parse.reports ++ unknown.reports, r.covers.isSome := by
    refine List.forall_mem_append.mpr ⟨fun r hmem => ?_, Frame.tied_reportUnknown _ held⟩
    exact (ofField_of_mem_parse role n f r hmem).1
  -- only the last check can report beside the cursor
  obtain ⟨next, found, note, hchecks, check, closing⟩ :=
    Frame.checks_eq (role.grammar n).recognizes parsed margin held
  have hreports : checks.reports = unknown.reports ++ (next unknown.state ()).reports := by
    rw [show checks = _ from hchecks, Outcome.andThen_eq_of_ok raises.result]
  rw [hreports, ← List.append_assoc]
  exact (parses.trans raises.evolves).apart_check ordered hc tied check closing

theorem Grammar.live_nil (role : Role) (n : Nat) (start : Time) (options : CloseOptions) :
    (role.grammar n).live (.opened role start) [] options = .done (.opened role start) () := by
  cases role with
  | request => rfl
  | response => rfl

theorem apart_markErrors {f : Frame} (wanted : Bool) (hf : f.Held) {r : Report}
    (hr : r.note.category ≠ .errorIndication) :
    ∀ mark ∈ (f.markErrors wanted).reports, r.span.Apart mark.span := by
  intro mark hmem same
  have own : mark.note.category = .errorIndication := by
    rw [Frame.note_eq_of_markErrors wanted hf mark hmem]
    rfl
  exact absurd (same.trans own) hr

/-- No two reports of one category overlap over the whole life of a frame whose bytes do not. -/
theorem live_apart (role : Role) (n : Nat) (start : Time) (bytes : List Byte) (ordered : InTime bytes)
    (options : CloseOptions) :
    let o := (role.grammar n).live (.opened role start) bytes options
    o.result = .ok () ∧ o.spans.Pairwise fun a b => a.category = b.category → ¬ a.Overlaps b := by
  intro o
  by_cases h : bytes = []
  · subst h
    rw [show o = _ from Grammar.live_nil role n start options]
    exact ⟨rfl, .nil⟩
  · obtain ⟨parsed, -, -, held, spec, live⟩ := (role.lawful_grammar n).live_eq_stages role start h options
    have fields := Grammar.ofField_of_mem_parse role n (.filled role start bytes)
    have apart := Grammar.pairwise_apart role n (Frame.held_filled role start h) rfl ordered parsed
      options.margin
    rw [show o = _ from live]
    refine ⟨rfl, List.pairwise_map.mpr ?_⟩
    rw [← List.append_assoc]
    refine List.pairwise_append.mpr ⟨apart, ?_, fun a ha mark hmark => ?_⟩
    · rcases Frame.markErrors_cases options.markErrors held with h | ⟨mark, -, -, h⟩
      · rw [h]
        exact .nil
      · rw [h]
        exact List.pairwise_singleton _ _
    · refine apart_markErrors options.markErrors held ?_ mark hmark
      rcases List.mem_append.mp ha with ha | ha
      · exact Note.category_of_ofField (fields a ha).2
      · rw [Note.isError_iff.mp (spec.closing a ha).1]
        nofun

/-- The two errors of a query that was cut off are apart, and so is the mark. -/
theorem live_apart_emptyQuery :
    let o := (Role.request.grammar 2).live (.opened .request 0) emptyQuery ⟨10, true⟩
    InTime emptyQuery ∧
      o.spans.map (fun s => (s.category, s.start, s.stop)) =
        [(.serverId, 0, 8), (.function, 10, 18), (.address, 20, 38), (.error, 40, 58), (.error, 58, 68),
          (.errorIndication, 0, 58)] ∧
      o.spans.Pairwise fun a b => a.category = b.category → ¬ a.Overlaps b := by
  have ordered : InTime emptyQuery := ⟨by decide, by decide⟩
  exact ⟨ordered, by decide +kernel, (live_apart .request 2 0 emptyQuery ordered ⟨10, true⟩).2⟩

end ModbusRtu
