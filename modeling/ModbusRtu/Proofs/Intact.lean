import ModbusRtu.Proofs.LengthVerdict
import ModbusRtu.Proofs.Twins

/-! Frames without an error. Such a frame has the length that it declares, each of its fields keeps its rule, and
all that is ever said of it is what its fields say, whenever it was closed and whatever the mark is set to. -/

namespace ModbusRtu

open FieldTable

namespace Plan

variable {v : Bytes} {first : Nat} {p : Plan} {slots : List Slot}

theorem Tiles.extent_eq (h : Tiles v first p slots) {total next minimum : Nat}
    (laid : Laid total next minimum p) : first + extent slots = total := by
  induction h generalizing next minimum with
  | require length rest ih =>
    cases laid with
    | require length laid => exact ih laid
  | await h rest ih =>
    cases laid with
    | await h laid => exact ih laid
  | @field first last p slots said slot h rest ih =>
    cases laid with
    | field said h' laid =>
      have behind := ih laid
      rw [h.within.2, Nat.add_assoc] at behind
      exact behind
  | @trailer first last skipped h =>
    cases laid with
    | trailer h' =>
      have width : extent [checksum v skipped] = skipped + 2 := rfl
      omega

/-- The place behind fields that begin at `first`. -/
def behind (first : Nat) (fields : List Entry) : Nat := fields.foldl (fun _ e => e.last + 1) first

theorem Tiles.entries_eq (h : Tiles v first p slots) :
    ∃ fields skipped, ∃ place, entries first slots = fields ++ [(checksum v skipped).entry place] ∧
      place = behind first fields ∧ place + skipped + 2 = first + extent slots ∧ first ≤ place ∧
      ∀ e ∈ fields, e.last < place := by
  induction h with
  | require length rest ih => exact ih
  | await h rest ih => exact ih
  | @field first last p slots said slot h rest ih =>
    obtain ⟨fields, skipped, place, table, follows, ends, further, before⟩ := ih
    have hlast : (slot.entry first).last = last := by rw [h.entry]
    refine ⟨slot.entry first :: fields, skipped, place, ?_, ?_, ?_, ?_, ?_⟩
    · rw [entries, ← h.within.2, table]
      rfl
    · rw [behind, List.foldl_cons, hlast]
      exact follows
    · rw [extent_cons, ends, h.within.2]
      omega
    · exact Nat.le_trans (Nat.le_succ_of_le h.within.1) further
    · exact List.forall_mem_cons.mpr ⟨hlast ▸ further, before⟩
  | @trailer first last skipped h =>
    have width : extent [checksum v skipped] = skipped + 2 := rfl
    exact ⟨[], skipped, first, rfl, rfl, by omega, Nat.le_refl first, List.forall_mem_nil _⟩

end Plan

section Length

variable {v w : Bytes}

theorem requestLength_congr (n : Nat) (code : v.byte 1 = w.byte 1)
    (same : Bytes.EqUpTo (requestLength n v - 2) v w) : requestLength n w = requestLength n v := by
  unfold requestLength at same ⊢
  rw [← code]
  split at same
  case h_12 => rw [same 6 (by omega)]
  case h_13 => rw [same 6 (by omega)]
  case h_15 => rw [same 10 (by omega)]
  all_goals rfl

theorem responseLength_congr (n : Nat) (code : v.byte 1 = w.byte 1)
    (same : Bytes.EqUpTo (responseLength n v - 2) v w) : responseLength n w = responseLength n v := by
  unfold responseLength at same ⊢
  rw [← code]
  by_cases bit : FunctionCode.hasExceptionBit (v.byte 1)
  · rw [if_pos bit, if_pos bit]
  · rw [if_neg bit] at same
    rw [if_neg bit, if_neg bit]
    split at same
    all_goals first | rfl | rw [same 2 (by omega)]

/-- The declared length does not depend on the check sum, nor on what is behind it. -/
theorem Role.declaredLength_congr (role : Role) (n : Nat) (code : v.byte 1 = w.byte 1)
    (same : Bytes.EqUpTo (role.declaredLength n v - 2) v w) :
    role.declaredLength n w = role.declaredLength n v := by
  cases role with
  | request => exact requestLength_congr n code same
  | response => exact responseLength_congr n code same

end Length

section Whole

variable (role : Role) (n : Nat) {v : Bytes} (known : (role.grammar n).recognizes (v.byte 1) = true)

include known

theorem Role.four_le_declaredLength : Limits.minFrameLength ≤ role.declaredLength n v :=
  (role.laid_declared n known).minimum_le

theorem Role.extent_fields : extent (role.fields n v) = role.declaredLength n v := by
  obtain ⟨p, hp, tiles⟩ := tiles_plan role n known
  have laid := role.laid_declared n known
  rw [hp] at laid
  cases laid with
  | await h laid => exact (Nat.zero_add _).symm.trans (tiles.extent_eq laid)

theorem Role.entries_fields :
    ∃ fields skipped, ∃ place, entries 0 (role.fields n v) = fields ++ [(checksum v skipped).entry place] ∧
      place = Plan.behind 0 fields ∧ place + skipped + 2 = role.declaredLength n v ∧
      ∀ e ∈ fields, e.last < place := by
  obtain ⟨p, hp, tiles⟩ := tiles_plan role n known
  obtain ⟨fields, skipped, place, table, follows, ends, -, before⟩ := tiles.entries_eq
  rw [role.extent_fields n known, Nat.zero_add] at ends
  exact ⟨fields, skipped, place, table, follows, ends, before⟩

theorem Role.last_lt_of_mem_entries : ∀ e ∈ entries 0 (role.fields n v), e.last < role.declaredLength n v := by
  obtain ⟨fields, skipped, place, table, -, ends, before⟩ := role.entries_fields n known
  rw [table]
  refine List.forall_mem_append.mpr ⟨fun e he => ?_, List.forall_mem_singleton.mpr ?_⟩
  · have := before e he
    omega
  · show place + (skipped + 2) - 1 < _
    omega

end Whole

theorem Grammar.reports_parse_whole (role : Role) (n : Nat) (start : Time) {bytes : List Byte}
    (known : (role.grammar n).recognizes (Bytes.byte (bytes.map Byte.value) 1) = true)
    (long : role.declaredLength n (bytes.map Byte.value) ≤ bytes.length) :
    ((role.grammar n).parse (.filled role start bytes)).reports.map Report.row =
      (entries 0 (role.fields n (bytes.map Byte.value))).map Entry.row := by
  have h4 := Nat.le_trans (role.four_le_declaredLength n known) long
  have hv := Frame.values_filled role start bytes
  have rows := reports_parse role n (f := .filled role start bytes) h4 rfl (hv ▸ known)
  rw [hv, List.filter_eq_self.mpr] at rows
  · exact rows
  · intro e he
    exact decide_eq_true (Nat.lt_of_lt_of_le (role.last_lt_of_mem_entries n known e he) long)

def Byte.times (b : Byte) : Time × Time := (b.start, b.stop)

namespace Report

variable {bytes bytes' : List Byte}

theorem times_eq_of_covers {r r' : Report} (times : bytes.map Byte.times = bytes'.map Byte.times)
    (covers : r.covers = r'.covers) (tied : r.covers.isSome) (fits : r.Fits bytes) (fits' : r'.Fits bytes') :
    r.start = r'.start ∧ r.stop = r'.stop := by
  have same {i : Nat} {b b' : Byte} (hb : bytes[i]? = some b) (hb' : bytes'[i]? = some b') :
      b.start = b'.start ∧ b.stop = b'.stop := by
    have at_i := congrArg (·[i]?) times
    simp only [List.getElem?_map, hb, hb', Option.map_some, Option.some.injEq, Byte.times, Prod.mk.injEq] at at_i
    exact at_i
  obtain ⟨⟨first, last⟩, range⟩ := Option.isSome_iff_exists.mp tied
  obtain ⟨-, head, final, hhead, hfinal, start, stop⟩ := fits first last range
  obtain ⟨-, head', final', hhead', hfinal', start', stop'⟩ := fits' first last (covers.symm.trans range)
  rw [start, start', stop, stop']
  exact ⟨(same hhead hhead').1, (same hfinal hfinal').2⟩

theorem eq_of_row {r r' : Report} (times : bytes.map Byte.times = bytes'.map Byte.times)
    (role : r.role = r'.role) (row : r.row = r'.row) (tied : r.covers.isSome) (fits : r.Fits bytes)
    (fits' : r'.Fits bytes') : r = r' := by
  obtain ⟨covers, -, note⟩ := row_eq_iff.mp row
  obtain ⟨starts, stops⟩ := times_eq_of_covers times covers tied fits fits'
  cases r
  cases r'
  simp only [Report.mk.injEq]
  exact ⟨role, note, starts, stops, covers⟩

theorem eq_of_rows {rs rs' : List Report} (times : bytes.map Byte.times = bytes'.map Byte.times) {role : Role}
    (roles : ∀ r ∈ rs, r.role = role) (roles' : ∀ r ∈ rs', r.role = role) (tied : ∀ r ∈ rs, r.covers.isSome)
    (fits : ∀ r ∈ rs, r.Fits bytes) (fits' : ∀ r ∈ rs', r.Fits bytes') (rows : rs.map row = rs'.map row) :
    rs = rs' := by
  induction rs generalizing rs' with
  | nil => exact (List.map_eq_nil_iff.mp rows.symm).symm
  | cons r rs ih =>
    obtain ⟨r', rs', rfl, row, rows⟩ := List.map_eq_cons_iff.mp rows.symm
    rw [List.forall_mem_cons] at roles roles' tied fits fits'
    rw [eq_of_row times (roles.1.trans roles'.1.symm) row.symm tied.1 fits.1 fits'.1,
      ih roles.2 roles'.2 tied.2 fits.2 fits'.2 rows.symm]

end Report

/-- Frames whose fields make the same table at the same times are reported in the same words. -/
theorem Grammar.reports_parse_eq (role : Role) (n : Nat) (start start' : Time) {bytes bytes' : List Byte}
    (times : bytes.map Byte.times = bytes'.map Byte.times)
    (rows : ((role.grammar n).parse (.filled role start bytes)).reports.map Report.row =
      ((role.grammar n).parse (.filled role start' bytes')).reports.map Report.row) :
    ((role.grammar n).parse (.filled role start bytes)).reports =
      ((role.grammar n).parse (.filled role start' bytes')).reports := by
  have evolves := (role.grammar n).evolves_parse (.filled role start bytes)
  have evolves' := (role.grammar n).evolves_parse (.filled role start' bytes')
  exact Report.eq_of_rows times evolves.reports evolves'.reports
    (fun r hr => (ofField_of_mem_parse role n _ r hr).1) evolves.fits evolves'.fits rows

/-- A frame in order: as long as it declares, and all its fields keep their rules. -/
structure Role.Intact (role : Role) (n : Nat) (v : Bytes) : Prop where
  known : (role.grammar n).recognizes (v.byte 1) = true
  length : v.length = role.declaredLength n v
  limit : v.length ≤ Limits.maxFrameLength
  kept : ∀ e ∈ entries 0 (role.fields n v), e.category ≠ .error

namespace Role.Intact

variable {role : Role} {n : Nat} {bytes : List Byte} (h : role.Intact n (bytes.map Byte.value))

include h

theorem length_eq : bytes.length = role.declaredLength n (bytes.map Byte.value) := by
  rw [← h.length, List.length_map]

theorem rows (start : Time) :
    ((role.grammar n).parse (.filled role start bytes)).reports.map Report.row =
      (entries 0 (role.fields n (bytes.map Byte.value))).map Entry.row :=
  Grammar.reports_parse_whole role n start h.known (Nat.le_of_eq h.length_eq.symm)

theorem quiet (start : Time) :
    ∀ r ∈ ((role.grammar n).parse (.filled role start bytes)).reports, r.note.isError = false := by
  intro r hr
  obtain ⟨e, he, -, category, -⟩ := Report.exists_entry (h.rows start) hr
  exact decide_eq_false (show r.span.category ≠ .error from category ▸ h.kept e he)

theorem reports_eq (start start' : Time) :
    ((role.grammar n).parse (.filled role start bytes)).reports =
      ((role.grammar n).parse (.filled role start' bytes)).reports :=
  Grammar.reports_parse_eq role n start start' rfl ((h.rows start).trans (h.rows start').symm)

end Role.Intact

section Life

variable (role : Role) (n : Nat) (start : Time) {bytes : List Byte} (h : bytes ≠ []) (options : CloseOptions)
    (clean : ((role.grammar n).live (.opened role start) bytes options).state.hasError = false)

include h clean

/-- Of a frame without an error nothing is reported but its fields. -/
theorem Grammar.reports_live_of_clean :
    let o := (role.grammar n).live (.opened role start) bytes options
    o.result = .ok () ∧ o.reports = ((role.grammar n).parse (.filled role start bytes)).reports := by
  intro o
  obtain ⟨parsed, hp, held, held', spec, live⟩ := (role.lawful_grammar n).live_eq_stages role start h options
  rw [live] at clean
  have quiet := spec.quiet (spec.hasError_eq_false.mp clean).2
  obtain ⟨first, final, -, -, mark⟩ := Frame.markErrors_eq options.markErrors held'
  rw [clean, Bool.and_false, if_neg Bool.false_ne_true] at mark
  rw [show o = _ from live, mark, quiet]
  exact ⟨rfl, List.append_nil _⟩

theorem Role.intact_of_live : role.Intact n (bytes.map Byte.value) := by
  let f := Frame.filled role start bytes
  have hv : f.values = bytes.map Byte.value := Frame.values_filled role start bytes
  obtain ⟨-, parsed, hp, he⟩ := (role.lawful_grammar n).live_spec role start h options
  obtain ⟨hparse, sound⟩ := he.mp clean
  obtain ⟨-, known⟩ := (role.grammar n).known_of_not_flawed (f := f) (Nat.le_refl _)
    (role.plan_of_unknown n) rfl sound
  obtain ⟨length, limit⟩ := ((role.grammar n).not_flawed_iff (role.laid_declared n known) known rfl rfl hp).mp sound
  rw [hv] at known length
  have rows := Grammar.reports_parse_whole role n start known (Nat.le_of_eq length.symm)
  have errors := ((role.grammar n).evolves_parse f).hasError
  rw [hparse] at errors
  rw [← f.length_values, hv] at length limit
  refine ⟨known, length, limit, fun e he => ?_⟩
  obtain ⟨r, hr, row⟩ := List.mem_map.mp (rows ▸ List.mem_map_of_mem (f := Entry.row) he)
  rw [← (Report.row_eq_iff.mp row).2.1]
  intro error
  have none := List.any_eq_false.mp (Bool.or_eq_false_iff.mp errors.symm).2 r hr
  exact none (Note.isError_iff.mpr error)

end Life

end ModbusRtu
