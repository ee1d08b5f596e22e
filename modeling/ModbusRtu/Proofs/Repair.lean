import ModbusRtu.Proofs.Intact

/-! The check sum and what is said of it. The last field of a frame that has all its bytes is the check sum, which
is said to be correct exactly if the frame passes the check. Otherwise the two bytes it should have are named as
they go on the line. No field before it depends on these two, so with the named bytes in their place the frame is
reported as before, but for the check sum, which is then correct. -/

namespace ModbusRtu

open FieldTable Numeral

namespace Bytes

/-- The bytes with two others in the place of those at `i` and behind it. -/
def setTwo (v : Bytes) (i : Nat) (low high : UInt8) : Bytes :=
  (List.modify v i fun _ => low).modify (i + 1) fun _ => high

section SetTwo

variable (v : Bytes) (i : Nat) (low high : UInt8)

theorem length_setTwo : (v.setTwo i low high).length = v.length := by
  rw [setTwo, List.length_modify, List.length_modify]

theorem eqUpTo_setTwo : EqUpTo i v (v.setTwo i low high) := by
  intro j hj
  rw [byte, byte, List.getD_eq_getElem?_getD, List.getD_eq_getElem?_getD, setTwo,
    List.getElem?_modify_ne _ _ (by omega), List.getElem?_modify_ne _ _ (by omega)]

theorem slice_setTwo (h : i + 2 ≤ v.length) : (v.setTwo i low high).slice i 2 = [low, high] := by
  have first : (v.setTwo i low high).byte i = low := by
    rw [byte, List.getD_eq_getElem?_getD, setTwo, List.getElem?_modify_ne _ _ (by omega), List.getElem?_modify_eq,
      List.getElem?_eq_getElem (by omega)]
    rfl
  have second : (v.setTwo i low high).byte (i + 1) = high := by
    rw [byte, List.getD_eq_getElem?_getD, setTwo, List.getElem?_modify_eq,
      List.getElem?_eq_getElem (by rw [List.length_modify]; omega)]
    rfl
  rw [slice_two (by rw [length_setTwo]; omega), first, second]

end SetTwo

end Bytes

theorem Checksum.checkFrame_setTwo {v : Bytes} {split : Nat} {low high : UInt8} (h : 2 ≤ split)
    (hl : split + 2 ≤ v.length) (sum : [low, high] = trailer (v.take split)) :
    checkFrame ((v.setTwo split low high).take (split + 2)) = .ok () := by
  have length := v.length_setTwo split low high
  obtain ⟨actual, check⟩ := checkFrame_take h (length ▸ hl)
  have before := (v.eqUpTo_setTwo split low high).take (by omega) (by omega)
  rw [check, v.slice_setTwo split low high hl, sum, before, if_pos rfl]

/-- The bytes with new values for the last two of the first `total`, at the same times. -/
def setTrailer (total : Nat) (low high : UInt8) (bytes : List Byte) : List Byte :=
  (bytes.modify (total - 2) fun b => { b with value := low }).modify (total - 1) fun b => { b with value := high }

section SetTrailer

theorem map_modify {α β : Type} (image : α → β) (change' : β → β) {change : α → α} (values : List α) (i : Nat)
    (h : ∀ a, image (change a) = change' (image a)) :
    (values.modify i change).map image = (values.map image).modify i change' := by
  induction values generalizing i with
  | nil => rw [List.modify_nil, List.map_nil, List.modify_nil]
  | cons a values ih =>
    cases i with
    | zero => exact congrArg (· :: values.map image) (h a)
    | succ i => exact congrArg (image a :: ·) (ih i)

variable (total : Nat) (low high : UInt8) (bytes : List Byte)

theorem times_setTrailer : (setTrailer total low high bytes).map Byte.times = bytes.map Byte.times := by
  rw [setTrailer, map_modify Byte.times id, map_modify Byte.times id, List.modify_id, List.modify_id]
  · exact fun _ => rfl
  · exact fun _ => rfl

theorem values_setTrailer (split : Nat) :
    (setTrailer (split + 2) low high bytes).map Byte.value = Bytes.setTwo (bytes.map Byte.value) split low high := by
  rw [setTrailer, map_modify Byte.value fun _ => high, map_modify Byte.value fun _ => low]
  · rfl
  · exact fun _ => rfl
  · exact fun _ => rfl

end SetTrailer

namespace Checksum

/-- What is said of the check sum of the first `total` bytes. -/
def said (total : Nat) (v : Bytes) : Note :=
  match checkFrame (v.take total) with
  | .ok () => .checksumCorrect
  | .error _ => .checksumExpected (crc (v.take (total - 2)))

variable {total : Nat} {v : Bytes}

theorem said_of_ok (h : checkFrame (v.take total) = .ok ()) : said total v = .checksumCorrect := by
  rw [said, h]

theorem said_of_not_ok (h : checkFrame (v.take total) ≠ .ok ()) :
    said total v = .checksumExpected (crc (v.take (total - 2))) := by
  rw [said]
  split
  · contradiction
  · rfl

theorem said_correct_iff : (said total v).category = .checksum ∧ (said total v).text = "CRC correct" ↔
    checkFrame (v.take total) = .ok () := by
  rw [said]
  cases checkFrame (v.take total) with
  | ok passed => exact ⟨fun _ => rfl, fun _ => ⟨rfl, rfl⟩⟩
  | error reason => exact ⟨fun h => (nomatch h.1), nofun⟩

end Checksum

theorem FieldTable.checksum_row {v : Bytes} {place skipped : Nat} (h4 : Limits.minFrameLength ≤ place + skipped + 2)
    (long : place + skipped + 2 ≤ v.length) :
    ((checksum v skipped).entry place).row = (some (place, place + skipped + 1),
      (Checksum.said (place + skipped + 2) v).category, Checksum.said (place + skipped + 2) v) := by
  obtain ⟨actual, check⟩ := Checksum.checkFrame_take (Nat.le_of_add_le_add_right (show 2 + 2 ≤ _ from h4)) long
  by_cases sum : v.slice (place + skipped) 2 = Checksum.trailer (v.take (place + skipped))
  · rw [if_pos sum] at check
    simp only [Entry.row, Slot.entry, checksum, Checksum.said, sum, check, decide_true, if_true]
    rfl
  · rw [if_neg sum] at check
    simp only [Entry.row, Slot.entry, checksum, Checksum.said, sum, check, decide_false, if_false]
    rfl

theorem Role.entries_congr (role : Role) (n : Nat) {v w : Bytes}
    (known : (role.grammar n).recognizes (v.byte 1) = true) (code : v.byte 1 = w.byte 1)
    (hv : role.declaredLength n v ≤ v.length) (hw : role.declaredLength n v ≤ w.length)
    (same : Bytes.EqUpTo (role.declaredLength n v - 2) v w) :
    ∃ fields skipped place, entries 0 (role.fields n v) = fields ++ [(checksum v skipped).entry place] ∧
      entries 0 (role.fields n w) = fields ++ [(checksum w skipped).entry place] ∧
      place + skipped + 2 = role.declaredLength n v ∧ ∀ e ∈ fields, e.last < place := by
  obtain ⟨fields, skipped, place, table, follows, ends, before⟩ := role.entries_fields n known
  obtain ⟨fields', skipped', place', table', follows', ends', before'⟩ := role.entries_fields n (code ▸ known)
  rw [role.declaredLength_congr n code same] at ends'
  -- the fields before the check sum are those that end where the two frames still agree
  have agree := (twins_fields role n known fun _ => by rw [code]).filter_entries_eq
    (Nat.le_trans (Nat.sub_le _ 2) hv) (Nat.le_trans (Nat.sub_le _ 2) hw) same
  have early {u : Bytes} {fields : List Entry} {place skipped : Nat}
      (ends : place + skipped + 2 = role.declaredLength n v) (before : ∀ e ∈ fields, e.last < place) :
      (fields ++ [(checksum u skipped).entry place]).filter (fun e => e.last < role.declaredLength n v - 2) =
        fields := by
    have last : ¬ ((checksum u skipped).entry place).last < role.declaredLength n v - 2 := by
      show ¬ place + (skipped + 2) - 1 < _
      omega
    rw [List.filter_append, List.filter_cons_of_neg (by rwa [decide_eq_true_eq]), List.filter_nil, List.append_nil,
      List.filter_eq_self]
    intro e he
    have := before e he
    exact decide_eq_true (by omega)
  rw [table, table', early ends before, early ends' before'] at agree
  subst agree
  obtain rfl : place = place' := follows.trans follows'.symm
  obtain rfl : skipped = skipped' := by omega
  exact ⟨fields, skipped, place, table, table', ends, before⟩

theorem Grammar.reports_parse_cut (role : Role) (n : Nat) (start : Time) (bytes : List Byte)
    (known : (role.grammar n).recognizes (Bytes.byte (bytes.map Byte.value) 1) = true)
    (long : role.declaredLength n (bytes.map Byte.value) ≤ bytes.length) {fields : List Entry} {final : Entry}
    (table : entries 0 (role.fields n (bytes.map Byte.value)) = fields ++ [final]) :
    ∃ before sum, ((role.grammar n).parse (.filled role start bytes)).reports = before ++ [sum] ∧
      before.map Report.row = fields.map Entry.row ∧ sum.row = final.row := by
  have rows := reports_parse_whole role n start known long
  rw [table, List.map_append] at rows
  obtain ⟨before, rest, reports, same, last⟩ := List.map_eq_append_iff.mp rows
  obtain ⟨sum, rfl, row⟩ := List.map_eq_singleton_iff.mp last
  exact ⟨before, sum, reports, same, row⟩

theorem Report.concat_eq_of_rows {bytes bytes' : List Byte} {before before' : List Report} {last last' : Report}
    (times : bytes.map Byte.times = bytes'.map Byte.times) {role : Role}
    (roles : ∀ r ∈ before ++ [last], r.role = role) (roles' : ∀ r ∈ before' ++ [last'], r.role = role)
    (tied : ∀ r ∈ before ++ [last], r.covers.isSome) (fits : ∀ r ∈ before ++ [last], r.Fits bytes)
    (fits' : ∀ r ∈ before' ++ [last'], r.Fits bytes') (rows : before.map row = before'.map row)
    (covers : last.covers = last'.covers) : before = before' ∧ last' = { last with note := last'.note } := by
  rw [List.forall_mem_append, List.forall_mem_singleton] at roles roles' tied fits fits'
  refine ⟨eq_of_rows times roles.1 roles'.1 tied.1 fits.1 fits'.1 rows, ?_⟩
  obtain ⟨starts, stops⟩ := times_eq_of_covers times covers tied.2 fits.2 fits'.2
  cases last'
  simp only [Report.mk.injEq, true_and]
  exact ⟨roles'.2.trans roles.2.symm, starts.symm, stops.symm, covers.symm⟩

/-- Two frames at the same times that differ at most in the check sum and behind it are reported alike, but for
the check sum. -/
theorem Grammar.reports_parse_alike (role : Role) (n : Nat) (start : Time) (bytes bytes' : List Byte)
    (times : bytes.map Byte.times = bytes'.map Byte.times)
    (known : (role.grammar n).recognizes (Bytes.byte (bytes.map Byte.value) 1) = true)
    (long : role.declaredLength n (bytes.map Byte.value) ≤ bytes.length)
    (same : Bytes.EqUpTo (role.declaredLength n (bytes.map Byte.value) - 2) (bytes.map Byte.value)
      (bytes'.map Byte.value)) :
    let total := role.declaredLength n (bytes.map Byte.value)
    ∃ before sum sum' first, ((role.grammar n).parse (.filled role start bytes)).reports = before ++ [sum] ∧
      ((role.grammar n).parse (.filled role start bytes')).reports = before ++ [sum'] ∧
      (∀ r ∈ before, ∃ head last, r.covers = some (head, last) ∧ last < first) ∧
      first < total - 1 ∧ sum.covers = some (first, total - 1) ∧
      sum.note = Checksum.said total (bytes.map Byte.value) ∧
      sum' = { sum with note := Checksum.said total (bytes'.map Byte.value) } := by
  intro total
  have h4 : Limits.minFrameLength ≤ total := role.four_le_declaredLength n known
  have code := same 1 (Nat.lt_of_lt_of_le (by decide) (Nat.sub_le_sub_right h4 2))
  have long' : total ≤ bytes'.length := by
    rwa [← List.length_map (f := Byte.times), ← times, List.length_map]
  have hv : total ≤ (bytes.map Byte.value).length := by rwa [List.length_map]
  have hw : total ≤ (bytes'.map Byte.value).length := by rwa [List.length_map]
  obtain ⟨fields, skipped, place, table, table', ends, ahead⟩ := role.entries_congr n known code hv hw same
  have total' := role.declaredLength_congr n code same
  obtain ⟨before, sum, reports, rows, row⟩ := reports_parse_cut role n start bytes known long table
  obtain ⟨before', sum', reports', rows', row'⟩ :=
    reports_parse_cut role n start bytes' (code ▸ known) (total' ▸ long') table'
  rw [checksum_row (ends ▸ h4) (ends ▸ hv), ends] at row
  rw [checksum_row (ends ▸ h4) (ends ▸ hw), ends] at row'
  obtain ⟨covers, -, note⟩ := Report.row_eq_iff.mp row
  obtain ⟨covers', -, note'⟩ := Report.row_eq_iff.mp row'
  have evolves := (role.grammar n).evolves_parse (.filled role start bytes)
  have evolves' := (role.grammar n).evolves_parse (.filled role start bytes')
  have tied : ∀ r ∈ ((role.grammar n).parse (.filled role start bytes)).reports, r.covers.isSome :=
    fun r hr => (ofField_of_mem_parse role n _ r hr).1
  obtain ⟨rfl, last⟩ := Report.concat_eq_of_rows times (reports ▸ evolves.reports) (reports' ▸ evolves'.reports)
    (reports ▸ tied) (reports ▸ evolves.fits) (reports' ▸ evolves'.fits) (rows.trans rows'.symm)
    (covers.trans covers'.symm)
  refine ⟨before, sum, sum', place, reports, reports', fun r hr => ?_, by omega, ?_, note, note' ▸ last⟩
  · obtain ⟨e, he, covers, -⟩ := Report.exists_entry rows hr
    exact ⟨e.first, e.last, covers, ahead e he⟩
  · rw [covers, show place + skipped + 1 = total - 1 by omega]

/-- Take any bytes with a known function, at least as many as the frame declares. The last thing said is of the check
sum, whatever comes behind the frame: that it is correct exactly if the frame passes the check, and else which two
bytes it should have. With these in their place, at the same times, all else is reported as before and the check sum
is correct. -/
theorem checksum_named_and_repaired (role : Role) (n : Nat) (start : Time) (bytes : List Byte)
    (known : (role.grammar n).recognizes (Bytes.byte (bytes.map Byte.value) 1) = true)
    (long : role.declaredLength n (bytes.map Byte.value) ≤ bytes.length) :
    let v : Bytes := bytes.map Byte.value
    let total := role.declaredLength n v
    let o := (role.grammar n).parse (.filled role start bytes)
    (∃ progress, o.result = .ok progress) ∧
    ∃ before sum first, o.reports = before ++ [sum] ∧
      (∀ r ∈ before, ∃ head last, r.covers = some (head, last) ∧ last < first) ∧
      first < total - 1 ∧ sum.covers = some (first, total - 1) ∧ sum.Fits bytes ∧
      (sum.span.category = .checksum ∧ sum.span.text = "CRC correct" ↔ Checksum.checkFrame (v.take total) = .ok ()) ∧
      (Checksum.checkFrame (v.take total) ≠ .ok () →
        ∃ low high, [low, high] = Checksum.trailer (v.take (total - 2)) ∧ sum.span.category = .error ∧
          sum.span.text = "CRC should be " ++ hexByte low ++ " " ++ hexByte high ∧
          let o' := (role.grammar n).parse (.filled role start (setTrailer total low high bytes))
          (∃ progress, o'.result = .ok progress) ∧
          ∃ fixed, o'.reports = before ++ [fixed] ∧ fixed.covers = sum.covers ∧
            fixed.span = { sum.span with category := .checksum, text := "CRC correct" }) := by
  intro v total o
  have hg := role.lawful_grammar n
  have h4 : Limits.minFrameLength ≤ total := role.four_le_declaredLength n known
  have hv : total ≤ v.length := by rwa [List.length_map]
  have hs : total - 2 + 2 = total := Nat.sub_add_cancel (Nat.le_trans (by decide) h4)
  obtain ⟨low, high, trailer⟩ : ∃ low high, [low, high] = Checksum.trailer (v.take (total - 2)) := ⟨_, _, rfl⟩
  let bytes' := setTrailer total low high bytes
  have values : bytes'.map Byte.value = v.setTwo (total - 2) low high := by
    rw [← values_setTrailer, hs]
  have same : Bytes.EqUpTo (total - 2) v (bytes'.map Byte.value) := values ▸ v.eqUpTo_setTwo (total - 2) low high
  obtain ⟨before, sum, sum', first, reports, reports', ahead, place, covers, note, rfl⟩ :=
    Grammar.reports_parse_alike role n start bytes bytes' (times_setTrailer total low high bytes).symm known long same
  have mem : sum ∈ o.reports := reports ▸ List.mem_append_right _ List.mem_cons_self
  refine ⟨hg.parse_ok _, before, sum, first, reports, ahead, place, covers,
    ((role.grammar n).evolves_parse _).fits sum mem, ?_, fun wrong => ?_⟩
  · have said : sum.span.category = (Checksum.said total v).category ∧ sum.span.text = (Checksum.said total v).text :=
      note ▸ ⟨rfl, rfl⟩
    rw [said.1, said.2]
    exact Checksum.said_correct_iff
  · have named : sum.note = .checksumExpected (Checksum.crc (v.take (total - 2))) :=
      note.trans (Checksum.said_of_not_ok wrong)
    have passed := Checksum.checkFrame_setTwo (Nat.sub_le_sub_right h4 2) (hs.symm ▸ hv) trailer
    rw [hs, ← values] at passed
    have correct := Checksum.said_of_ok passed
    refine ⟨low, high, trailer, ?_, ?_, hg.parse_ok _, _, reports', rfl, ?_⟩
    · show sum.note.category = .error
      rw [named]
      rfl
    · have first : low = _ := (List.cons.inj trailer).1
      have second : high = _ := (List.cons.inj (List.cons.inj trailer).2).1
      show sum.note.text = _
      rw [named, first, second]
      rfl
    · rw [correct]
      rfl

/-- A query for the exception status with another server id than its check sum is of, and one byte more. -/
theorem checksum_named_and_repaired_statusQuery :
    let bytes : List Byte := [⟨0x12, 5, 7⟩, ⟨0x07, 9, 9⟩, ⟨0x4C, 30, 20⟩, ⟨0x22, 31, 40⟩, ⟨0x00, 41, 50⟩]
    let o := (Role.request.grammar 2).parse (.filled .request 0 bytes)
    let o' := (Role.request.grammar 2).parse (.filled .request 0 (setTrailer 4 0x4C 0xD2 bytes))
    ((Role.request.grammar 2).recognizes (Bytes.byte (bytes.map Byte.value) 1) = true ∧
      Role.request.declaredLength 2 (bytes.map Byte.value) ≤ bytes.length ∧
      Checksum.checkFrame ((bytes.map Byte.value).take 4) ≠ .ok ()) ∧
    ∃ before sum fixed, o.reports = before ++ [sum] ∧ sum.span.text = "CRC should be 0x4C 0xD2" ∧
      o'.reports = before ++ [fixed] ∧
      fixed.span = { sum.span with category := .checksum, text := "CRC correct" } := by
  intro bytes
  have known : (Role.request.grammar 2).recognizes (Bytes.byte (bytes.map Byte.value) 1) = true := by decide
  have long : Role.request.declaredLength 2 (bytes.map Byte.value) ≤ bytes.length := by decide
  have sum : Checksum.trailer (List.take 2 (bytes.map Byte.value)) = [0x4C, 0xD2] := by decide +kernel
  have wrong : Checksum.checkFrame ((bytes.map Byte.value).take 4) ≠ .ok () := by
    have four : 2 + 2 ≤ List.length (bytes.map Byte.value) := by decide
    obtain ⟨actual, check⟩ := Checksum.checkFrame_take (Nat.le_refl 2) four
    rw [sum, if_neg (by decide)] at check
    rw [check]
    nofun
  obtain ⟨-, before, last, first, reports, -, -, -, -, -, repaired⟩ :=
    checksum_named_and_repaired .request 2 0 bytes known long
  obtain ⟨low, high, trailer, -, text, -, fixed, reports', -, span⟩ := repaired wrong
  obtain ⟨rfl, rest⟩ := List.cons.inj (trailer.trans sum)
  obtain ⟨rfl, -⟩ := List.cons.inj rest
  exact ⟨⟨known, long, wrong⟩, before, last, fixed, reports, text.trans (by decide), reports', span⟩

end ModbusRtu
