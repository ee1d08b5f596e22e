import ModbusRtu.Proofs.Coverage

/-! The verdict on the length of a frame. Once its function is known it is too short exactly if it ends before
the length it declares, and too long exactly if it goes on behind it, and then the bytes behind it are what is
said to be too much. A frame of fewer than four bytes is too short whatever it says. -/

namespace ModbusRtu

namespace Frame

/-- What is reported at the end of a frame of `length` bytes that declares `total`. -/
inductive LengthSaid (length total : Nat) (reports : List Report) : Prop
  | short {r : Report} (h : length < total) (said : reports = [r]) (note : r.note = .tooShort)
  | exact (h : length = total) (said : reports = [])
  | long {r : Report} (h : total < length) (said : reports = [r]) (note : r.note = .tooLong)
      (covers : r.covers = some (total, length - 1))

section LengthSaid

variable {length total : Nat} {reports : List Report}

end LengthSaid

theorem checks_of_declared {f : Frame} {recognizes : UInt8 → Bool} {parsed : Progress} {total : Nat}
    (margin : Time) (hf : f.Held) (known : ¬ f.Unknown recognizes) (limit : f.length ≤ Limits.maxFrameLength)
    (hm : f.minimumLength = total) (settled : total ≤ f.length → parsed = .settled ∧ f.covered = total) :
    LengthSaid f.length total (f.checks recognizes parsed margin).reports ∧
      (f.checks recognizes parsed margin).state.minimumLength = total := by
  rw [checks_of_not_long recognizes parsed margin (Nat.not_lt.mpr limit),
    reportUnknown_of_not_unknown hf known, Outcome.done_andThen]
  by_cases short : f.length < total
  · rw [reportLength_of_short parsed margin hf ⟨limit, hm ▸ short⟩]
    exact ⟨.short short rfl rfl, hm⟩
  · obtain ⟨hp, hc⟩ := settled (Nat.not_lt.mp short)
    have notShort : ¬ (f.length ≤ Limits.maxFrameLength ∧ f.length < f.minimumLength) := by omega
    rw [reportLength, if_neg notShort, if_pos hp, ← reportRest]
    by_cases long : total < f.length
    · obtain ⟨r, note, covers, hr⟩ := reportRest_of_left .tooLong (hc.symm ▸ long)
      rw [hr]
      exact ⟨.long long rfl note (by rw [covers, hc, lastIndex]), hm⟩
    · have left : ¬ f.covered < f.length := hc.symm ▸ long
      rw [reportRest, reportIfNew_of_covered .tooLong hf left]
      exact ⟨.exact (by omega) rfl, hm⟩

end Frame

namespace Grammar

section Life

variable (role : Role) (n : Nat) (start : Time) {bytes : List Byte} (h : bytes ≠ []) (options : CloseOptions)

include h

theorem checks_declared (h4 : Limits.minFrameLength ≤ bytes.length) (limit : bytes.length ≤ Limits.maxFrameLength)
    (known : (role.grammar n).recognizes (Bytes.byte (bytes.map Byte.value) 1) = true) (margin : Time)
    {parsed : Progress} (hp : ((role.grammar n).parse (.filled role start bytes)).result = .ok parsed) :
    let total := role.declaredLength n (bytes.map Byte.value)
    let checks := ((role.grammar n).parse (.filled role start bytes)).state.checks (role.grammar n).recognizes
      parsed margin
    Frame.LengthSaid bytes.length total checks.reports ∧ checks.state.minimumLength = total := by
  intro total checks
  let f := Frame.filled role start bytes
  have hv : f.values = bytes.map Byte.value := Frame.values_filled role start bytes
  have evolves := (role.grammar n).evolves_parse f
  have hlen : ((role.grammar n).parse f).state.length = bytes.length := evolves.length
  have measured := measured_parse role n (f := f) rfl rfl h4 (hv ▸ known)
  rw [hv] at measured
  have function := (role.grammar n).not_unknown_parse (f := f) (hv ▸ known)
  have settled (hl : total ≤ bytes.length) :
      parsed = .settled ∧ ((role.grammar n).parse f).state.covered = total := by
    refine ⟨Except.ok.inj (hp.symm.trans ?_), measured.covered hl⟩
    exact measured.result.trans (congrArg Except.ok (if_pos hl))
  have said := Frame.checks_of_declared margin (evolves.held (Frame.held_filled role start h)) function
    (hlen ▸ limit) measured.minimumLength (hlen ▸ settled)
  rwa [hlen] at said

theorem live_tiny (tiny : bytes.length < Limits.minFrameLength) :
    let o := (role.grammar n).live (.opened role start) bytes options
    ∃ first final, bytes[0]? = some first ∧ bytes[bytes.length - 1]? = some final ∧
      o.reports = ⟨role, .tooShort, start, o.state.lastRead.plus options.margin, none⟩ ::
        if options.markErrors then [⟨role, .frameWithError, first.start, final.stop, none⟩] else [] := by
  intro o
  let f := Frame.filled role start bytes
  have held : f.Held := Frame.held_filled role start h
  have limit : bytes.length ≤ Limits.maxFrameLength := Nat.le_of_lt (Nat.lt_trans tiny (by decide))
  have quiet := role.parse_of_tiny n (f := f) tiny
  have function : ¬ f.Unknown (role.grammar n).recognizes :=
    fun unknown => absurd tiny (Nat.not_lt.mpr unknown.1)
  obtain ⟨parsed, hp, -, held', -, live⟩ := (role.lawful_grammar n).live_eq_stages role start h options
  have checks : f.checks (role.grammar n).recognizes parsed options.margin =
      f.reportBetween start (f.lastRead.plus options.margin) .tooShort := by
    rw [Frame.checks_of_not_long (f := f) _ _ _ (Nat.not_lt.mpr limit),
      Frame.reportUnknown_of_not_unknown held function, Outcome.done_andThen,
      Frame.reportLength_of_short parsed _ held ⟨limit, tiny⟩, Frame.reportedUntil_zero rfl]
    rfl
  simp only [show (role.grammar n).parse (.filled role start bytes) = _ from quiet, Outcome.done] at live held'
  rw [checks] at live held'
  obtain ⟨first, final, hfirst, hfinal, mark⟩ := Frame.markErrors_eq options.markErrors held'
  rw [mark] at live
  refine ⟨first, final, hfirst, hfinal, ?_⟩
  have wanted : (options.markErrors && (f.reportBetween start (f.lastRead.plus options.margin)
      .tooShort).state.hasError) = options.markErrors := Bool.and_true _
  rw [show o = _ from live, wanted]
  rfl

end Life

end Grammar

end ModbusRtu
