import ModbusRtu.Proofs.Acceptance
import ModbusRtu.Proofs.Closing

/-! The verdict on a frame that was received and closed. If its function is known, the frame is free of
errors exactly if it is as long as it declares, within the limit, and none of its fields complains. -/

namespace ModbusRtu

open Item Plan

namespace Grammar

/-- The life of a frame: its bytes are pushed one by one, and it is closed. -/
def live (g : Grammar) (f : Frame) (bytes : List Byte) (options : CloseOptions) : Outcome Frame Unit :=
  (g.deliver f (bytes.map Delivery.push)).andThen fun f _ => g.close options f

theorem Lawful.received_eq {g : Grammar} (hg : g.Lawful) (f : Frame) {bytes : List Byte} (h : bytes ≠ []) :
    g.deliver f (bytes.map Delivery.push) = g.handle (f.extend bytes) .parse := by
  have ends : Delivery.EndsParsed (bytes.map Delivery.push) := by
    refine ⟨bytes.dropLast.map Delivery.push, .push (bytes.getLast h), ?_, rfl⟩
    rw [← List.map_singleton, ← List.map_append, List.dropLast_concat_getLast]
  rw [hg.deliver_of_endsParsed f ends, Delivery.arrived_push]

theorem Lawful.live_eq {g : Grammar} (hg : g.Lawful) (f : Frame) (bytes : List Byte) (options : CloseOptions) :
    g.live f bytes options = g.close options (f.extend bytes) := by
  rw [live, hg.deliver_close, Delivery.arrived_push]

theorem Lawful.evolves_live {g : Grammar} (hg : g.Lawful) (role : Role) (start : Time) (bytes : List Byte)
    (options : CloseOptions) :
    (Frame.filled role start bytes).Evolves (g.live (.opened role start) bytes options) := by
  rw [hg.live_eq]
  exact g.evolves_close options _

/-- The life of a frame comes to one parse, the closing checks and the mark. -/
theorem Lawful.live_eq_stages {g : Grammar} (hg : g.Lawful) (role : Role) (start : Time) {bytes : List Byte}
    (h : bytes ≠ []) (options : CloseOptions) :
    ∃ parsed, (g.parse (.filled role start bytes)).result = .ok parsed ∧
      let parse := g.parse (.filled role start bytes)
      let checks := parse.state.checks g.recognizes parsed options.margin
      let mark := checks.state.markErrors options.markErrors
      parse.state.Held ∧ checks.state.Held ∧
      parse.state.Raises (parse.state.Flawed g.recognizes parsed) checks ∧
      g.live (.opened role start) bytes options =
        ⟨checks.state, parse.reports ++ (checks.reports ++ mark.reports), .ok ()⟩ := by
  obtain ⟨parsed, hp⟩ := hg.parse_ok (.filled role start bytes)
  obtain ⟨held, held', spec, close⟩ := g.close_eq_stages options (Frame.held_filled role start h) hp
  exact ⟨parsed, hp, held, held', spec, (hg.live_eq _ bytes options).trans close⟩

theorem Lawful.live_spec {g : Grammar} (hg : g.Lawful) (role : Role) (start : Time) {bytes : List Byte}
    (h : bytes ≠ []) (options : CloseOptions) :
    let f := Frame.filled role start bytes
    let o := g.live (.opened role start) bytes options
    o.result = .ok () ∧ ∃ parsed, (g.parse f).result = .ok parsed ∧
      (o.state.hasError = false ↔
        (g.parse f).state.hasError = false ∧ ¬ (g.parse f).state.Flawed g.recognizes parsed) := by
  intro f o
  obtain ⟨parsed, hp, -, -, spec, live⟩ := hg.live_eq_stages role start h options
  refine ⟨congrArg Outcome.result live, parsed, hp, ?_⟩
  rw [show o.state = _ from congrArg Outcome.state live]
  exact spec.hasError_eq_false

theorem flawed_of_tiny (g : Grammar) {f : Frame} (h4 : Limits.minFrameLength ≤ f.minimumLength)
    (hl : f.length < Limits.minFrameLength) (parsed : Progress) :
    (g.parse f).state.Flawed g.recognizes parsed := by
  have hmin := (g.evolves_parse f).minimumLength
  have hlen := (g.evolves_parse f).length
  refine Or.inr (Or.inr (Or.inl ⟨?_, ?_⟩))
  · rw [hlen]
    exact Nat.le_trans (Nat.le_of_lt hl) (by decide)
  · rw [hlen]
    exact Nat.lt_of_lt_of_le hl (Nat.le_trans h4 hmin)

theorem flawed_of_unknown (g : Grammar) {f : Frame} {role : Role}
    (hu : g.recognizes (f.values.byte 1) = false) (hp : g.plan f.values = framePlan role none f.values)
    (hc : f.covered = 0) (hl : Limits.minFrameLength ≤ f.length) (parsed : Progress) :
    (g.parse f).state.Flawed g.recognizes parsed := by
  have hl4 : 4 ≤ f.length := hl
  have hlen := (g.evolves_parse f).length
  have hvalues := (g.evolves_parse f).values
  -- all that is covered is the server id, so there is something left for closing to report
  have hcov : (g.parse f).state.covered = 1 := by
    obtain ⟨first, -, parse⟩ := parse_of_unknown hp hc hl
    rw [parse]
    rfl
  refine Or.inl ⟨hlen ▸ hl, hvalues ▸ hu, ?_⟩
  rw [hcov, hlen]
  exact Nat.lt_of_lt_of_le (by decide) hl4

theorem known_of_not_flawed (g : Grammar) {f : Frame} {role : Role}
    (h4 : Limits.minFrameLength ≤ f.minimumLength)
    (hp : g.recognizes (f.values.byte 1) = false → g.plan f.values = framePlan role none f.values)
    (hc : f.covered = 0) {parsed : Progress} (sound : ¬ (g.parse f).state.Flawed g.recognizes parsed) :
    Limits.minFrameLength ≤ f.length ∧ g.recognizes (f.values.byte 1) = true := by
  have hl : Limits.minFrameLength ≤ f.length :=
    Nat.not_lt.mp fun tiny => sound (g.flawed_of_tiny h4 tiny parsed)
  refine ⟨hl, eq_true_of_ne_false fun unknown => ?_⟩
  exact sound (g.flawed_of_unknown unknown (hp unknown) hc hl parsed)

theorem not_unknown_parse (g : Grammar) {f : Frame} (known : g.recognizes (f.values.byte 1) = true) :
    ¬ (g.parse f).state.Unknown g.recognizes := by
  rintro ⟨-, unknown, -⟩
  rw [(g.evolves_parse f).values, known] at unknown
  cases unknown

theorem not_flawed_iff (g : Grammar) {f : Frame} {total : Nat} (laid : Laid total 0 4 (g.plan f.values))
    (hk : g.recognizes (f.values.byte 1) = true) (hc : f.covered = 0) (hm : f.minimumLength = 4)
    {parsed : Progress} (hp : (g.parse f).result = .ok parsed) :
    ¬ (g.parse f).state.Flawed g.recognizes parsed ↔
      f.length = total ∧ f.length ≤ Limits.maxFrameLength := by
  have hlen := (g.evolves_parse f).length
  have known := g.not_unknown_parse hk
  by_cases hl : f.length < total
  · obtain ⟨-, hshort⟩ := laid.sweep_short f (Nat.le_of_eq hm.symm) hl
    rw [← parse_eq_sweep] at hshort
    refine iff_of_false (fun h => h ?_) (fun h => Nat.ne_of_lt hl h.1)
    by_cases hmax : Limits.maxFrameLength < f.length
    · exact Or.inr (Or.inl (hlen ▸ hmax))
    · exact Or.inr (Or.inr (Or.inl ⟨hlen ▸ Nat.not_lt.mp hmax, hlen ▸ hshort⟩))
  · obtain ⟨hr, hcov, hmin, -⟩ := laid.sweep_long f (Nat.le_of_eq hc) hm (Nat.not_lt.mp hl)
    rw [← parse_eq_sweep] at hr hcov hmin
    have settled : parsed = .settled := Except.ok.inj (hp.symm.trans hr)
    simp only [Frame.Flawed, known, false_or, Frame.Short, hlen, hmin, hcov, settled, true_and, hl,
      and_false]
    omega

/-- A known function is in order exactly if the frame has the length that it declares and its fields are
in order. -/
theorem parse_known (g : Grammar) {f : Frame} {total : Nat} (laid : Laid total 0 4 (g.plan f.values))
    (hk : g.recognizes (f.values.byte 1) = true) (hc : f.covered = 0) (hm : f.minimumLength = 4)
    (he : f.hasError = false) {parsed : Progress} (hp : (g.parse f).result = .ok parsed) :
    (g.parse f).state.hasError = false ∧ ¬ (g.parse f).state.Flawed g.recognizes parsed ↔
      f.length = total ∧ f.length ≤ Limits.maxFrameLength ∧ (g.plan f.values).Accepts f.values := by
  rw [g.not_flawed_iff laid hk hc hm hp, and_comm, and_assoc]
  refine and_congr_right fun htotal => and_congr_right fun _ => ?_
  have herr := (laid.sweep_long f (Nat.le_of_eq hc) hm (Nat.le_of_eq htotal.symm)).hasError
  rw [← parse_eq_sweep] at herr
  exact herr.trans (and_iff_right he)

section Verdict

variable {g : Grammar} {role : Role} {bytes : List Byte} {v : Bytes}

theorem Lawful.live_unknown (hg : g.Lawful) (start : Time) (h : bytes ≠ []) (options : CloseOptions)
    (hv : v = bytes.map Byte.value) (plan : g.plan v = framePlan role none v)
    (unknown : g.recognizes (v.byte 1) = false) :
    (g.live (.opened role start) bytes options).state.hasError ≠ false := by
  obtain ⟨-, parsed, -, he⟩ := hg.live_spec role start h options
  obtain rfl := hv.trans (Frame.values_filled role start bytes).symm
  intro clean
  obtain ⟨-, sound⟩ := he.mp clean
  obtain ⟨-, known⟩ := g.known_of_not_flawed (Nat.le_refl _) (fun _ => plan) rfl sound
  rw [unknown] at known
  cases known

theorem Lawful.live_known (hg : g.Lawful) (start : Time) (h : bytes ≠ []) (options : CloseOptions)
    (hv : v = bytes.map Byte.value) {said : Note} {p : Plan} {total : Nat}
    (plan : g.plan v = framePlan role (some (.ok said, p)) v) (known : g.recognizes (v.byte 1) = true)
    (hs : said.isError = false) (laid : Laid total 2 4 p) :
    (g.live (.opened role start) bytes options).state.hasError = false ↔
      v.length = total ∧ v.length ≤ Limits.maxFrameLength ∧
        (Note.serverId role (v.byte 0)).accepted = true ∧ p.Accepts v := by
  obtain ⟨-, parsed, hp, he⟩ := hg.live_spec role start h options
  obtain rfl := hv.trans (Frame.values_filled role start bytes).symm
  have whole : Laid total 0 4 (g.plan (Frame.filled role start bytes).values) := by
    rw [plan]
    exact laid_framePlan role laid
  rw [he, g.parse_known whole known rfl rfl rfl hp, plan, accepts_framePlan role hs, Frame.length_values]

end Verdict

end Grammar

end ModbusRtu
