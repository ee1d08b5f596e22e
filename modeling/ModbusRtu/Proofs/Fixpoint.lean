import ModbusRtu.Proofs.Pass

/-! The end of the passes. A pass that reports moves the cursor, and never past the bytes received, so there are
at most as many reports as bytes not covered before, and then a pass that reports nothing. That pass has also
required all it can of the frame: another one finds it just as it was left. -/

namespace ModbusRtu

open Item

theorem Plan.run_sweep {p : Plan} (hs : p.Sound) {f : Frame} {progress : Progress}
    (h : (p.sweep f).result = .ok progress) : p.run (p.sweep f).state = .done (p.sweep f).state progress := by
  induction p generalizing f with
  | nil =>
    obtain rfl := Except.ok.inj h
    rfl
  | cons item rest ih =>
    obtain ⟨hi, hrest⟩ := sound_cons.mp hs
    by_cases hw : item.Waits f.length
    · -- what the item requires is required already, so waiting again changes nothing
      rw [sweep_cons_of_waits rest hw] at h ⊢
      obtain rfl := Except.ok.inj h
      have again : item.Waits (f.require item.demand).length := hw
      refine (run_cons_of_waits rest again).trans ?_
      rw [Frame.require_require, Nat.max_self]
      rfl
    · obtain ⟨hstate, hresult⟩ := sweep_cons_state_result rest hi hw
      obtain ⟨told, hr⟩ := apply_ok hi f
      have passed := passed_of_apply hr fun waiting => not_waiting hw (waiting ▸ hr)
      have behind := passed.of_grows (evolves_sweep rest (item.apply f).state).grows
      rw [hresult] at h
      rw [hstate, run_cons_of_passed rest behind]
      exact ih hrest h

namespace Grammar

/-- Passes over a frame, one after the other, until one does not report. The number is that of the passes before
that one. -/
inductive Repeats (g : Grammar) : Nat → Frame → Outcome Frame Progress → Prop
  | last {f : Frame} (h : (g.pass f).result ≠ .ok .reported) : Repeats g 0 f (g.pass f)
  | again {passes : Nat} {f : Frame} {o : Outcome Frame Progress} (h : (g.pass f).result = .ok .reported)
      (rest : Repeats g passes (g.pass f).state o) :
      Repeats g (passes + 1) f ⟨o.state, (g.pass f).reports ++ o.reports, o.result⟩

variable {g : Grammar}

theorem Repeats.length_reports {passes : Nat} {f : Frame} {o : Outcome Frame Progress}
    (h : g.Repeats passes f o) : o.reports.length = passes := by
  induction h with
  | @last f h => rw [((g.reportsOnce_pass f).quiet h).1, List.length_nil]
  | @again passes f o h rest ih =>
    rw [List.length_append, (g.reportsOnce_pass f).reported_iff.mp h, ih, Nat.add_comm]

theorem repeats_passes (g : Grammar) (n : Nat) (f : Frame) (h : f.length - f.covered ≤ n) :
    ∃ passes ≤ f.length - f.covered, g.Repeats passes f (g.passes n f) := by
  induction n generalizing f with
  | zero =>
    -- the bound is used up only when all bytes are covered, and then no pass reports
    refine ⟨0, Nat.zero_le _, .last fun hr => ?_⟩
    have moved := ((g.plan f.values).walked_run f).covered hr
    omega
  | succ n ih =>
    by_cases hr : (g.pass f).result = .ok .reported
    · have moved := ((g.plan f.values).walked_run f).covered hr
      have length : (g.pass f).state.length = f.length := ((g.plan f.values).evolves_run f).length
      have covered : f.covered < (g.pass f).state.covered := moved.1
      obtain ⟨passes, hp, rest⟩ := ih (g.pass f).state (by omega)
      rw [Grammar.passes, Outcome.andThen_eq_of_ok hr]
      exact ⟨passes + 1, by omega, .again hr rest⟩
    · rw [passes_of_quiet hr]
      exact ⟨0, Nat.zero_le _, .last hr⟩

theorem Lawful.pass_parse (hg : g.Lawful) {f : Frame} {progress : Progress}
    (h : (g.parse f).result = .ok progress) : g.pass (g.parse f).state = .done (g.parse f).state progress := by
  have values := (g.evolves_parse f).values
  rw [parse_eq_sweep] at h values ⊢
  rw [pass, Frame.follow, values]
  exact Plan.run_sweep (hg.sound f.values) h

end Grammar

/-- A parse of a frame, whatever was made of it before, takes as many passes as it makes reports, at most one
for each byte not covered, and one more that makes none. Then a pass comes to the same, makes no report and
leaves the frame as it is. -/
theorem parse_settles (role : Role) (n : Nat) (f : Frame) :
    let g := role.grammar n
    let o := g.parse f
    (g.Repeats o.reports.length f o ∧ o.reports.length ≤ f.length - f.covered) ∧
    ∃ progress, o.result = .ok progress ∧ progress ≠ .reported ∧ g.pass o.state = .done o.state progress := by
  intro g o
  have hg : g.Lawful := role.lawful_grammar n
  obtain ⟨passes, bound, repeats⟩ := g.repeats_passes _ f (Nat.le_refl _)
  have count : o.reports.length = passes := repeats.length_reports
  obtain ⟨progress, hr⟩ := hg.parse_ok f
  have settled := hg.pass_parse hr
  refine ⟨⟨count ▸ repeats, count ▸ bound⟩, progress, hr, ?_, settled⟩
  rintro rfl
  have one := (g.reportsOnce_pass o.state).reported_iff.mp (congrArg Outcome.result settled)
  rw [settled] at one
  cases one

end ModbusRtu
