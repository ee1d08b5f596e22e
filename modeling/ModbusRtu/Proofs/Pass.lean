import ModbusRtu.Proofs.Lawful

/-! One pass over a frame. A run of a plan ends with its first report, and what it reports begins at the cursor
and ends with a byte that has come. So a pass makes one report and moves the cursor, or it makes none, and then
it can only have raised the length that the frame needs. No pass fails. Of the layouts only that of exceptions
can, and it does so on frames that announce none. -/

namespace ModbusRtu

open Item

namespace Frame

/-- At most one report is made. If there is one, it begins at the cursor, which goes behind its last byte. If
there is none, the frame is as before, but for the length it needs, which may have grown. -/
structure ReportsOnce (f : Frame) (o : Outcome Frame Progress) : Prop where
  reported_iff : o.result = .ok .reported ↔ o.reports.length = 1
  begins : o.result = .ok .reported → ∃ r last, o.reports = [r] ∧ r.covers = some (f.covered, last) ∧
    r.Fits f.bytes ∧ o.state.covered = last + 1 ∧ f.covered < o.state.covered ∧ o.state.covered ≤ f.length
  quiet : o.result ≠ .ok .reported → o.reports = [] ∧ ∃ length, o.state = f.require length

theorem Walked.reportsOnce {f : Frame} {o : Outcome Frame Progress} (h : f.Walked o) : f.ReportsOnce o := by
  cases h with
  | quiet length h =>
    refine ⟨iff_of_false h nofun, fun hr => absurd hr h, fun _ => ⟨rfl, length, rfl⟩⟩
  | @reported length note last hc hl =>
    have fits := (evolves_report (f := f.require length) note hc hl).fits
    obtain ⟨first, final, -, -, hr⟩ := report_of_due (f := f.require length) note hc hl
    rw [hr] at fits ⊢
    refine ⟨iff_of_true rfl rfl, fun _ => ?_, fun hn => absurd rfl hn⟩
    exact ⟨_, last, rfl, rfl, fits _ (List.mem_singleton_self _), rfl, Nat.lt_succ_of_le hc, hl⟩

theorem reportsOnce_follow (f : Frame) (plan : Bytes → Plan) : f.ReportsOnce (f.follow plan) :=
  ((plan f.values).walked_run f).reportsOnce

end Frame

namespace Plan

theorem run_ok {p : Plan} (h : p.Sound) (f : Frame) : ∃ progress, (p.run f).result = .ok progress := by
  induction p generalizing f with
  | nil => exact ⟨_, rfl⟩
  | cons item rest ih =>
    obtain ⟨hi, hrest⟩ := sound_cons.mp h
    obtain ⟨progress, hr⟩ := Item.apply_ok hi f
    simp only [run, Outcome.andThen_eq_of_ok hr]
    cases progress with
    | settled => exact ih hrest _
    | reported => exact ⟨_, rfl⟩
    | waiting => exact ⟨_, rfl⟩

end Plan

theorem Grammar.reportsOnce_pass (g : Grammar) (f : Frame) : f.ReportsOnce (g.pass f) :=
  f.reportsOnce_follow g.plan

theorem Grammar.Lawful.pass_ok {g : Grammar} (hg : g.Lawful) (f : Frame) :
    ∃ progress, (g.pass f).result = .ok progress :=
  Plan.run_ok (hg.sound f.values) f

namespace ResponseLayout

/-- The layout of exceptions fails as soon as it sees that there is none. -/
theorem exceptionPlan_fails_iff (f : Frame) (fault : Fault) :
    (f.follow exceptionPlan).result = .error fault ↔
      fault = .regularFunction ∧ 3 ≤ f.length ∧ FunctionCode.ofException? (f.values.byte 1) = none := by
  cases announced : FunctionCode.ofException? (f.values.byte 1) with
  | some function =>
    have laid : Plan.Laid 5 2 4 (exceptionPlan f.values) := by
      rw [exceptionPlan_of_announced announced]
      exact .require 5 (.await (by omega) (.field _ (by omega) (.trailer (by omega))))
    obtain ⟨progress, hr⟩ := Plan.run_ok laid.sound f
    refine iff_of_false (fun failed => ?_) fun failed => Option.some_ne_none function failed.2.2
    cases hr.symm.trans failed
  | none =>
    have plan : exceptionPlan f.values = [.require 5, .await 2, .broken .regularFunction] := by
      simp only [exceptionPlan, ExceptionReply.ofBytes, announced, List.cons_append, List.nil_append]
    rw [Frame.follow, plan]
    show (Plan.run [await 2, broken .regularFunction] (f.require 5)).result = .error fault ↔ _
    by_cases h3 : 3 ≤ f.length
    · have passed : Passed (f.require 5) (await 2) := h3
      rw [Plan.run_cons_of_passed _ passed]
      show Except.error Fault.regularFunction = .error fault ↔ _
      rw [Except.error.injEq, eq_comm]
      exact (and_iff_left ⟨h3, rfl⟩).symm
    · have waits : (await 2).Waits (f.require 5).length := Nat.le_of_lt_succ (Nat.not_le.mp h3)
      rw [Plan.run_cons_of_waits _ waits]
      refine iff_of_false (fun failed => ?_) fun failed => h3 failed.2.1
      cases failed

end ResponseLayout

/-- One pass over a frame, whatever was made of it before, makes at most one report, and so does following any
one layout. Passes and requests cannot fail, and a reply can only if it is read as an exception and is none. -/
theorem pass_reports_once (role : Role) (n : Nat) (f : Frame) :
    (f.ReportsOnce ((role.grammar n).pass f) ∧ ∃ progress, ((role.grammar n).pass f).result = .ok progress) ∧
    (∀ layout : RequestLayout, f.ReportsOnce (f.follow (layout.plan n)) ∧
      ∃ progress, (f.follow (layout.plan n)).result = .ok progress) ∧
    ∀ layout : ResponseLayout, f.ReportsOnce (f.follow (layout.plan n)) ∧
      ∀ fault, (f.follow (layout.plan n)).result = .error fault ↔ layout = .exception ∧
        fault = .regularFunction ∧ 3 ≤ f.length ∧ FunctionCode.ofException? (f.values.byte 1) = none := by
  refine ⟨⟨(role.grammar n).reportsOnce_pass f, (role.lawful_grammar n).pass_ok f⟩,
    fun layout => ⟨f.reportsOnce_follow _, ?_⟩, fun layout => ⟨f.reportsOnce_follow _, fun fault => ?_⟩⟩
  · exact Plan.run_ok (layout.laid_plan n f.values).sound f
  · by_cases announced : layout = .exception
    · subst announced
      exact (ResponseLayout.exceptionPlan_fails_iff f fault).trans (and_iff_right rfl).symm
    · obtain ⟨progress, hr⟩ := Plan.run_ok (ResponseLayout.laid_regular n announced f.values).sound f
      refine iff_of_false (fun failed => ?_) fun failed => announced failed.1
      cases hr.symm.trans failed

end ModbusRtu
