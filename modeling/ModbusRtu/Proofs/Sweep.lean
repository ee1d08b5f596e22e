import ModbusRtu.Proofs.Growth

/-! A parse as one sweep. Each pass of a parse starts over at the server id and ends at the first report.
What the passes before it got past is behind the cursor, so the whole parse comes to a single walk over
the plan that goes on after each report and stops where a field has to wait. -/

namespace ModbusRtu

open Item

namespace Plan

def sweep : Plan → Frame → Outcome Frame Progress
  | [], f => .done f .settled
  | item :: rest, f =>
    (item.apply f).andThen fun f progress =>
      match progress with
      | .waiting => .done f .waiting
      | _ => sweep rest f

/-- A run that stops short of a report stops the sweep; a run that reports is taken up by it. -/
def resume (p : Plan) (f : Frame) : Progress → Outcome Frame Progress
  | .reported => p.sweep f
  | stopped => .done f stopped

theorem sweep_cons_of_passed {item : Item} {f : Frame} (rest : Plan) (h : Passed f item) :
    sweep (item :: rest) f = sweep rest f := by
  rw [sweep, apply_of_passed h]
  rfl

theorem sweep_cons_of_waits {item : Item} {f : Frame} (rest : Plan) (h : item.Waits f.length) :
    sweep (item :: rest) f = .done (f.require item.demand) .waiting := by
  rw [sweep, apply_of_waits h]
  rfl

theorem run_cons_of_passed {item : Item} {f : Frame} (rest : Plan) (h : Passed f item) :
    run (item :: rest) f = run rest f := by
  rw [run, apply_of_passed h]
  rfl

theorem run_cons_of_waits {item : Item} {f : Frame} (rest : Plan) (h : item.Waits f.length) :
    run (item :: rest) f = .done (f.require item.demand) .waiting := by
  rw [run, apply_of_waits h]
  rfl

theorem walked_run (p : Plan) (f : Frame) : f.Walked (p.run f) := by
  induction p generalizing f with
  | nil => exact .still f nofun
  | cons item rest ih => exact (item.walked_apply f).andThen ih

theorem evolves_run (p : Plan) (f : Frame) : f.Evolves (p.run f) := (p.walked_run f).evolves

theorem evolves_sweep (p : Plan) (f : Frame) : f.Evolves (p.sweep f) := by
  induction p generalizing f with
  | nil => exact .done f _
  | cons item rest ih =>
    refine (item.evolves_apply f).andThen fun progress => ?_
    cases progress with
    | settled => exact ih _
    | reported => exact ih _
    | waiting => exact .done _ _

section Says

variable {P : Nat → Note → Prop} {p : Plan}

/-- What no item of the plan says, no run and no sweep of it says. -/
theorem mem_run (h : ∀ item ∈ p, item.Says P) (f : Frame) :
    ∀ r ∈ (p.run f).reports, ∃ first last, r.covers = some (first, last) ∧ P last r.note := by
  induction p generalizing f with
  | nil => exact List.forall_mem_nil _
  | cons item rest ih =>
    obtain ⟨hi, hrest⟩ := List.forall_mem_cons.mp h
    refine Outcome.forall_mem_andThen (mem_apply hi f) fun progress => ?_
    cases progress with
    | settled => exact ih hrest _
    | reported => exact List.forall_mem_nil _
    | waiting => exact List.forall_mem_nil _

theorem mem_sweep (h : ∀ item ∈ p, item.Says P) (f : Frame) :
    ∀ r ∈ (p.sweep f).reports, ∃ first last, r.covers = some (first, last) ∧ P last r.note := by
  induction p generalizing f with
  | nil => exact List.forall_mem_nil _
  | cons item rest ih =>
    obtain ⟨hi, hrest⟩ := List.forall_mem_cons.mp h
    refine Outcome.forall_mem_andThen (mem_apply hi f) fun progress => ?_
    cases progress with
    | settled => exact ih hrest _
    | reported => exact ih hrest _
    | waiting => exact List.forall_mem_nil _

end Says

theorem sweep_eq_run (p : Plan) (f : Frame) : p.sweep f = (p.run f).andThen p.resume := by
  induction p generalizing f with
  | nil => rfl
  | cons item rest ih =>
    rw [sweep, Plan.run, Outcome.andThen_assoc]
    apply Outcome.andThen_congr
    intro progress hr
    -- a later pass meets the item again and gets past it, so starting over and going on are the same
    have again {g : Frame} (hp : progress ≠ .waiting) (hg : Frame.Grows (item.apply f).state g) :
        sweep (item :: rest) g = sweep rest g :=
      sweep_cons_of_passed rest ((passed_of_apply hr hp).of_grows hg)
    cases progress with
    | settled =>
      refine (ih _).trans (Outcome.andThen_congr ?_)
      intro progress _
      cases progress with
      | settled => rfl
      | reported => exact (again (by decide) (evolves_run rest _).grows).symm
      | waiting => rfl
    | reported => exact (again (by decide) (.refl _)).symm
    | waiting => rfl

end Plan

namespace Grammar

/-- Only a report leads to another pass. -/
theorem passes_of_quiet {g : Grammar} {f : Frame} (h : (g.pass f).result ≠ .ok .reported) (n : Nat) :
    g.passes n f = g.pass f := by
  cases n with
  | zero => rfl
  | succ n =>
    refine (Outcome.andThen_congr fun progress hr => ?_).trans (Outcome.andThen_done _)
    cases progress with
    | settled => rfl
    | reported => exact absurd hr h
    | waiting => rfl

theorem passes_eq_sweep (g : Grammar) (n : Nat) (f : Frame) (h : f.length - f.covered ≤ n) :
    g.passes n f = (g.plan f.values).sweep f := by
  induction n generalizing f with
  | zero =>
    calc g.passes 0 f = ((g.plan f.values).run f).andThen .done := (Outcome.andThen_done _).symm
      _ = ((g.plan f.values).run f).andThen (Plan.resume (g.plan f.values)) := by
        apply Outcome.andThen_congr
        intro progress hr
        cases progress with
        | settled => rfl
        | reported =>
          have := ((g.plan f.values).walked_run f).covered hr
          omega
        | waiting => rfl
      _ = (g.plan f.values).sweep f := (Plan.sweep_eq_run _ f).symm
  | succ n ih =>
    rw [Plan.sweep_eq_run]
    apply Outcome.andThen_congr
    intro progress hr
    cases progress with
    | settled => rfl
    | reported =>
      have hc := ((g.plan f.values).walked_run f).covered hr
      have hl := ((g.plan f.values).evolves_run f).length
      have hv := ((g.plan f.values).evolves_run f).values
      have hn : ((g.plan f.values).run f).state.length - ((g.plan f.values).run f).state.covered ≤ n := by
        omega
      have := ih _ hn
      rw [hv] at this
      exact this
    | waiting => rfl

theorem parse_eq_sweep (g : Grammar) (f : Frame) : g.parse f = (g.plan f.values).sweep f :=
  passes_eq_sweep g _ f (Nat.le_refl _)

theorem evolves_parse (g : Grammar) (f : Frame) : f.Evolves (g.parse f) := by
  rw [parse_eq_sweep]
  exact Plan.evolves_sweep _ f

end Grammar

end ModbusRtu
