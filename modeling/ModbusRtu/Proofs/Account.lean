import Mathlib.Order.Bounds.Defs
import ModbusRtu.Proofs.Extent
import ModbusRtu.Proofs.Marking
import ModbusRtu.Proofs.Operation
import ModbusRtu.Proofs.Pass

/-! The account that a frame gives of itself. Under any use, the parser's own and that of others, faults included,
what a frame says of its bytes, its times and its errors is what was received and reported. It never takes
anything back, and an operation that fails does nothing but, maybe, raise the length that the frame needs. -/

namespace ModbusRtu

theorem Time.later_eq_or (t u : Time) : t.later u = t ∨ t.later u = u := by
  unfold later
  split
  · exact Or.inr rfl
  · exact Or.inl rfl

namespace Frame

theorem isGreatest_foldl_later (start : Time) (bytes : List Byte) :
    IsGreatest {time | time = start ∨ ∃ b ∈ bytes, time = b.stop}
      (bytes.foldl (fun time b => time.later b.stop) start) := by
  constructor
  · induction bytes generalizing start with
    | nil => exact Or.inl rfl
    | cons b rest ih =>
      rcases ih (start.later b.stop) with earlier | ⟨c, hc, hstop⟩
      · rcases start.later_eq_or b.stop with same | later
        · exact Or.inl (earlier.trans same)
        · exact Or.inr ⟨b, List.mem_cons_self, earlier.trans later⟩
      · exact Or.inr ⟨c, List.mem_cons_of_mem b hc, hstop⟩
  · obtain ⟨hstart, hbytes⟩ := le_foldl_later start bytes
    rintro time (rfl | ⟨b, hb, rfl⟩)
    · exact hstart
    · exact hbytes b hb

/-- What a frame says of itself agrees with its bytes and with all that was reported of it. -/
structure Accounts (start : Time) (past : Outcome Frame Unit) : Prop where
  minimumLength : Limits.minFrameLength ≤ past.state.minimumLength
  lastCovered : ∀ last, past.state.lastCovered? = some last →
    past.state.covered = last + 1 ∧ last < past.state.length
  lastRead : IsGreatest {time | time = start ∨ ∃ b ∈ past.state.bytes, time = b.stop} past.state.lastRead
  covers : ∀ r ∈ past.reports, ∃ first last, r.covers = some (first, last) ∧ first ≤ last
  indexes : past.reports.flatMap Report.indexes = List.range past.state.covered
  errorCovers : ∀ index, past.state.errorCovers index = true ↔
    ∃ r ∈ past.reports, r.span.category = .error ∧ index ∈ r.indexes
  hasError : past.state.hasError = true ↔ ∃ r ∈ past.reports, r.span.category = .error

theorem Evolves.accounts {role : Role} {start : Time} {past : Outcome Frame Unit}
    (h : (filled role start past.state.bytes).Evolves past) (tied : ∀ r ∈ past.reports, r.covers.isSome) :
    Accounts start past where
  minimumLength := h.minimumLength
  lastCovered last hlast := by
    have within : past.state.covered ≤ past.state.length := h.length ▸ h.within (Nat.zero_le _)
    unfold lastCovered? at hlast
    split at hlast
    · cases hlast
    · have one : past.state.covered - 1 = last := Option.some.inj hlast
      omega
  lastRead := h.lastRead ▸ isGreatest_foldl_later start past.state.bytes
  covers r hr := by
    obtain ⟨⟨first, last⟩, covers⟩ := Option.isSome_iff_exists.mp (tied r hr)
    exact ⟨first, last, covers, (h.fits r hr first last covers).1⟩
  indexes := h.indexes_filled
  errorCovers index := by
    simp only [Report.category_span_eq_error]
    exact h.errorCovers_iff
  hasError := by rw [h.hasError_filled, any_isError_iff]

theorem grows_operate (f : Frame) (op : Operation) : f.Grows (f.operate op).state := by
  by_cases arrival : ∃ b, op = .append b
  · obtain ⟨b, rfl⟩ := arrival
    exact grows_extend f [b]
  · exact (evolves_operate f fun b hb => arrival ⟨b, hb⟩).grows

theorem grows_history (role : Role) (start : Time) (ops more : List Operation) :
    (history role start ops).state.Grows (history role start (ops ++ more)).state := by
  have fromOutcome (o : Outcome Frame Unit) : o.state.Grows (more.foldl proceed o).state := by
    induction more generalizing o with
    | nil => exact .refl _
    | cons op more ih => exact (grows_operate o.state op).trans (ih (proceed o op))
  rw [history, history, List.foldl_append]
  exact fromOutcome _

/-- A parse could fail after a report, but not with a grammar that is lawful. -/
theorem unchanged_of_fault {f : Frame} {op : Operation} (lawful : ∀ g, op = .parse g → g.Lawful)
    {fault : Fault} (h : (f.operate op).result = .error fault) :
    (f.operate op).reports = [] ∧ ∃ length, (f.operate op).state = f.require length := by
  have failed {o : Outcome Frame Progress} (walked : f.Walked o) (h : o.result = .error fault) :
      o.reports = [] ∧ ∃ length, o.state = f.require length := by
    refine walked.reportsOnce.quiet fun hr => ?_
    cases h.symm.trans hr
  cases op with
  | append b => cases h
  | require length => cases h
  | report last note => exact failed ((Item.field last note).walked_apply f) h
  | checkTrailer last => exact failed ((Item.trailer last).walked_apply f) h
  | follow plan => exact failed ((plan f.values).walked_run f) h
  | parse g =>
    obtain ⟨progress, hr⟩ := (lawful g rfl).parse_ok f
    cases h.symm.trans hr

end Frame

/-- A frame gives a true account of itself after any operations, passes and layouts of any grammar among them. All
it has is kept by later operations, and one that fails reports nothing and changes nothing but the length that
the frame needs. -/
theorem history_accounts (role : Role) (start : Time) (ops : List Operation) :
    let past := Frame.history role start ops
    Frame.Accounts start past ∧
    (∀ more, past.state.Grows (Frame.history role start (ops ++ more)).state) ∧
    ∀ op : Operation, (∀ g, op = .parse g → g.Lawful) → ∀ fault, (past.state.operate op).result = .error fault →
      (past.state.operate op).reports = [] ∧ ∃ length, (past.state.operate op).state = past.state.require length := by
  intro past
  have evolves := Frame.evolves_history role start ops
  exact ⟨evolves.accounts (Frame.tied_history role start ops), Frame.grows_history role start ops,
    fun _ lawful _ failed => Frame.unchanged_of_fault lawful failed⟩

/-- Three bytes of a query, the first two of them reported as noise. Then a text cannot be made, the frame is read
as an exception, and a check sum is looked for where there is none. -/
theorem history_accounts_noise :
    let ops : List Operation := [.append ⟨0x11, 10, 18⟩, .append ⟨0x03, 20, 40⟩, .append ⟨0x00, 30, 38⟩,
      .report 1 (.ok (.other .error "Noise")), .report 2 (.error (.raised "no text")),
      .follow (ResponseLayout.plan 2 .exception), .require 9]
    let past := Frame.history .request 5 ops
    let op := Operation.checkTrailer 2
    ((∀ g, op = .parse g → g.Lawful) ∧ (past.state.operate op).result = .error .shortChecksum) ∧
      (past.state.operate op).reports = [] ∧
      (∃ r ∈ past.reports, r.span.category = .error ∧ 1 ∈ r.indexes) ∧
      past.reports.flatMap Report.indexes = [0, 1] ∧
      past.state.Grows (Frame.history .request 5 (ops ++ [op, .append ⟨0x6B, 40, 48⟩])).state := by
  intro ops past op
  obtain ⟨account, grows, fault⟩ := history_accounts .request 5 ops
  have lawful : ∀ g, op = .parse g → g.Lawful := nofun
  have failed : (past.state.operate op).result = .error .shortChecksum := rfl
  have covered : past.state.errorCovers 1 = true := rfl
  exact ⟨⟨lawful, failed⟩, (fault op lawful _ failed).1, (account.errorCovers 1).mp covered, account.indexes,
    grows [op, .append ⟨0x6B, 40, 48⟩]⟩

end ModbusRtu
