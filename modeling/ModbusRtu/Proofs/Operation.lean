import Mathlib.Data.List.Induction
import ModbusRtu.Proofs.Separation

/-! Frames under any use. Whoever has a frame may append bytes, require a length, report bytes, check a trailer
and run plans over it, in any order and with any bounds, and go on after a fault. What holds of a frame however
it came about is that the reports made on the way are those of the bytes it has now: they cover the bytes
before the cursor, each once and in order, and the frame keeps book of the errors among them. -/

namespace ModbusRtu

inductive Operation
  | append (b : Byte)
  | require (length : Nat)
  /-- A report that is made only if it is new. Wording it may fail. -/
  | report (last : Nat) (note : Except Fault Note)
  | checkTrailer (last : Nat)
  | follow (plan : Bytes → Plan)
  | parse (g : Grammar)

theorem Report.Fits.append {bytes : List Byte} {r : Report} (h : r.Fits bytes) (more : List Byte) :
    r.Fits (bytes ++ more) := by
  intro first last hcovers
  obtain ⟨hle, head, final, hhead, hfinal, ends⟩ := h first last hcovers
  have arrived {i : Nat} {b : Byte} (hb : bytes[i]? = some b) : (bytes ++ more)[i]? = some b := by
    rw [List.getElem?_append_left (List.getElem?_eq_some_iff.mp hb).1, hb]
  exact ⟨hle, head, final, arrived hhead, arrived hfinal, ends⟩

namespace Frame

def operate (f : Frame) : Operation → Outcome Frame Progress
  | .append b => .done (f.append b) .settled
  | .require length => .done (f.require length) .settled
  | .report last note => f.reportIfNew last note
  | .checkTrailer last => f.checkTrailer last
  | .follow plan => f.follow plan
  | .parse g => g.parse f

/-- One more operation after `o`, whether or not it succeeds. -/
def proceed (o : Outcome Frame Unit) (op : Operation) : Outcome Frame Unit :=
  ⟨(o.state.operate op).state, o.reports ++ (o.state.operate op).reports, .ok ()⟩

/-- What became of a new frame, and all that was reported of it. -/
def history (role : Role) (start : Time) (ops : List Operation) : Outcome Frame Unit :=
  ops.foldl proceed (.done (.opened role start) ())

theorem history_induction {P : Outcome Frame Unit → Prop} {role : Role} {start : Time} (ops : List Operation)
    (opened : P (.done (.opened role start) ())) (step : ∀ o op, P o → P (proceed o op)) :
    P (history role start ops) := by
  have fromOutcome (o : Outcome Frame Unit) (h : P o) : P (ops.foldl proceed o) := by
    induction ops generalizing o with
    | nil => exact h
    | cons op ops ih => exact ih _ (step o op h)
  exact fromOutcome _ opened

theorem Evolves.extend {α : Type} {f : Frame} {o : Outcome Frame α} (h : Evolves f o)
    (hc : f.covered ≤ f.length) (more : List Byte) :
    Evolves (f.extend more) (o.mapState (·.extend more)) where
  role := h.role
  bytes := congrArg (· ++ more) h.bytes
  start := h.start
  lastRead := by simp only [Outcome.mapState, Frame.extend, h.lastRead]
  minimumLength := h.minimumLength
  covered := h.covered
  within _ := Nat.le_trans (h.within hc) (grows_extend f more).length
  reports := h.reports
  fits r hr := (h.fits r hr).append more
  indexes := h.indexes
  hasError := h.hasError
  errorRanges := h.errorRanges

theorem filled_append (role : Role) (start : Time) (bytes : List Byte) (b : Byte) :
    filled role start (bytes ++ [b]) = (filled role start bytes).extend [b] :=
  extend_append _ _ _

theorem evolves_operate (f : Frame) {op : Operation} (h : ∀ b, op ≠ .append b) :
    f.Evolves (f.operate op) := by
  cases op with
  | append b => exact absurd rfl (h b)
  | require length => exact .of_require (.done (f.require length) _)
  | report last note => exact evolves_reportIfNew f last note
  | checkTrailer last => exact (Item.trailer last).evolves_apply f
  | follow plan => exact (plan f.values).evolves_run f
  | parse g => exact g.evolves_parse f

theorem tied_operate (f : Frame) (op : Operation) : ∀ r ∈ (f.operate op).reports, r.covers.isSome := by
  have anything (item : Item) : item.Says fun _ _ => True := by
    cases item with
    | field last note => exact fun _ _ => trivial
    | trailer last => exact ⟨trivial, fun _ => trivial⟩
    | _ => trivial
  have tied {r : Report} (h : ∃ first last, r.covers = some (first, last) ∧ True) : r.covers.isSome := by
    obtain ⟨first, last, covers, -⟩ := h
    exact covers ▸ rfl
  cases op with
  | append b => exact List.forall_mem_nil _
  | require length => exact List.forall_mem_nil _
  | report last note => exact fun r hr => tied (Item.mem_apply (anything (.field last note)) f r hr)
  | checkTrailer last => exact fun r hr => tied (Item.mem_apply (anything (.trailer last)) f r hr)
  | follow plan => exact fun r hr => tied (Plan.mem_run (fun item _ => anything item) f r hr)
  | parse g =>
    rw [operate, Grammar.parse_eq_sweep]
    exact fun r hr => tied (Plan.mem_sweep (fun item _ => anything item) f r hr)

theorem tied_history (role : Role) (start : Time) (ops : List Operation) :
    ∀ r ∈ (history role start ops).reports, r.covers.isSome := by
  refine history_induction (P := fun o => ∀ r ∈ o.reports, r.covers.isSome) ops (List.forall_mem_nil _) ?_
  exact fun o op h => List.forall_mem_append.mpr ⟨h, tied_operate o.state op⟩

theorem evolves_proceed {role : Role} {start : Time} {o : Outcome Frame Unit}
    (h : (filled role start o.state.bytes).Evolves o) (op : Operation) :
    (filled role start (proceed o op).state.bytes).Evolves (proceed o op) := by
  -- only an arrival changes the bytes that the past is compared with
  by_cases arrival : ∃ b, op = .append b
  · obtain ⟨b, rfl⟩ := arrival
    have more := h.extend (Nat.zero_le _) [b]
    rw [← filled_append] at more
    have same : proceed o (.append b) = ⟨o.state.extend [b], o.reports, .ok ()⟩ := by
      rw [proceed, operate, Outcome.done, List.append_nil]
      rfl
    rw [same]
    exact { more with }
  · have next := evolves_operate o.state fun b hb => arrival ⟨b, hb⟩
    have both := h.trans next
    rw [show (proceed o op).state.bytes = o.state.bytes from next.bytes]
    exact { both with }

/-- What was reported of a frame, it might have reported of all its bytes at once. -/
theorem evolves_history (role : Role) (start : Time) (ops : List Operation) :
    (filled role start (history role start ops).state.bytes).Evolves (history role start ops) :=
  history_induction (P := fun o => (filled role start o.state.bytes).Evolves o) ops
    (.done (opened role start) ()) fun _ op h => evolves_proceed h op

section Evolves

variable {α : Type} {role : Role} {start : Time} {bytes : List Byte} {o : Outcome Frame α}

theorem Evolves.indexes_filled (h : (filled role start bytes).Evolves o) :
    o.reports.flatMap Report.indexes = List.range o.state.covered :=
  h.indexes.trans List.range_eq_range'.symm

theorem Evolves.errorCovers_iff (h : (filled role start bytes).Evolves o) {index : Nat} :
    o.state.errorCovers index = true ↔ ∃ r ∈ o.reports, r.note.isError = true ∧ index ∈ r.indexes := by
  rw [errorCovers, h.errorRanges, List.any_eq_true]
  constructor
  · rintro ⟨⟨first, last⟩, hmem, within⟩
    obtain ⟨r, hr, covers⟩ := List.mem_filterMap.mp hmem
    obtain ⟨hr, error⟩ := List.mem_filter.mp hr
    rw [Bool.and_eq_true, decide_eq_true_eq, decide_eq_true_eq] at within
    exact ⟨r, hr, error, (Report.mem_indexes covers).mpr within⟩
  · rintro ⟨r, hr, error, hindex⟩
    obtain ⟨⟨first, last⟩, covers⟩ : ∃ range, r.covers = some range := by
      cases hc : r.covers with
      | none =>
        rw [Report.indexes, hc] at hindex
        cases hindex
      | some range => exact ⟨range, rfl⟩
    refine ⟨(first, last), List.mem_filterMap.mpr ⟨r, List.mem_filter.mpr ⟨hr, error⟩, covers⟩, ?_⟩
    rw [Bool.and_eq_true, decide_eq_true_eq, decide_eq_true_eq]
    exact (Report.mem_indexes covers).mp hindex

end Evolves

end Frame

end ModbusRtu
