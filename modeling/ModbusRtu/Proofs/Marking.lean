import ModbusRtu.Proofs.Ledger
import ModbusRtu.Proofs.Separation

/-! The mark on frames that have errors. A frame knows whether anything that was reported on it is an error, so
the mark, which is the last thing said of a frame, is there exactly if there is something to mark. A new frame
knows of no error, whatever the one before it had. -/

namespace ModbusRtu

open ModbusRtu.Frame

theorem Report.category_span_eq_error {r : Report} : r.span.category = .error ↔ r.note.isError = true :=
  Note.isError_iff.symm

theorem any_isError_iff {reports : List Report} :
    reports.any (·.note.isError) = true ↔ ∃ r ∈ reports, r.span.category = .error := by
  simp only [List.any_eq_true, Report.category_span_eq_error]

theorem Frame.Evolves.hasError_filled {α : Type} {role : Role} {start : Time} {bytes : List Byte}
    {o : Outcome Frame α} (h : (filled role start bytes).Evolves o) :
    o.state.hasError = o.reports.any (·.note.isError) :=
  h.hasError.trans (Bool.false_or _)

theorem Grammar.Lawful.parse_close {g : Grammar} (hg : g.Lawful) (options : CloseOptions) (f : Frame) :
    ((g.parse f).andThen fun f _ => g.close options f) = g.close options f := by
  have again := hg.parse_extend f []
  simp only [Frame.extend_nil] at again
  simp only [close, ← Outcome.andThen_assoc, ← again]

/-- A new frame is closed with what its fields say, then with the errors on the frame as a whole, and at last
with the mark if one is wanted and anything said before is an error. -/
theorem Grammar.Lawful.close_marked {g : Grammar} (hg : g.Lawful) (options : CloseOptions) (role : Role)
    (start : Time) {bytes : List Byte} (h : bytes ≠ []) :
    ∃ first final errors, bytes.head? = some first ∧ bytes.getLast? = some final ∧
      (∀ r ∈ errors, r.note.isError = true) ∧
      let said := (g.parse (filled role start bytes)).reports ++ errors
      (g.close options (filled role start bytes)).reports = said ++
        if options.markErrors && said.any (·.note.isError) then
          [⟨role, .frameWithError, first.start, final.stop, none⟩]
        else [] := by
  obtain ⟨parsed, hp⟩ := hg.parse_ok (filled role start bytes)
  obtain ⟨-, held, raises, stages⟩ := g.close_eq_stages options (held_filled role start h) hp
  have evolves := (g.evolves_parse (filled role start bytes)).trans raises.evolves
  have hasError := evolves.hasError_filled
  generalize (g.parse (filled role start bytes)).state.checks g.recognizes parsed options.margin = checks at *
  obtain ⟨first, final, hfirst, hfinal, mark⟩ := markErrors_eq options.markErrors held
  have hrole : checks.state.role = role := evolves.role
  have hbytes : checks.state.bytes = bytes := evolves.bytes
  rw [lastIndex, length, hbytes] at hfinal
  rw [hbytes] at hfirst
  rw [hasError, hrole] at mark
  refine ⟨first, final, checks.reports, ?_, ?_, fun r hr => (raises.closing r hr).1, ?_⟩
  · rw [List.head?_eq_getElem?, hfirst]
  · rw [List.getLast?_eq_getElem?, hfinal]
  · rw [stages, mark, ← List.append_assoc]

theorem Config.decode_marked (c : Config) (role : Role) (bitTime : Time) (s : Segment) :
    ∃ final said, s.bytes.getLast? = some final ∧ (∀ r ∈ said, r.note.category ≠ .errorIndication) ∧
      ((c.channel role bitTime).decode s).reports = said ++
        if c.marksErrors && said.any (·.note.isError) then
          [⟨role, .frameWithError, s.first.start, final.stop, none⟩]
        else [] := by
  let k := c.channel role bitTime
  obtain ⟨first, final, errors, hfirst, hfinal, wrong, reports⟩ :=
    k.lawful.close_marked k.options role s.first.start (List.cons_ne_nil s.first s.more)
  obtain rfl : s.first = first := Option.some.inj hfirst
  refine ⟨final, (k.grammar.parse (k.frame s)).reports ++ errors, hfinal,
    List.forall_mem_append.mpr ⟨fun r hr => ?_, fun r hr => ?_⟩, ?_⟩
  · exact Note.category_of_ofField (Grammar.ofField_of_mem_parse role c.diagnosticsLength _ r hr).2
  · rw [Note.isError_iff.mp (wrong r hr)]
    nofun
  · rw [Channel.decode, k.lawful.parse_close]
    exact reports

theorem Config.marksErrors_eq_true_iff {c : Config} :
    c.marksErrors = true ↔ c.markErrorFrames = true ∧ c.requestLine ≠ c.responseLine := by
  simp [marksErrors, sharesLine]

/-- What was reported on the frame, as it is shown. -/
def Closed.spans (e : Closed) : List Span := e.reports.map Report.span

theorem Closed.exists_error_iff {e : Closed} :
    (∃ s ∈ e.spans, s.category = .error) ↔ e.reports.any (·.note.isError) = true := by
  rw [any_isError_iff]
  constructor
  · rintro ⟨s, hs, error⟩
    obtain ⟨r, hr, rfl⟩ := List.mem_map.mp hs
    exact ⟨r, hr, error⟩
  · rintro ⟨r, hr, error⟩
    exact ⟨_, List.mem_map_of_mem hr, error⟩

/-- What the mark on a closed frame has to be: behind all else that is said of the frame, from the start of its
first byte to the end of its last. Without a reason to mark the frame there is none. -/
def Closed.Marked (e : Closed) (role : Role) (reason : Prop) : Prop :=
  ∃ first final, e.frame.bytes.head? = some first ∧ e.frame.bytes.getLast? = some final ∧
    let mark : Span := ⟨role, .errorIndication, first.start, final.stop, "Frame contains error"⟩
    (reason → ∃ said, e.spans = said ++ [mark] ∧ ∀ s ∈ said, s.category ≠ .errorIndication) ∧
    (¬ reason → ∀ s ∈ e.spans, s.category ≠ .errorIndication)

theorem Config.marked_entry (c : Config) (role : Role) (bitTime : Time) (p : Segment × Option Byte) :
    let e := (c.channel role bitTime).entry p
    e.Marked role (c.markErrorFrames = true ∧ c.requestLine ≠ c.responseLine ∧
      ∃ s ∈ e.spans, s.category = .error) := by
  intro e
  obtain ⟨final, said, hfinal, clean, reports⟩ := c.decode_marked role bitTime p.1
  have reports : e.reports = _ := reports
  have hbytes : e.frame.bytes = p.1.bytes := Channel.bytes_entry _ p
  -- the mark itself is no error, so there is one among all reports exactly if there is one before the mark
  have same : e.reports.any (·.note.isError) = said.any (·.note.isError) := by
    rw [reports, List.any_append]
    split
    · exact Bool.or_false _
    · exact Bool.or_false _
  rw [← and_assoc, ← c.marksErrors_eq_true_iff, e.exists_error_iff, same, ← Bool.and_eq_true]
  refine ⟨p.1.first, final, hbytes ▸ rfl, hbytes ▸ hfinal, fun reason => ?_, fun none => ?_⟩
  · rw [if_pos reason] at reports
    refine ⟨said.map Report.span, ?_, List.forall_mem_map.mpr clean⟩
    rw [Closed.spans, reports, List.map_append]
    rfl
  · rw [if_neg none, List.append_nil] at reports
    rw [Closed.spans, reports]
    exact List.forall_mem_map.mpr clean

/-- If frames with errors are to be marked and each direction has a line of its own, every closed frame of which
an error was reported is marked once, behind all its other reports. No other frame is marked. At any time an open
frame knows whether an error was reported on it. Between them, the closed frames and the open one have all
reports. -/
theorem marks_exact (config : Config) (h : config.validate = .ok ()) (events : List Event) (role : Role) :
    ∃ d, Decoder.opened config = .ok d ∧ (d.runToEnd events).result = .ok () ∧
      let frames := d.closed role [] (events ++ [.flush])
      Decoder.said role (d.runToEnd events).reports = frames.flatMap Closed.reports ∧
      (∀ e ∈ frames, e.Marked role (config.markErrorFrames = true ∧ config.requestLine ≠ config.responseLine ∧
        ∃ s ∈ e.spans, s.category = .error)) ∧
      let sofar := d.unclosed role [] events
      Decoder.said role (d.run events).reports = (d.closed role [] events).flatMap Closed.reports ++ sofar ∧
      ∀ f, (d.run events).state.frame? role = some f →
        (f.hasError = true ↔ ∃ r ∈ sofar, r.span.category = .error) := by
  have waits := Decoder.waits_opened config role
  obtain ⟨ok, sane⟩ := Decoder.run_ok waits.sane events
  refine ⟨_, Decoder.opened_ok h, ?_, ?_, ?_, waits.said_run events, fun f hf => ?_⟩
  · rw [Decoder.runToEnd, Outcome.andThen_eq_of_ok ok]
    exact (Decoder.splits_step sane .flush).result
  · rw [waits.closed, waits.said_runToEnd, config.reports_ledger]
  · rw [waits.closed, Config.ledger]
    split
    · exact List.forall_mem_map.mpr fun p _ => config.marked_entry role _ p
    · exact List.forall_mem_nil _
  · obtain ⟨bitTime, current, held, sofar⟩ := waits.unclosed events
    rw [held] at hf
    obtain ⟨s, rfl, rfl⟩ := Option.map_eq_some_iff.mp hf
    rw [sofar, ← any_isError_iff]
    exact Bool.eq_iff_iff.mp (Grammar.evolves_parse _ _).hasError_filled

/-- The query is in order. The byte behind the long silence is too short for a frame, which is an error, so
that frame is marked. -/
theorem marks_exact_queries :
    let config : Config := { markErrorFrames := true }
    config.validate = .ok () ∧ ∃ d, Decoder.opened config = .ok d ∧
      let frames := d.closed .request [] (queries ++ [.flush])
      frames.map (fun e => e.spans.map fun s => (s.category, s.start, s.stop)) =
        [[(.serverId, 0, 8), (.function, 10, 18), (.checksum, 20, 38)],
          [(.error, 1000, 1288), (.errorIndication, 1000, 1008)]] ∧
      (∀ e ∈ frames, e.Marked .request (config.markErrorFrames = true ∧
        config.requestLine ≠ config.responseLine ∧ ∃ s ∈ e.spans, s.category = .error)) ∧
      ∀ f, (d.run queries).state.frame? .request = some f →
        (f.hasError = true ↔ ∃ r ∈ d.unclosed .request [] queries, r.span.category = .error) := by
  intro config
  have hv : config.validate = .ok () := rfl
  obtain ⟨d, hd, -, -, marked, -, flag⟩ := marks_exact config hv queries .request
  obtain rfl := Except.ok.inj ((Decoder.opened_ok hv).symm.trans hd)
  exact ⟨hv, _, hd, by decide +kernel, marked, flag⟩

end ModbusRtu
