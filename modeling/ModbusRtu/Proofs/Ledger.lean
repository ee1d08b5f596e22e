import ModbusRtu.Proofs.Segments

/-! Which frame a report is on. The decoder does not say, so a ledger is kept beside its run: it has an entry
for every frame that is closed, with the byte that came too late for it and with all the reports made on
it. The reports on the frame that is still open are `unclosed`. The entries are the segments of the capture,
and between them they have every report. -/

namespace ModbusRtu

def Signal.byte? : Signal → Option Byte
  | .byte b => some b
  | .flush => none

/-- A frame as it was when it was closed, the byte that came too late for it unless a flush closed it, and
all that was ever reported on it. -/
structure Closed where
  frame : Frame
  next : Option Byte
  reports : List Report

namespace Decoder

/-- The open frame of `role` that an event closes, and the byte that comes too late for it. -/
def closing? (d : Decoder) (role : Role) (event : Event) : Option (Frame × Option Byte) :=
  match d.frame? role, d.signal? role event with
  | some f, some (.byte b) => if f.continuesWith (d.channel role).silence b then none else some (f, some b)
  | some f, some .flush => some (f, none)
  | _, _ => none

/-- The ledger of `role` over a run. What was reported on the frame that is open at the beginning is `sofar`. -/
def closed (d : Decoder) (role : Role) (sofar : List Report) : List Event → List Closed
  | [] => []
  | event :: rest =>
    let reports := said role (d.step event).reports
    match d.closing? role event with
    | some (f, next) =>
      let final := (d.close role).reports
      ⟨f, next, sofar ++ final⟩ :: (d.step event).state.closed role (reports.drop final.length) rest
    | none => (d.step event).state.closed role (sofar ++ reports) rest

/-- What was reported on the frame of `role` that is open after a run, counted as in the ledger. -/
def unclosed (d : Decoder) (role : Role) (sofar : List Report) : List Event → List Report
  | [] => sofar
  | event :: rest =>
    let reports := said role (d.step event).reports
    match d.closing? role event with
    | some _ => (d.step event).state.unclosed role (reports.drop (d.close role).reports.length) rest
    | none => (d.step event).state.unclosed role (sofar ++ reports) rest

end Decoder

namespace Segment

/-- The segments that end, each with the byte that comes too late for it. -/
def ended (silence : Time) : Option Segment → List Signal → List (Segment × Option Byte)
  | _, [] => []
  | current, signal :: rest =>
    ((next silence current signal).1.map fun s => (s, signal.byte?)) ++
      ended silence (next silence current signal).2 rest

/-- The segment that is open in the end. -/
def unended (silence : Time) : Option Segment → List Signal → Option Segment
  | current, [] => current
  | current, signal :: rest => unended silence (next silence current signal).2 rest

theorem map_fst_ended (silence : Time) (current : Option Segment) (signals : List Signal) :
    (ended silence current (signals ++ [.flush])).map Prod.fst = cut silence current signals := by
  induction signals generalizing current with
  | nil => simp [ended, cut, next, Function.comp_def]
  | cons signal rest ih => simp [ended, cut, ih, Function.comp_def]

theorem next_cases (silence : Time) (current : Option Segment) (signal : Signal) :
    (next silence current signal).1 = [] ∨
      ∃ s, current = some s ∧ next silence current signal = ([s], signal.byte?.map fun b => ⟨b, []⟩) := by
  cases current with
  | none => cases signal <;> exact Or.inl rfl
  | some s =>
    cases signal with
    | flush => exact Or.inr ⟨s, rfl, rfl⟩
    | byte b =>
      by_cases h : b.start.minus s.reach ≤ silence
      · exact Or.inl (congrArg Prod.fst (next_of_soon h))
      · exact Or.inr ⟨s, rfl, next_of_late h⟩

end Segment

namespace Channel

variable {k : Channel}

/-- The entry of the ledger for a segment. -/
def entry (k : Channel) (p : Segment × Option Byte) : Closed :=
  ⟨(k.grammar.parse (k.frame p.1)).state, p.2, (k.decode p.1).reports⟩

theorem lastRead_entry (k : Channel) (p : Segment × Option Byte) : (k.entry p).frame.lastRead = p.1.reach :=
  (k.grammar.evolves_parse (k.frame p.1)).lastRead

theorem bytes_entry (k : Channel) (p : Segment × Option Byte) : (k.entry p).frame.bytes = p.1.bytes :=
  (k.grammar.evolves_parse (k.frame p.1)).bytes

/-- A signal that ends the open segment: first the reports on that segment are completed, and the others are
on the segment that is open then. -/
theorem hear_of_ended {s : Segment} {signal : Signal} {reached : Option Segment}
    (h : Segment.next k.silence (some s) signal = ([s], reached)) :
    let final := (k.close (k.held (some s))).reports
    k.pending (some s) ++ final = (k.decode s).reports ∧
      (k.hear (k.held (some s)) signal).reports = final ++ k.pending reached := by
  intro final
  have whole : k.pending (some s) ++ final = (k.decode s).reports :=
    (close_held (some s)).trans (List.flatMap_singleton _ s)
  obtain ⟨-, complete⟩ := hear_held (k := k) (some s) signal
  rw [h, List.flatMap_singleton, ← whole, List.append_assoc] at complete
  exact ⟨whole, List.append_cancel_left complete⟩

end Channel

namespace Decoder

theorem exists_mem_closed {d : Decoder} (h : d.Sane) {role : Role} {before : List Event} {event : Event}
    {f : Frame} {next : Option Byte} (hc : (d.run before).state.closing? role event = some (f, next))
    (sofar : List Report) (after : List Event) :
    ∃ e ∈ d.closed role sofar (before ++ event :: after), e.frame = f ∧ e.next = next := by
  induction before generalizing d sofar with
  | nil =>
    have hc : d.closing? role event = some (f, next) := hc
    rw [List.nil_append, closed, hc]
    exact ⟨_, List.mem_cons_self, rfl, rfl⟩
  | cons first rest ih =>
    rw [run, Outcome.andThen_eq_of_ok (splits_step h first).result] at hc
    rw [List.cons_append, closed]
    split
    · obtain ⟨e, he, same⟩ := ih (sane_step h first) hc _
      exact ⟨e, List.mem_cons_of_mem _ he, same⟩
    · exact ih (sane_step h first) hc _

namespace Follows

variable {c : Config} {role : Role} {bitTime : Time} {current : Option Segment} {d : Decoder}

theorem closing? (h : Follows c role bitTime current d) {event : Event} {signal : Signal}
    (hs : hears (c.line role) event = some signal) :
    let k := c.channel role bitTime
    d.closing? role event = (Segment.next (bitTime.times c.frameGapBits) current signal).1.head?.map fun s =>
      ((k.grammar.parse (k.frame s)).state, signal.byte?) := by
  intro k
  rw [Decoder.closing?, h.frame?, h.signal?, hs, h.channel]
  cases current with
  | none => cases signal <;> rfl
  | some s =>
    cases signal with
    | flush => rfl
    | byte b =>
      have hc := k.continuesWith_parse s b
      by_cases within : b.start.minus s.reach ≤ bitTime.times c.frameGapBits
      · rw [Segment.next_of_soon within, Channel.held, Option.map_some]
        exact if_pos (hc.trans (decide_eq_true within))
      · rw [Segment.next_of_late within, Channel.held, Option.map_some]
        exact if_neg fun h => within (of_decide_eq_true (hc.symm.trans h))

theorem closing?_of_deaf (h : Follows c role bitTime current d) {event : Event}
    (hs : hears (c.line role) event = none) : d.closing? role event = none := by
  rw [Decoder.closing?, h.signal?, hs]
  cases d.frame? role <;> rfl

theorem closing?_of_late (h : Follows c role bitTime current d) {f : Frame} (hf : d.frame? role = some f)
    {b : Byte} (late : f.continuesWith (c.silence bitTime) b = false) :
    d.closing? role (.byte (c.line role) b) = some (f, some b) := by
  have heard : d.signal? role (.byte (c.line role) b) = some (.byte b) := (h.signal? _).trans (if_pos rfl)
  rw [Decoder.closing?, hf, heard, h.channel]
  exact if_neg (Bool.eq_false_iff.mp late)

/-- An event that is heard either leaves the open frame open, and all that it makes the decoder report is on
that frame. Or it closes the frame: first the reports on it are completed, and the others are on the frame
that is open then. -/
theorem closing_cases (h : Follows c role bitTime current d) {event : Event} {signal : Signal}
    (hs : hears (c.line role) event = some signal) :
    let k := c.channel role bitTime
    let cut := Segment.next (bitTime.times c.frameGapBits) current signal
    let reports := said role (d.step event).reports
    (cut.1 = [] ∧ d.closing? role event = none ∧ k.pending current ++ reports = k.pending cut.2) ∨
      ∃ s, cut.1 = [s] ∧ d.closing? role event = some ((k.grammar.parse (k.frame s)).state, signal.byte?) ∧
        k.pending current ++ (d.close role).reports = (k.decode s).reports ∧
        reports = (d.close role).reports ++ k.pending cut.2 := by
  intro k cut reports
  obtain ⟨hl, -⟩ := h.hearing hs
  have hc := h.closing? hs
  have hreports : reports = (k.hear (k.held current) signal).reports :=
    ((splits_step h.sane event).reports role).trans (congrArg Outcome.reports hl)
  rcases Segment.next_cases (bitTime.times c.frameGapBits) current signal with none | ⟨s, rfl, one⟩
  · obtain ⟨-, complete⟩ := Channel.hear_held (k := k) current signal
    have hn : Segment.next k.silence current signal = ([], cut.2) := Prod.ext none rfl
    rw [hn] at complete
    rw [none] at hc
    exact Or.inl ⟨none, hc, hreports ▸ complete⟩
  · have one : cut.1 = [s] := congrArg Prod.fst one
    have hn : Segment.next k.silence (some s) signal = ([s], cut.2) := Prod.ext one rfl
    obtain ⟨whole, opening⟩ := Channel.hear_of_ended hn
    have final : (d.close role).reports = (k.close (k.held (some s))).reports := by
      rw [close_eq, h.channel, h.frame?]
      rfl
    rw [show Segment.next (bitTime.times c.frameGapBits) (some s) signal = ([s], cut.2) from hn] at hc
    refine Or.inr ⟨s, one, hc, ?_, ?_⟩
    · rw [final, whole]
    · rw [final, hreports, opening]

theorem closed_cons (h : Follows c role bitTime current d) {event : Event} {signal : Signal}
    (hs : hears (c.line role) event = some signal) (rest : List Event) :
    let cut := Segment.next (bitTime.times c.frameGapBits) current signal
    d.closed role ((c.channel role bitTime).pending current) (event :: rest) =
      (cut.1.map fun s => (c.channel role bitTime).entry (s, signal.byte?)) ++
        (d.step event).state.closed role ((c.channel role bitTime).pending cut.2) rest := by
  intro cut
  rcases h.closing_cases hs with ⟨none, hc, complete⟩ | ⟨s, one, hc, whole, opening⟩
  · rw [Decoder.closed, hc, show cut.1 = [] from none, ← complete]
    rfl
  · rw [Decoder.closed, hc, show cut.1 = [s] from one, opening]
    simp only [List.drop_left, whole]
    rfl

theorem unclosed_cons (h : Follows c role bitTime current d) {event : Event} {signal : Signal}
    (hs : hears (c.line role) event = some signal) (rest : List Event) :
    let cut := Segment.next (bitTime.times c.frameGapBits) current signal
    d.unclosed role ((c.channel role bitTime).pending current) (event :: rest) =
      (d.step event).state.unclosed role ((c.channel role bitTime).pending cut.2) rest := by
  intro cut
  rcases h.closing_cases hs with ⟨-, hc, complete⟩ | ⟨s, -, hc, -, opening⟩
  · rw [Decoder.unclosed, hc, ← complete]
  · rw [Decoder.unclosed, hc, opening]
    simp only [List.drop_left]
    rfl

/-- The ledger has the segments that end, each with all that it has to report. -/
theorem closed (h : Follows c role bitTime current d) (events : List Event) :
    let k := c.channel role bitTime
    d.closed role (k.pending current) events =
      (Segment.ended (bitTime.times c.frameGapBits) current (heard (c.line role) events)).map k.entry := by
  intro k
  induction events generalizing d current with
  | nil => rfl
  | cons event rest ih =>
    cases hs : hears (c.line role) event with
    | none =>
      obtain ⟨silent, follows⟩ := h.deaf hs
      have hc := h.closing?_of_deaf hs
      rw [Decoder.closed, hc, (splits_step h.sane event).reports role, silent,
        heard_cons_of_none hs]
      simp only [List.append_nil]
      exact ih follows
    | some signal =>
      obtain ⟨-, follows⟩ := h.hearing hs
      rw [h.closed_cons hs, ih follows, heard_cons_of_some hs, Segment.ended, List.map_append, List.map_map]
      rfl

theorem reaches (h : Follows c role bitTime current d) (events : List Event) :
    Follows c role bitTime
      (Segment.unended (bitTime.times c.frameGapBits) current (heard (c.line role) events))
      (d.run events).state := by
  induction events generalizing d current with
  | nil => exact h
  | cons event rest ih =>
    rw [Decoder.run, Outcome.andThen_eq_of_ok (splits_step h.sane event).result]
    cases hs : hears (c.line role) event with
    | none =>
      rw [heard_cons_of_none hs]
      exact ih (h.deaf hs).2
    | some signal =>
      rw [heard_cons_of_some hs]
      exact ih (h.hearing hs).2

theorem unclosed (h : Follows c role bitTime current d) (events : List Event) :
    let k := c.channel role bitTime
    d.unclosed role (k.pending current) events =
      k.pending (Segment.unended (bitTime.times c.frameGapBits) current (heard (c.line role) events)) := by
  intro k
  induction events generalizing d current with
  | nil => rfl
  | cons event rest ih =>
    cases hs : hears (c.line role) event with
    | none =>
      obtain ⟨silent, follows⟩ := h.deaf hs
      have hc := h.closing?_of_deaf hs
      rw [Decoder.unclosed, hc, (splits_step h.sane event).reports role, silent, heard_cons_of_none hs]
      simp only [List.append_nil]
      exact ih follows
    | some signal =>
      obtain ⟨-, follows⟩ := h.hearing hs
      rw [h.unclosed_cons hs, ih follows, heard_cons_of_some hs, Segment.unended]

theorem said_run (h : Follows c role bitTime current d) (events : List Event) :
    let sofar := (c.channel role bitTime).pending current
    sofar ++ said role (d.run events).reports =
      (d.closed role sofar events).flatMap Closed.reports ++ d.unclosed role sofar events := by
  intro sofar
  induction events generalizing d current with
  | nil => exact List.append_nil _
  | cons event rest ih =>
    have step := splits_step h.sane event
    rw [Decoder.run, Outcome.andThen_eq_of_ok step.result, said_append]
    cases hs : hears (c.line role) event with
    | none =>
      obtain ⟨silent, follows⟩ := h.deaf hs
      have hc := h.closing?_of_deaf hs
      rw [Decoder.closed, Decoder.unclosed, hc, step.reports role, silent]
      simp only [List.append_nil, List.nil_append]
      exact ih follows
    | some signal =>
      obtain ⟨-, follows⟩ := h.hearing hs
      rcases h.closing_cases hs with ⟨-, hc, complete⟩ | ⟨s, -, hc, -, opening⟩
      · rw [Decoder.closed, Decoder.unclosed, hc, ← List.append_assoc]
        simp only [sofar, complete]
        exact ih follows
      · rw [Decoder.closed, Decoder.unclosed, hc, opening]
        simp only [List.drop_left, List.flatMap_cons, List.append_assoc, ← ih follows]

end Follows

end Decoder

/-- The ledger of `role` over a capture. -/
def Config.ledger (c : Config) (role : Role) (events : List Event) : List Closed :=
  match timed events with
  | some (bitTime, rest) =>
    (Segment.ended (bitTime.times c.frameGapBits) none (heard (c.line role) rest)).map
      (c.channel role bitTime).entry
  | none => []

namespace Decoder.Waits

variable {c : Config} {role : Role} {d : Decoder}

theorem closing? (h : Waits c role d) (event : Event) : d.closing? role event = none := by
  rw [Decoder.closing?, h.frame?]

theorem closed (h : Waits c role d) (events : List Event) :
    d.closed role [] events = c.ledger role events := by
  induction events generalizing d with
  | nil => rfl
  | cons event rest ih =>
    rw [Decoder.closed, h.closing?, (splits_step h.sane event).reports role, h.listen, Config.ledger]
    rcases h.step_cases event rest with ⟨waits, ht⟩ | ⟨bitTime, follows, ht⟩
    · rw [ht]
      exact ih waits
    · rw [ht]
      exact follows.closed rest

theorem said_run (h : Waits c role d) (events : List Event) :
    said role (d.run events).reports =
      (d.closed role [] events).flatMap Closed.reports ++ d.unclosed role [] events := by
  induction events generalizing d with
  | nil => rfl
  | cons event rest ih =>
    have step := splits_step h.sane event
    rw [Decoder.run, Outcome.andThen_eq_of_ok step.result, said_append, Decoder.closed, Decoder.unclosed, h.closing?,
      step.reports role, h.listen]
    rcases h.step_cases event rest with ⟨waits, -⟩ | ⟨bitTime, follows, -⟩
    · exact ih waits
    · exact follows.said_run rest

theorem unclosed (h : Waits c role d) (events : List Event) :
    ∃ bitTime current, (d.run events).state.frame? role = (c.channel role bitTime).held current ∧
      d.unclosed role [] events = (c.channel role bitTime).pending current := by
  induction events generalizing d with
  | nil => exact ⟨0, none, h.frame?, rfl⟩
  | cons event rest ih =>
    have step := splits_step h.sane event
    rw [Decoder.run, Outcome.andThen_eq_of_ok step.result, Decoder.unclosed, h.closing?, step.reports role, h.listen]
    rcases h.step_cases event rest with ⟨waits, -⟩ | ⟨bitTime, follows, -⟩
    · exact ih waits
    · exact ⟨bitTime, _, (follows.reaches rest).frame?, follows.unclosed rest⟩

/-- After a run the decoder still waits, or it knows the bit time from the first marker that told it, and
has got as far as what it heard since then. -/
theorem run_cases (h : Waits c role d) (events : List Event) :
    timed events = none ∧ Waits c role (d.run events).state ∨
      ∃ bitTime rest, timed events = some (bitTime, rest) ∧
        Follows c role bitTime
          (Segment.unended (bitTime.times c.frameGapBits) none (heard (c.line role) rest))
          (d.run events).state := by
  induction events generalizing d with
  | nil => exact Or.inl ⟨rfl, h⟩
  | cons event rest ih =>
    rw [Decoder.run, Outcome.andThen_eq_of_ok (splits_step h.sane event).result]
    rcases h.step_cases event rest with ⟨waits, ht⟩ | ⟨bitTime, follows, ht⟩
    · rw [ht]
      exact ih waits
    · exact Or.inr ⟨bitTime, rest, ht, follows.reaches rest⟩

theorem run_of_untimed (h : Waits c role d) {events : List Event} (ht : timed events = none) :
    Waits c role (d.run events).state := by
  rcases h.run_cases events with ⟨-, waits⟩ | ⟨_, _, told, -⟩
  · exact waits
  · cases ht.symm.trans told

theorem run_of_timed (h : Waits c role d) {events rest : List Event} {bitTime : Time}
    (ht : timed events = some (bitTime, rest)) :
    Follows c role bitTime
      (Segment.unended (bitTime.times c.frameGapBits) none (heard (c.line role) rest))
      (d.run events).state := by
  rcases h.run_cases events with ⟨untold, -⟩ | ⟨_, _, told, follows⟩
  · cases ht.symm.trans untold
  · cases ht.symm.trans told
    exact follows

theorem bitTime_run (h : Waits c role d) (events : List Event) :
    (d.run events).state.bitTime = (timed events).map Prod.fst := by
  cases ht : timed events with
  | none => exact (h.run_of_untimed ht).untimed
  | some p => exact (h.run_of_timed ht).timed

end Decoder.Waits

theorem timed_append (xs ys : List Event) :
    timed (xs ++ ys) = ((timed xs).map fun p => (p.1, p.2 ++ ys)).or (timed ys) := by
  induction xs with
  | nil => rfl
  | cons event rest ih =>
    cases event with
    | byte line b => exact ih
    | flush => exact ih
    | timing start stop =>
      rw [List.cons_append, timed, timed]
      split
      · rfl
      · exact ih

namespace Config

variable (c : Config) (role : Role) {events rest : List Event} {bitTime : Time}

theorem ledger_of_untimed (ht : timed events = none) : c.ledger role (events ++ [.flush]) = [] := by
  rw [ledger, timed_append, ht]
  rfl

theorem ledger_of_timed (ht : timed events = some (bitTime, rest)) :
    c.ledger role (events ++ [.flush]) =
      (Segment.ended (bitTime.times c.frameGapBits) none (heard (c.line role) rest ++ [.flush])).map
        (c.channel role bitTime).entry := by
  simp only [ledger, timed_append, ht, Option.map_some, Option.some_or, heard_append]
  rfl

theorem reports_ledger (events : List Event) :
    (c.ledger role (events ++ [.flush])).flatMap Closed.reports = c.expected role events := by
  cases ht : timed events with
  | none => rw [c.ledger_of_untimed role ht, expected, ht, List.flatMap_nil]
  | some p =>
    obtain ⟨bitTime, rest⟩ := p
    simp only [expected, ht, ← c.decode_channel role bitTime]
    rw [c.ledger_of_timed role ht, ← Segment.map_fst_ended, List.flatMap_map, List.flatMap_map]
    rfl

end Config

end ModbusRtu
