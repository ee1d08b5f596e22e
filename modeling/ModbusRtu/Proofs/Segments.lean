import ModbusRtu.Proofs.Safety

/-! The decoder as it would be with the whole capture at hand: cut what each direction hears into segments
wherever there was too much silence, and decode every segment at once. The streaming decoder reports the
same, although it parses after every byte and never knows where a frame will end. -/

namespace ModbusRtu

theorem Time.minus_ne_zero {start stop : Time} : stop.minus start ≠ 0 ↔ start < stop := by
  rw [Ne, ← UInt64.toNat_inj, toNat_minus, UInt64.lt_iff_toNat_lt, UInt64.toNat_zero]
  omega

/-- The bytes of one frame. -/
structure Segment where
  first : Byte
  more : List Byte
deriving DecidableEq

namespace Segment

def bytes (s : Segment) : List Byte := s.first :: s.more

def push (s : Segment) (b : Byte) : Segment := { s with more := s.more ++ [b] }

/-- The latest of the time at which the segment starts and those at which its bytes end. -/
def reach (s : Segment) : Time := s.bytes.foldl (fun time b => time.later b.stop) s.first.start

/-- What `signal` does to the open segment: the segments that it ends, and the one that is open then. -/
def next (silence : Time) : Option Segment → Signal → List Segment × Option Segment
  | current, .flush => (current.toList, none)
  | none, .byte b => ([], some ⟨b, []⟩)
  | some s, .byte b =>
    if b.start.minus s.reach ≤ silence then ([], some (s.push b)) else ([s], some ⟨b, []⟩)

section Next

variable {silence : Time} {s : Segment} {b : Byte}

theorem next_of_soon (soon : b.start.minus s.reach ≤ silence) :
    next silence (some s) (.byte b) = ([], some (s.push b)) :=
  if_pos soon

theorem next_of_late (late : ¬ b.start.minus s.reach ≤ silence) :
    next silence (some s) (.byte b) = ([s], some ⟨b, []⟩) :=
  if_neg late

end Next

/-- The segments of what a direction hears, with the one that is open at the beginning. -/
def cut (silence : Time) : Option Segment → List Signal → List Segment
  | current, [] => current.toList
  | current, signal :: rest =>
    (next silence current signal).1 ++ cut silence (next silence current signal).2 rest

end Segment

/-- The bit time, from the first timing marker that has a length, and the events after that marker. -/
def timed : List Event → Option (Time × List Event)
  | [] => none
  | .timing start stop :: rest => if start < stop then some (stop.minus start, rest) else timed rest
  | _ :: rest => timed rest

def hears (line : Line) : Event → Option Signal
  | .timing _ _ => none
  | .byte l b => if l = line then some (.byte b) else none
  | .flush => some .flush

/-- What is heard on `line`: its bytes, and where frames are cut off. -/
def heard (line : Line) (events : List Event) : List Signal := events.filterMap (hears line)

theorem heard_cons_of_none {line : Line} {event : Event} (h : hears line event = none) (rest : List Event) :
    heard line (event :: rest) = heard line rest :=
  List.filterMap_cons_none h

theorem heard_cons_of_some {line : Line} {event : Event} {signal : Signal}
    (h : hears line event = some signal) (rest : List Event) :
    heard line (event :: rest) = signal :: heard line rest :=
  List.filterMap_cons_some h

theorem heard_append (line : Line) (xs ys : List Event) :
    heard line (xs ++ ys) = heard line xs ++ heard line ys :=
  List.filterMap_append ..

namespace Config

/-- A segment decoded at once: all its bytes are appended to a new frame, which is parsed and closed. -/
def decodeSegment (c : Config) (role : Role) (bitTime : Time) (s : Segment) : Outcome Frame Unit :=
  let g := role.grammar c.diagnosticsLength
  let margin := bitTime.times (min c.closeMarginBits c.frameGapBits)
  (g.parse (s.bytes.foldl Frame.append (.opened role s.first.start))).andThen fun f _ =>
    g.close ⟨margin, c.markErrorFrames && !c.sharesLine⟩ f

/-- What `role` has to report on a capture. -/
def expected (c : Config) (role : Role) (events : List Event) : List Report :=
  match timed events with
  | some (bitTime, rest) =>
    (Segment.cut (bitTime.times c.frameGapBits) none (heard (c.line role) rest)).flatMap fun s =>
      (c.decodeSegment role bitTime s).reports
  | none => []

end Config

theorem Frame.foldl_append (f : Frame) (bytes : List Byte) : bytes.foldl append f = f.extend bytes := by
  induction bytes generalizing f with
  | nil => exact f.extend_nil.symm
  | cons b rest ih => rw [List.foldl_cons, ih, extend_cons]

namespace Channel

variable {k : Channel}

/-- The frame that the channel has made of the bytes of `s` so far, before the parse. -/
def frame (k : Channel) (s : Segment) : Frame := .filled k.role s.first.start s.bytes

/-- The channel holds the open segment, parsed. -/
def held (k : Channel) (current : Option Segment) : Option Frame :=
  current.map fun s => (k.grammar.parse (k.frame s)).state

/-- What the channel has reported on the open segment. -/
def pending (k : Channel) : Option Segment → List Report
  | some s => (k.grammar.parse (k.frame s)).reports
  | none => []

def decode (k : Channel) (s : Segment) : Outcome Frame Unit :=
  (k.grammar.parse (k.frame s)).andThen fun f _ => k.grammar.close k.options f

theorem frame_push (k : Channel) (s : Segment) (b : Byte) : k.frame (s.push b) = (k.frame s).append b := by
  rw [frame, Frame.filled, Segment.bytes, Segment.push, ← List.cons_append, Frame.extend_append,
    Frame.extend_cons, Frame.extend_nil]
  rfl

theorem continuesWith_parse (k : Channel) (s : Segment) (b : Byte) :
    (k.grammar.parse (k.frame s)).state.continuesWith k.silence b =
      decide (b.start.minus s.reach ≤ k.silence) := by
  have hread := (k.grammar.evolves_parse (k.frame s)).lastRead
  rw [Frame.continuesWith, hread]
  rfl

theorem add_spec (f : Frame) (b : Byte) :
    (k.add f b).state = some (k.grammar.parse (f.append b)).state ∧
      (k.add f b).reports = (k.grammar.parse (f.append b)).reports := by
  obtain ⟨parsed, hp⟩ := k.lawful.parse_ok (f.append b)
  have hr : ((k.grammar.push f b).mapState some).result = .ok parsed := hp
  rw [add, Outcome.andThen_eq_of_ok hr]
  exact ⟨rfl, List.append_nil _⟩

theorem add_held (s : Segment) (b : Byte) :
    let o := k.add (k.grammar.parse (k.frame s)).state b
    o.state = k.held (some (s.push b)) ∧
      (k.grammar.parse (k.frame s)).reports ++ o.reports = k.pending (some (s.push b)) := by
  intro o
  obtain ⟨hs, hr⟩ := add_spec (k.grammar.parse (k.frame s)).state b
  obtain ⟨parsed, hp⟩ := k.lawful.parse_ok (k.frame s)
  have longer := k.lawful.parse_extend (k.frame s) [b]
  rw [Outcome.andThen_eq_of_ok hp] at longer
  simp only [Frame.extend_cons, Frame.extend_nil] at longer
  rw [hs, hr, held, pending, Option.map_some, frame_push, longer]
  exact ⟨rfl, rfl⟩

theorem holds_held (k : Channel) (current : Option Segment) : k.Holds (k.held current) := by
  intro f hf
  cases current with
  | none => cases hf
  | some s =>
    cases hf
    have fresh : (k.frame s).Held := Frame.held_filled k.role s.first.start (List.cons_ne_nil _ _)
    have evolves := k.grammar.evolves_parse (k.frame s)
    exact ⟨evolves.held fresh, evolves.role⟩

theorem close_held (current : Option Segment) :
    k.pending current ++ (k.close (k.held current)).reports =
      current.toList.flatMap fun s => (k.decode s).reports := by
  cases current with
  | none => rfl
  | some s =>
    obtain ⟨parsed, hp⟩ := k.lawful.parse_ok (k.frame s)
    rw [Option.toList_some, List.flatMap_singleton, decode, Outcome.andThen_eq_of_ok hp]
    rfl

theorem start_held (current : Option Segment) (b : Byte) :
    (k.start (k.held current) b).state = k.held (some ⟨b, []⟩) ∧
      k.pending current ++ (k.start (k.held current) b).reports =
        (current.toList.flatMap fun s => (k.decode s).reports) ++ k.pending (some ⟨b, []⟩) := by
  have closed := (well_close (k.holds_held current)).result
  obtain ⟨hs, hr⟩ := add_spec (.opened k.role b.start) b
  rw [start, Outcome.andThen_eq_of_ok closed]
  refine ⟨hs, ?_⟩
  rw [← List.append_assoc, close_held, hr]
  rfl

/-- A step of the channel is a step of the cut. -/
theorem hear_held (current : Option Segment) (signal : Signal) :
    let cut := Segment.next k.silence current signal
    (k.hear (k.held current) signal).state = k.held cut.2 ∧
      k.pending current ++ (k.hear (k.held current) signal).reports =
        (cut.1.flatMap fun s => (k.decode s).reports) ++ k.pending cut.2 := by
  cases signal with
  | flush =>
    refine ⟨?_, ?_⟩
    · cases current <;> rfl
    · exact (close_held current).trans (List.append_nil _).symm
  | byte b =>
    cases current with
    | none => exact start_held none b
    | some s =>
      have hc := k.continuesWith_parse s b
      by_cases within : b.start.minus s.reach ≤ k.silence
      · have hadd : k.hear (k.held (some s)) (.byte b) = k.add (k.grammar.parse (k.frame s)).state b := by
          rw [held, Option.map_some, hear_byte, hc]
          exact if_pos (decide_eq_true within)
        rw [Segment.next_of_soon within, hadd]
        exact add_held s b
      · have hstart : k.hear (k.held (some s)) (.byte b) = k.start (k.held (some s)) b := by
          rw [held, Option.map_some, hear_byte, hc]
          exact if_neg fun h => within (of_decide_eq_true h)
        rw [Segment.next_of_late within, hstart]
        exact start_held (some s) b

end Channel

theorem Config.decode_channel (c : Config) (role : Role) (bitTime : Time) (s : Segment) :
    (c.channel role bitTime).decode s = c.decodeSegment role bitTime s := by
  have hm : min c.closeMarginBits c.frameGapBits =
      if c.closeMarginBits ≤ c.frameGapBits then c.closeMarginBits else c.frameGapBits := rfl
  rw [decodeSegment, Frame.foldl_append, hm]
  rfl

namespace Decoder

/-- The decoder knows the bit time, and its channel of `role` has got as far as `current`. -/
structure Follows (c : Config) (role : Role) (bitTime : Time) (current : Option Segment) (d : Decoder) :
    Prop where
  sane : d.Sane
  config : d.config = c
  timed : d.bitTime = some bitTime
  frame? : d.frame? role = (c.channel role bitTime).held current

/-- The end of the capture closes the open segments. -/
def runToEnd (d : Decoder) (events : List Event) : Outcome Decoder Unit :=
  (d.run events).andThen fun d _ => d.finish

theorem said_runToEnd_cons {d : Decoder} (h : d.Sane) (role : Role) (event : Event) (rest : List Event) :
    said role (d.runToEnd (event :: rest)).reports =
      (d.listen role event).reports ++ said role ((d.step event).state.runToEnd rest).reports := by
  have hs := splits_step h event
  rw [runToEnd, run, Outcome.andThen_assoc, Outcome.andThen_eq_of_ok hs.result, said_append, hs.reports]
  rfl

theorem said_runToEnd_nil {d : Decoder} (h : d.Sane) (role : Role) :
    said role (d.runToEnd []).reports = ((d.channel role).close (d.frame? role)).reports :=
  (splits_step h .flush).reports role

namespace Follows

variable {c : Config} {role : Role} {bitTime : Time} {current : Option Segment} {d : Decoder}

theorem channel (h : Follows c role bitTime current d) : d.channel role = c.channel role bitTime := by
  rw [Decoder.channel, h.config, h.timed, Option.getD_some]

theorem signal? (h : Follows c role bitTime current d) (event : Event) :
    d.signal? role event = hears (c.line role) event := by
  cases event with
  | timing start stop => rfl
  | byte line b => simp only [Decoder.signal?, hears, h.config, h.timed, Option.isSome_some, true_and]
  | flush => rfl

theorem step (h : Follows c role bitTime current d) (event : Event) {reached : Option Segment}
    (hr : (d.listen role event).state = (c.channel role bitTime).held reached) :
    Follows c role bitTime reached (d.step event).state where
  sane := sane_step h.sane event
  config := (splits_step h.sane event).config.trans h.config
  timed := (splits_step h.sane event).bitTime.trans (learns_of_timed h.timed event)
  frame? := ((splits_step h.sane event).frame? role).trans hr

theorem deaf (h : Follows c role bitTime current d) {event : Event}
    (hs : hears (c.line role) event = none) :
    (d.listen role event).reports = [] ∧ Follows c role bitTime current (d.step event).state := by
  have hl : d.listen role event = .done (d.frame? role) () := by rw [listen, h.signal?, hs]
  exact ⟨congrArg Outcome.reports hl, h.step event (hl ▸ h.frame?)⟩

theorem hearing (h : Follows c role bitTime current d) {event : Event} {signal : Signal}
    (hs : hears (c.line role) event = some signal) :
    let k := c.channel role bitTime
    d.listen role event = k.hear (k.held current) signal ∧
      Follows c role bitTime (Segment.next (bitTime.times c.frameGapBits) current signal).2
        (d.step event).state := by
  intro k
  have hl : d.listen role event = k.hear (k.held current) signal := by
    rw [listen, h.signal?, hs, h.channel, h.frame?]
  exact ⟨hl, h.step event (hl ▸ (Channel.hear_held current signal).1)⟩

/-- From a known bit time on, the run completes the reports on the open segment and makes those on the
segments to come. -/
theorem said_runToEnd (h : Follows c role bitTime current d) (events : List Event) :
    (c.channel role bitTime).pending current ++ said role (d.runToEnd events).reports =
      (Segment.cut (bitTime.times c.frameGapBits) current (heard (c.line role) events)).flatMap fun s =>
        (c.decodeSegment role bitTime s).reports := by
  simp only [← c.decode_channel role bitTime]
  induction events generalizing d current with
  | nil =>
    rw [said_runToEnd_nil h.sane, h.channel, h.frame?]
    exact Channel.close_held current
  | cons event rest ih =>
    rw [said_runToEnd_cons h.sane]
    cases hs : hears (c.line role) event with
    | none =>
      obtain ⟨silent, follows⟩ := h.deaf hs
      rw [heard_cons_of_none hs, ← ih follows, silent]
      rfl
    | some signal =>
      obtain ⟨hl, follows⟩ := h.hearing hs
      obtain ⟨-, hreports⟩ := Channel.hear_held current signal
      rw [heard_cons_of_some hs, Segment.cut, List.flatMap_append, ← ih follows, ← List.append_assoc, hl,
        hreports, List.append_assoc]
      rfl

end Follows

/-- Until the bit time is known, nothing is heard and nothing is held. -/
structure Waits (c : Config) (role : Role) (d : Decoder) : Prop where
  sane : d.Sane
  config : d.config = c
  untimed : d.bitTime = none
  frame? : d.frame? role = none

namespace Waits

variable {c : Config} {role : Role} {d : Decoder}

theorem listen (h : Waits c role d) (event : Event) : d.listen role event = .done none () := by
  cases event with
  | timing start stop => exact congrArg (Outcome.done · ()) h.frame?
  | byte line b =>
    rw [Decoder.listen, signal?_byte_of_untimed h.untimed]
    exact congrArg (Outcome.done · ()) h.frame?
  | flush =>
    rw [Decoder.listen, h.frame?]
    rfl

theorem step (h : Waits c role d) {event : Event} (hl : d.learns event = none) :
    Waits c role (d.step event).state where
  sane := sane_step h.sane event
  config := (splits_step h.sane event).config.trans h.config
  untimed := (splits_step h.sane event).bitTime.trans hl
  frame? := ((splits_step h.sane event).frame? role).trans (congrArg Outcome.state (h.listen event))

theorem learn (h : Waits c role d) {event : Event} {bitTime : Time} (hl : d.learns event = some bitTime) :
    Follows c role bitTime none (d.step event).state where
  sane := sane_step h.sane event
  config := (splits_step h.sane event).config.trans h.config
  timed := (splits_step h.sane event).bitTime.trans hl
  frame? := ((splits_step h.sane event).frame? role).trans (congrArg Outcome.state (h.listen event))

theorem learns_timing (h : Waits c role d) (start stop : Time) :
    d.learns (.timing start stop) = if start < stop then some (stop.minus start) else none := by
  simp only [learns, h.untimed, Option.isNone_none, true_and, Time.minus_ne_zero]

theorem step_cases (h : Waits c role d) (event : Event) (rest : List Event) :
    Waits c role (d.step event).state ∧ timed (event :: rest) = timed rest ∨
      ∃ bitTime, Follows c role bitTime none (d.step event).state ∧
        timed (event :: rest) = some (bitTime, rest) := by
  cases event with
  | byte line b => exact Or.inl ⟨h.step h.untimed, rfl⟩
  | flush => exact Or.inl ⟨h.step h.untimed, rfl⟩
  | timing start stop =>
    have hl := h.learns_timing start stop
    by_cases hlt : start < stop
    · exact Or.inr ⟨_, h.learn (hl.trans (if_pos hlt)), if_pos hlt⟩
    · exact Or.inl ⟨h.step (hl.trans (if_neg hlt)), if_neg hlt⟩

theorem said_runToEnd (h : Waits c role d) (events : List Event) :
    said role (d.runToEnd events).reports = c.expected role events := by
  induction events generalizing d with
  | nil =>
    rw [said_runToEnd_nil h.sane, h.frame?]
    rfl
  | cons event rest ih =>
    rw [said_runToEnd_cons h.sane, h.listen, Config.expected]
    rcases h.step_cases event rest with ⟨waits, ht⟩ | ⟨bitTime, follows, ht⟩
    · rw [ht]
      exact ih waits
    · rw [ht]
      exact follows.said_runToEnd rest

end Waits

theorem waits_opened (config : Config) (role : Role) : Waits config role ⟨config, none, none, none⟩ :=
  ⟨sane_opened config, rfl, rfl, by cases role <;> rfl⟩

end Decoder

/-- Decoding a capture as it streams in gives every direction the reports that its segments give when each
is decoded at once. -/
theorem decode_eq_segments (config : Config) (h : config.validate = .ok ()) (events : List Event) :
    ∃ o, decode config events = .ok o ∧ o.result = .ok () ∧
      ∀ role, o.reports.filter (fun r => r.role = role) = config.expected role events := by
  let d : Decoder := ⟨config, none, none, none⟩
  have hd : d.Sane := Decoder.sane_opened config
  have hdecode : decode config events = .ok (d.runToEnd events) := by
    rw [decode, Decoder.opened_ok h]
    rfl
  refine ⟨d.runToEnd events, hdecode, ?_, fun role => ?_⟩
  · obtain ⟨hr, hs⟩ := Decoder.run_ok hd events
    rw [Decoder.runToEnd, Outcome.andThen_eq_of_ok hr]
    exact (Decoder.splits_step hs .flush).result
  · exact (Decoder.waits_opened config role).said_runToEnd events

/-- A byte too early to be heard, a query, and the first byte of another after a long silence. -/
def queries : List Event :=
  [.byte .tx ⟨0x11, 0, 8⟩, .timing 0 10] ++ statusQuery.map (.byte .tx) ++ [.byte .tx ⟨0x11, 1000, 1008⟩]

theorem decode_eq_segments_queries :
    let config : Config := {}
    config.validate = .ok () ∧
      Segment.cut 280 none (heard .tx (queries.drop 2)) =
        [⟨⟨0x11, 0, 8⟩, statusQuery.drop 1⟩, ⟨⟨0x11, 1000, 1008⟩, []⟩] ∧
      ∃ o, decode config queries = .ok o ∧
        o.reports.filter (fun r => r.role = .request) = config.expected .request queries := by
  intro config
  have hv : config.validate = .ok () := rfl
  obtain ⟨o, ho, -, hroles⟩ := decode_eq_segments config hv queries
  exact ⟨hv, by decide, o, ho, hroles .request⟩

end ModbusRtu
