import ModbusRtu.Proofs.Segments

/-! The two directions do not disturb each other. What a direction reports and what it holds depends only on
what it hears of its own line once the bit time is known, so two captures that sound the same to it come
out the same, whatever lies between its bytes on the other line. -/

namespace ModbusRtu

def Event.isOn (line : Line) : Event → Bool
  | .byte l _ => l = line
  | _ => false

/-- What is left of a capture when the bytes of `line` are taken out. -/
def without (line : Line) (events : List Event) : List Event := events.filter fun event => !event.isOn line

/-- The first timing marker that has a length comes before all bytes and tells `bitTime`. -/
inductive TimedFirst (bitTime : Time) : List Event → Prop
  | marker {start stop : Time} {rest : List Event} (h : start < stop) (told : stop.minus start = bitTime) :
      TimedFirst bitTime (.timing start stop :: rest)
  | idle {start stop : Time} {rest : List Event} (h : ¬ start < stop) (later : TimedFirst bitTime rest) :
      TimedFirst bitTime (.timing start stop :: rest)
  | flush {rest : List Event} (later : TimedFirst bitTime rest) : TimedFirst bitTime (.flush :: rest)

theorem TimedFirst.append {bitTime : Time} {events : List Event} (h : TimedFirst bitTime events)
    (more : List Event) : TimedFirst bitTime (events ++ more) := by
  induction h with
  | marker h told => exact .marker h told
  | idle h later ih => exact .idle h ih
  | flush later ih => exact .flush ih

theorem without_append (line : Line) (xs ys : List Event) :
    without line (xs ++ ys) = without line xs ++ without line ys :=
  List.filter_append ..

theorem heard_without {line other : Line} (h : other ≠ line) (events : List Event) :
    heard other (without line events) = heard other events := by
  have same (event : Event) : (if !event.isOn line then hears other event else none) = hears other event := by
    cases event with
    | timing start stop => rfl
    | flush => rfl
    | byte l b =>
      by_cases hl : l = line
      · have ne : l ≠ other := fun he => h (he.symm.trans hl)
        simp [Event.isOn, hears, hl, hl ▸ ne]
      · simp [Event.isOn, hl]
  simp only [heard, without, List.filterMap_filter, same]

theorem timed_without (line : Line) (events : List Event) :
    timed (without line events) = (timed events).map fun p => (p.1, without line p.2) := by
  induction events with
  | nil => rfl
  | cons event rest ih =>
    cases event with
    | timing start stop =>
      by_cases h : start < stop
      · simp [without, Event.isOn, timed, h]
      · simpa [without, Event.isOn, timed, h] using ih
    | flush => exact ih
    | byte l b =>
      by_cases h : l = line
      · simpa [without, Event.isOn, timed, h] using ih
      · simpa [without, Event.isOn, timed, h] using ih

/-- What the channel makes of all that it hears. -/
def Channel.run (k : Channel) (held : Option Frame) : List Signal → Outcome (Option Frame) Unit
  | [] => .done held ()
  | signal :: rest => (k.hear held signal).andThen fun held _ => k.run held rest

/-- What comes out of a capture for `role` alone. -/
def Config.outcome (c : Config) (role : Role) (events : List Event) : Outcome (Option Frame) Unit :=
  match timed events with
  | some (bitTime, rest) => (c.channel role bitTime).run none (heard (c.line role) rest)
  | none => .done none ()

/-- Flushes before the first byte end nothing, so it does not matter on which side of the marker they are. -/
theorem Config.outcome_of_timedFirst (c : Config) (role : Role) {bitTime : Time} {events : List Event}
    (h : TimedFirst bitTime events) :
    c.outcome role events = (c.channel role bitTime).run none (heard (c.line role) events) := by
  induction h with
  | @marker start stop rest h told =>
    have ht : timed (.timing start stop :: rest) = some (bitTime, rest) := told ▸ if_pos h
    rw [outcome, ht]
    rfl
  | @idle start stop rest h later ih =>
    have ht : timed (.timing start stop :: rest) = timed rest := if_neg h
    rw [outcome, ht]
    exact ih
  | flush later ih => exact ih

theorem Config.outcome_without (c : Config) {role : Role} {line : Line} (h : c.line role ≠ line)
    (events : List Event) : c.outcome role (without line events) = c.outcome role events := by
  rw [outcome, timed_without, outcome]
  cases timed events with
  | none => rfl
  | some p => simp only [Option.map_some, heard_without h]

namespace Decoder

theorem run_append (d : Decoder) (xs ys : List Event) :
    d.run (xs ++ ys) = (d.run xs).andThen fun d _ => d.run ys := by
  induction xs generalizing d with
  | nil => rfl
  | cons event rest ih =>
    rw [List.cons_append, run, run, Outcome.andThen_assoc]
    exact Outcome.andThen_congr fun _ _ => ih _

theorem runToEnd_eq_run (d : Decoder) (events : List Event) :
    d.runToEnd events = d.run (events ++ [.flush]) := by
  rw [run_append, runToEnd]
  exact Outcome.andThen_congr fun _ _ => (Outcome.andThen_done _).symm

/-- The outcome `o` of the decoder is for `role` the outcome `p` of its channel. -/
structure Projects (role : Role) (o : Outcome Decoder Unit) (p : Outcome (Option Frame) Unit) : Prop where
  reports : said role o.reports = p.reports
  frame? : o.state.frame? role = p.state

theorem Projects.cons {d : Decoder} (h : d.Sane) {role : Role} {event : Event} {rest : List Event}
    {p : Outcome (Option Frame) Unit} (later : Projects role ((d.step event).state.run rest) p) :
    Projects role (d.run (event :: rest))
      ⟨p.state, (d.listen role event).reports ++ p.reports, p.result⟩ := by
  have hs := splits_step h event
  rw [run, Outcome.andThen_eq_of_ok hs.result]
  exact ⟨by rw [said_append, hs.reports, later.reports], later.frame?⟩

theorem Follows.run {c : Config} {role : Role} {bitTime : Time} {current : Option Segment} {d : Decoder}
    (h : Follows c role bitTime current d) (events : List Event) :
    let k := c.channel role bitTime
    Projects role (d.run events) (k.run (k.held current) (heard (c.line role) events)) := by
  intro k
  induction events generalizing d current with
  | nil => exact ⟨rfl, h.frame?⟩
  | cons event rest ih =>
    cases hs : hears (c.line role) event with
    | none =>
      obtain ⟨silent, follows⟩ := h.deaf hs
      have later := Projects.cons h.sane (ih follows)
      rw [silent] at later
      rw [heard_cons_of_none hs]
      exact later
    | some signal =>
      obtain ⟨hl, follows⟩ := h.hearing hs
      have well := Channel.well_hear (k.holds_held current) signal
      have later := Projects.cons h.sane (ih follows)
      rw [heard_cons_of_some hs, Channel.run, Outcome.andThen_eq_of_ok well.result,
        (Channel.hear_held current signal).1]
      rw [hl] at later
      exact later

theorem Waits.run {c : Config} {role : Role} {d : Decoder} (h : Waits c role d) (events : List Event) :
    Projects role (d.run events) (c.outcome role events) := by
  induction events generalizing d with
  | nil => exact ⟨rfl, h.frame?⟩
  | cons event rest ih =>
    have unheard {p : Outcome (Option Frame) Unit}
        (later : Projects role ((d.step event).state.run rest) p) :
        Projects role (d.run (event :: rest)) p := by
      have all := Projects.cons h.sane later
      rw [h.listen] at all
      exact all
    rw [Config.outcome]
    rcases h.step_cases event rest with ⟨waits, ht⟩ | ⟨bitTime, follows, ht⟩
    · rw [ht]
      exact unheard (ih waits)
    · rw [ht]
      exact unheard (follows.run rest)

end Decoder

open ModbusRtu.Decoder

/-- Two runs that went well and are the same to `role`, in what it has reported and in the frame that it
holds open. -/
structure Alike (role : Role) (o p : Outcome Decoder Unit) : Prop where
  ok : o.result = .ok () ∧ p.result = .ok ()
  reports : said role o.reports = said role p.reports
  frame? : o.state.frame? role = p.state.frame? role

theorem alike_of_outcome (config : Config) {role : Role} {xs ys : List Event}
    (h : config.outcome role xs = config.outcome role ys) :
    let d : Decoder := ⟨config, none, none, none⟩
    Alike role (d.run xs) (d.run ys) := by
  intro d
  have waits := waits_opened config role
  have px := waits.run xs
  have py := waits.run ys
  exact {
    ok := ⟨(run_ok waits.sane xs).1, (run_ok waits.sane ys).1⟩
    reports := by rw [px.reports, py.reports, h]
    frame? := by rw [px.frame?, py.frame?, h] }

/-- Captures that tell the same bit time before all bytes and have the same bytes on each line between the
same flushes come out the same for both directions, however the lines are interleaved. And whatever is done
to the bytes of one line, a direction on the other line does not notice. -/
theorem directions_independent (config : Config) (h : config.validate = .ok ()) :
    ∃ d, Decoder.opened config = .ok d ∧
      (∀ bitTime xs ys, TimedFirst bitTime xs → TimedFirst bitTime ys →
        (∀ line, heard line xs = heard line ys) →
        ∀ role, Alike role (d.run xs) (d.run ys) ∧ Alike role (d.runToEnd xs) (d.runToEnd ys)) ∧
      (∀ line xs ys, without line xs = without line ys →
        ∀ role, config.line role ≠ line →
          Alike role (d.run xs) (d.run ys) ∧ Alike role (d.runToEnd xs) (d.runToEnd ys)) := by
  refine ⟨_, Decoder.opened_ok h, fun bitTime xs ys hx hy same role => ?_,
    fun line xs ys same role other => ?_⟩
  · simp only [runToEnd_eq_run]
    constructor
    · refine alike_of_outcome config ?_
      rw [config.outcome_of_timedFirst role hx, config.outcome_of_timedFirst role hy, same]
    · refine alike_of_outcome config ?_
      rw [config.outcome_of_timedFirst role (hx.append _), config.outcome_of_timedFirst role (hy.append _),
        heard_append, heard_append, same]
  · simp only [runToEnd_eq_run]
    constructor
    · refine alike_of_outcome config ?_
      rw [← config.outcome_without other xs, same, config.outcome_without other]
    · refine alike_of_outcome config ?_
      rw [← config.outcome_without other (xs ++ _), without_append, same, ← without_append,
        config.outcome_without other]

/-- A query on one line, and then the same bytes on the other. -/
def inTurn : List Event := .timing 0 10 :: (statusQuery.map (.byte .tx) ++ statusQuery.map (.byte .rx))

/-- The same bytes on both lines at once. -/
def atOnce : List Event := .timing 0 10 :: statusQuery.flatMap fun b => [.byte .rx b, .byte .tx b]

theorem directions_independent_statusQuery :
    let config : Config := {}
    let alone : List Event := .timing 0 10 :: statusQuery.map (.byte .tx)
    config.validate = .ok () ∧ inTurn ≠ atOnce ∧ TimedFirst 10 inTurn ∧ TimedFirst 10 atOnce ∧
      (∀ line, heard line inTurn = heard line atOnce) ∧ without .rx atOnce = without .rx alone ∧
      config.line .request ≠ .rx ∧
      ∃ d, Decoder.opened config = .ok d ∧
        (∀ role, Alike role (d.runToEnd inTurn) (d.runToEnd atOnce)) ∧
        Alike .request (d.run atOnce) (d.run alone) := by
  intro config alone
  have hv : config.validate = .ok () := rfl
  have turn : TimedFirst 10 inTurn := .marker (by decide) rfl
  have once : TimedFirst 10 atOnce := .marker (by decide) rfl
  have same (line : Line) : heard line inTurn = heard line atOnce := by cases line <;> rfl
  have left : without .rx atOnce = without .rx alone := rfl
  have other : config.line .request ≠ .rx := by decide
  obtain ⟨d, hd, woven, edited⟩ := directions_independent config hv
  have both (role : Role) := (woven 10 _ _ turn once same role).2
  exact ⟨hv, by decide, turn, once, same, left, other, d, hd, both, (edited .rx _ _ left .request other).1⟩

end ModbusRtu
