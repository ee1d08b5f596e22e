import ModbusRtu.Proofs.Extent
import ModbusRtu.Proofs.Ledger

/-! Frames with silence between them never share time. The margin behind a frame is no longer than the silence
that ends it, so all that is reported on the frame is over before the byte that comes too late for it starts.
If the bytes of a line start in order, that byte is the first of the next frame and nothing is reported
before it, so frames follow each other in time as they do in the ledger. -/

namespace ModbusRtu

/-- The bytes heard on `line`. -/
def bytesOn (line : Line) (events : List Event) : List Byte := (heard line events).filterMap Signal.byte?

namespace Segment

variable {silence : Time} {current : Option Segment} {signals : List Signal}

theorem late_of_mem_next {s : Segment} {b : Byte} (h : s ∈ (next silence current (.byte b)).1) :
    silence < b.start.minus s.reach := by
  cases current with
  | none => cases h
  | some t =>
    rw [next] at h
    split at h
    · cases h
    · rename_i late
      rw [List.mem_singleton.mp h]
      exact UInt64.not_le.mp late

theorem late_of_mem_ended {p : Segment × Option Byte} {b : Byte} (h : p ∈ ended silence current signals)
    (hb : p.2 = some b) : silence < b.start.minus p.1.reach := by
  induction signals generalizing current with
  | nil => cases h
  | cons signal rest ih =>
    rcases List.mem_append.mp h with h | h
    · obtain ⟨s, hs, rfl⟩ := List.mem_map.mp h
      cases signal with
      | flush => cases hb
      | byte a =>
        obtain rfl := Option.some.inj hb
        exact late_of_mem_next hs
    · exact ih h

theorem bytes_next (silence : Time) (current : Option Segment) (signal : Signal) :
    (next silence current signal).1.flatMap bytes ++ (next silence current signal).2.toList.flatMap bytes =
      current.toList.flatMap bytes ++ signal.byte?.toList := by
  cases current with
  | none => cases signal <;> rfl
  | some s =>
    cases signal with
    | flush => simp [next, Signal.byte?]
    | byte b =>
      rw [next]
      split
      · simp [bytes, push, Signal.byte?]
      · simp [bytes, Signal.byte?]

theorem bytes_cut (silence : Time) (current : Option Segment) (signals : List Signal) :
    (cut silence current signals).flatMap bytes =
      current.toList.flatMap bytes ++ signals.filterMap Signal.byte? := by
  induction signals generalizing current with
  | nil => simp [cut]
  | cons signal rest ih =>
    have parts := bytes_next silence current signal
    rw [cut, List.flatMap_append, ih, ← List.append_assoc, parts, List.append_assoc, List.filterMap_cons]
    cases signal.byte? <;> rfl

theorem bytes_sublist {p : Segment × Option Byte} (h : p ∈ ended silence current (signals ++ [.flush])) :
    p.1.bytes.Sublist (current.toList.flatMap bytes ++ signals.filterMap Signal.byte?) := by
  have hmem : p.1 ∈ cut silence current signals := by
    rw [← map_fst_ended]
    exact List.mem_map_of_mem h
  rw [← bytes_cut silence]
  exact List.sublist_flatten_of_mem (List.mem_map_of_mem hmem)

/-- Without flushes, the byte that came too late for a segment is no later than the segments after it. -/
theorem pairwise_ended (bytesOnly : ∀ signal ∈ signals, signal.byte?.isSome)
    (ordered : StartInOrder (current.toList.flatMap bytes ++ signals.filterMap Signal.byte?)) :
    (ended silence current (signals ++ [.flush])).Pairwise fun p q =>
      ∃ b, p.2 = some b ∧ b.start ≤ q.1.first.start := by
  induction signals generalizing current with
  | nil => cases current <;> simp [ended, next]
  | cons signal rest ih =>
    obtain ⟨now, later⟩ := List.forall_mem_cons.mp bytesOnly
    obtain ⟨b, hb⟩ := Option.isSome_iff_exists.mp now
    have parts := bytes_next silence current signal
    have whole : (next silence current signal).1.flatMap bytes ++
        ((next silence current signal).2.toList.flatMap bytes ++ rest.filterMap Signal.byte?) =
          current.toList.flatMap bytes ++ (signal :: rest).filterMap Signal.byte? := by
      rw [← List.append_assoc, parts, List.filterMap_cons_some hb, hb]
      simp
    have ordered' := ordered.sublist (whole ▸ List.sublist_append_right _ _)
    refine List.pairwise_append.mpr ⟨?_, ih later ordered', ?_⟩
    · rcases next_cases silence current signal with h | ⟨s, -, h⟩ <;> simp [h]
    · rintro p hp q hq
      obtain ⟨s, hs, rfl⟩ := List.mem_map.mp hp
      refine ⟨b, hb, ?_⟩
      -- the byte that ends a segment opens the next one, so it is the first of all bytes still to come
      have hfirst : q.1.first ∈ q.1.bytes := List.mem_cons_self
      have hmem := (bytes_sublist hq).subset hfirst
      rcases next_cases silence current signal with h | ⟨s, -, h⟩
      · rw [h] at hs
        cases hs
      · rw [h, hb] at hmem ordered'
        exact ordered'.head_le hmem

end Segment

namespace Channel

variable {k : Channel}

theorem keeps_decode (k : Channel) (s : Segment) : (k.frame s).Keeps k.options.margin (k.decode s) :=
  (k.grammar.keeps_parse (k.frame s) _).andThen fun _ => k.grammar.keeps_close k.options _

theorem entry_stop_le (k : Channel) (p : Segment × Option Byte) :
    ∀ r ∈ (k.entry p).reports, r.stop ≤ (k.entry p).frame.lastRead.plus k.options.margin := by
  intro r hr
  rw [lastRead_entry]
  exact ((k.keeps_decode p.1).extents r hr).stop_le

theorem entry_forward {p : Segment × Option Byte} (ordered : StartInOrder p.1.bytes) :
    ∀ r ∈ (k.entry p).reports, p.1.first.start ≤ r.start ∧ r.start ≤ r.stop :=
  fun r hr => ((k.keeps_decode p.1).extents r hr).forward ordered

end Channel

/-- All that was said of a frame was over before `b` started, with the margin behind the last byte of the
frame. The clock is long enough for all that is computed on the way. -/
structure Closed.OverBefore (c : Config) (bitTime : Time) (e : Closed) (b : Byte) : Prop where
  silence : (c.silence bitTime).toNat = bitTime.toNat * c.frameGapBits.toNat
  margin : (c.closeMargin bitTime).toNat = bitTime.toNat * (min c.closeMarginBits c.frameGapBits).toNat
  reach : (e.frame.lastRead.plus (c.closeMargin bitTime)).toNat =
    e.frame.lastRead.toNat + (c.closeMargin bitTime).toNat
  ahead : e.frame.lastRead.plus (c.closeMargin bitTime) < b.start
  reports : ∀ r ∈ e.reports, r.stop < b.start

theorem Config.overBefore_entry (c : Config) (role : Role) {bitTime : Time} {p : Segment × Option Byte}
    {b : Byte} (late : bitTime.times c.frameGapBits < b.start.minus p.1.reach) :
    ((c.channel role bitTime).entry p).OverBefore c bitTime b := by
  have bits : (min c.closeMarginBits c.frameGapBits).toNat ≤ c.frameGapBits.toNat := by
    rw [← UInt64.le_iff_toNat_le]
    exact Std.min_le_right
  have less := Nat.mul_le_mul_left bitTime.toNat bits
  have silence : (c.silence bitTime).toNat = _ := bitTime.toNat_times c.frameGapBits
  have margin : (c.closeMargin bitTime).toNat = _ := bitTime.toNat_times (min c.closeMarginBits c.frameGapBits)
  have late : (c.silence bitTime).toNat < b.start.toNat - p.1.reach.toNat := by
    rw [← Time.toNat_minus, ← UInt64.lt_iff_toNat_lt]
    exact late
  have clock := b.start.toNat_le_lastTick
  have reach := Time.toNat_plus p.1.reach (c.closeMargin bitTime)
  have ahead : p.1.reach.plus (c.closeMargin bitTime) < b.start := by
    rw [UInt64.lt_iff_toNat_lt]
    omega
  rw [← Channel.lastRead_entry (c.channel role bitTime)] at late reach ahead
  exact {
    silence := by omega
    margin := by omega
    reach := by omega
    ahead := ahead
    reports := fun r hr => UInt64.lt_of_le_of_lt (Channel.entry_stop_le _ p r hr) ahead }

/-- Without flushes, what is said of a frame is over before anything is said of the next one. -/
theorem Config.pairwise_entry (c : Config) (role : Role) (bitTime : Time) {signals : List Signal}
    (bytesOnly : ∀ signal ∈ signals, signal.byte?.isSome)
    (ordered : StartInOrder (signals.filterMap Signal.byte?)) :
    let k := c.channel role bitTime
    (Segment.ended (bitTime.times c.frameGapBits) none (signals ++ [.flush])).Pairwise fun p q =>
      ∀ r ∈ (k.entry p).reports, ∀ r' ∈ (k.entry q).reports, r.stop ≤ r'.start := by
  intro k
  have whole : StartInOrder ((none : Option Segment).toList.flatMap Segment.bytes ++
      signals.filterMap Signal.byte?) := ordered
  refine (Segment.pairwise_ended bytesOnly whole).imp_of_mem ?_
  rintro p q hp hq ⟨b, hb, next⟩ r hr r' hr'
  have ahead := (c.overBefore_entry role (Segment.late_of_mem_ended hp hb)).reports r hr
  have starts := (Channel.entry_forward (ordered.sublist (Segment.bytes_sublist hq)) r' hr').1
  exact UInt64.le_of_lt (UInt64.lt_of_lt_of_le ahead (UInt64.le_trans next starts))

theorem timed_sublist {events rest : List Event} {bitTime : Time} (h : timed events = some (bitTime, rest)) :
    rest.Sublist events := by
  induction events with
  | nil => cases h
  | cons event later ih =>
    cases event with
    | byte line b => exact .cons _ (ih h)
    | flush => exact .cons _ (ih h)
    | timing start stop =>
      rw [timed] at h
      split at h
      · obtain ⟨-, rfl⟩ := Prod.mk.inj (Option.some.inj h)
        exact .cons _ (.refl _)
      · exact .cons _ (ih h)

theorem byte?_isSome_of_mem_heard {line : Line} {events : List Event} (h : Event.flush ∉ events) :
    ∀ signal ∈ heard line events, signal.byte?.isSome := by
  intro signal hs
  obtain ⟨event, he, hears⟩ := List.mem_filterMap.mp hs
  cases event with
  | timing start stop => cases hears
  | flush => exact absurd he h
  | byte l b =>
    obtain ⟨-, he⟩ := Option.ite_none_right_eq_some.mp hears
    exact Option.some.inj he ▸ rfl

theorem Decoder.Waits.exists_entry {c : Config} {role : Role} {d : Decoder} (h : Waits c role d)
    {before : List Event} {b : Byte} {after : List Event} {f : Frame}
    (hf : (d.run before).state.frame? role = some f) :
    let events := before ++ .byte (c.line role) b :: after
    let bitTime := (d.run events).state.bitTime.getD 0
    f.continuesWith (c.silence bitTime) b = false →
      ∃ e ∈ d.closed role [] (events ++ [.flush]), e.frame = f ∧ e.next = some b := by
  intro events bitTime late
  rcases h.run_cases before with ⟨-, waits⟩ | ⟨told, rest, ht, follows⟩
  · rw [waits.frame?] at hf
    cases hf
  · have same : bitTime = told := by
      simp only [bitTime, events, h.bitTime_run, timed_append, ht]
      rfl
    have hc := follows.closing?_of_late hf (same ▸ late)
    rw [show events ++ [.flush] = before ++ .byte (c.line role) b :: (after ++ [.flush]) from
      List.append_assoc _ _ _]
    exact exists_mem_closed h.sane hc [] _

/-- Silence keeps frames apart. The ledger has all reports of the direction, and an entry for every frame that
a byte came too late for. All that was ever reported on such a frame is over before the byte starts. If the
bytes on the line start in order, every report on a frame lies between the start of its first byte and the
margin behind its last one, and as long as nothing flushes the decoder, no report on a frame starts before
one on an earlier frame of the direction is over. -/
theorem frames_keep_apart (config : Config) (h : config.validate = .ok ()) (role : Role)
    (events : List Event) :
    ∃ d, Decoder.opened config = .ok d ∧
      let frames := d.closed role [] (events ++ [.flush])
      let bitTime := (d.run events).state.bitTime.getD 0
      let margin := config.closeMargin bitTime
      Decoder.said role (d.runToEnd events).reports = frames.flatMap Closed.reports ∧
      (∀ before b after f, events = before ++ .byte (config.line role) b :: after →
        (d.run before).state.frame? role = some f → f.continuesWith (config.silence bitTime) b = false →
        ∃ e ∈ frames, e.frame = f ∧ e.next = some b) ∧
      (∀ e ∈ frames, ∀ b, e.next = some b → e.OverBefore config bitTime b) ∧
      (StartInOrder (bytesOn (config.line role) events) →
        (∀ e ∈ frames, ∃ first, e.frame.bytes.head? = some first ∧
          ∀ r ∈ e.reports, first.start ≤ r.start ∧ r.start ≤ r.stop ∧
            r.stop ≤ e.frame.lastRead.plus margin) ∧
        (.flush ∉ events →
          frames.Pairwise fun e e' => ∀ r ∈ e.reports, ∀ r' ∈ e'.reports, r.stop ≤ r'.start)) := by
  have waits := Decoder.waits_opened config role
  refine ⟨_, Decoder.opened_ok h, ?_, ?_, ?_⟩
  · rw [waits.closed, waits.said_runToEnd, config.reports_ledger]
  · rintro before b after f rfl hf late
    exact waits.exists_entry hf late
  rw [waits.closed, waits.bitTime_run]
  cases ht : timed events with
  | none =>
    rw [config.ledger_of_untimed role ht]
    exact ⟨List.forall_mem_nil _, fun _ => ⟨List.forall_mem_nil _, fun _ => .nil⟩⟩
  | some p =>
    obtain ⟨bitTime, rest⟩ := p
    rw [config.ledger_of_timed role ht]
    simp only [Option.map_some, Option.getD_some, List.forall_mem_map, List.pairwise_map]
    refine ⟨fun p hp b hb => config.overBefore_entry role (Segment.late_of_mem_ended hp hb), fun ordered => ?_⟩
    have ordered : StartInOrder (bytesOn (config.line role) rest) :=
      ordered.sublist (((timed_sublist ht).filterMap _).filterMap _)
    refine ⟨fun p hp => ⟨p.1.first, ?_, fun r hr => ?_⟩, fun quiet => ?_⟩
    · rw [Channel.bytes_entry]
      rfl
    · obtain ⟨starts, straight⟩ := Channel.entry_forward (ordered.sublist (Segment.bytes_sublist hp)) r hr
      exact ⟨starts, straight, Channel.entry_stop_le _ p r hr⟩
    · have quiet : .flush ∉ rest := fun hmem => quiet ((timed_sublist ht).subset hmem)
      exact config.pairwise_entry role bitTime (byte?_isSome_of_mem_heard quiet) ordered

/-- The byte after the long silence closes the query, and the end of the capture the rest. -/
theorem frames_keep_apart_queries :
    let config : Config := {}
    config.validate = .ok () ∧ StartInOrder (bytesOn .tx queries) ∧ Event.flush ∉ queries ∧
      ∃ d, Decoder.opened config = .ok d ∧
        let frames := d.closed .request [] (queries ++ [.flush])
        frames.map (fun e => (e.frame.length, e.next)) = [(4, some ⟨0x11, 1000, 1008⟩), (1, none)] ∧
        (∀ e ∈ frames, ∀ b, e.next = some b → e.OverBefore config 10 b) ∧
        frames.Pairwise fun e e' => ∀ r ∈ e.reports, ∀ r' ∈ e'.reports, r.stop ≤ r'.start := by
  intro config
  have hv : config.validate = .ok () := rfl
  have ordered : StartInOrder (bytesOn .tx queries) := ⟨by decide, by decide⟩
  have quiet : Event.flush ∉ queries := by decide
  obtain ⟨d, hd, -, -, before, within⟩ := frames_keep_apart config hv .request queries
  obtain rfl := Except.ok.inj ((Decoder.opened_ok hv).symm.trans hd)
  rw [(Decoder.waits_opened config .request).bitTime_run] at before
  exact ⟨hv, ordered, quiet, _, hd, by decide +kernel, before, (within ordered).2 quiet⟩

end ModbusRtu
