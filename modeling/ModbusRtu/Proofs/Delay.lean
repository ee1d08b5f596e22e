import Mathlib.Data.List.Forall2
import ModbusRtu.Proofs.Independence
import ModbusRtu.Proofs.Operation
import ModbusRtu.Proofs.Untimed

/-! A capture that begins later. The decoder compares times with each other and with nothing else, so if all
times of a capture are some ticks later, all that is said of it is as many ticks later, and the rest is the
same. The clock must not end meanwhile: the only time that the decoder makes itself is that of a margin behind
the last byte of a frame. -/

namespace ModbusRtu

namespace Time

/-- The time is `ticks` later in the second capture. -/
def Delayed (ticks : Nat) (t u : Time) : Prop := u.toNat = t.toNat + ticks

def delay (ticks : Nat) (t : Time) : Time := .ofNat (t.toNat + ticks)

variable {ticks : Nat} {t u t' u' : Time}

theorem delayed_delay (h : t.toNat + ticks < UInt64.size) : t.Delayed ticks (t.delay ticks) :=
  UInt64.toNat_ofNat_of_lt' h

theorem Delayed.later (ht : t.Delayed ticks t') (hu : u.Delayed ticks u') :
    (t.later u).Delayed ticks (t'.later u') := by
  unfold Delayed at *
  rw [toNat_later, toNat_later, ht, hu]
  omega

theorem Delayed.minus (ht : t.Delayed ticks t') (hu : u.Delayed ticks u') : t.minus u = t'.minus u' := by
  unfold Delayed at *
  rw [← UInt64.toNat_inj, toNat_minus, toNat_minus, ht, hu]
  omega

theorem Delayed.plus (ht : t.Delayed ticks t') {margin : Time} (room : t'.toNat + margin.toNat < UInt64.size) :
    (t.plus margin).Delayed ticks (t'.plus margin) := by
  unfold Delayed at *
  rw [toNat_plus, toNat_plus, ht]
  rw [ht] at room
  unfold lastTick
  omega

theorem zero_times (t : Time) : (0 : Time).times t = 0 := by
  rw [← UInt64.toNat_inj, toNat_times, UInt64.toNat_zero, Nat.zero_mul, Nat.zero_min]

end Time

structure Byte.Delayed (ticks : Nat) (b c : Byte) : Prop where
  value : b.value = c.value
  start : b.start.Delayed ticks c.start
  stop : b.stop.Delayed ticks c.stop

structure Report.Delayed (ticks : Nat) (r s : Report) : Prop where
  untimed : r.untimed = s.untimed
  start : r.start.Delayed ticks s.start
  stop : r.stop.Delayed ticks s.stop

structure Frame.Delayed (ticks : Nat) (f g : Frame) : Prop extends f.Alike g where
  bytes : List.Forall₂ (Byte.Delayed ticks) f.bytes g.bytes
  start : f.start.Delayed ticks g.start
  lastRead : f.lastRead.Delayed ticks g.lastRead

/-- The outcome is the same but for times, and those are `ticks` later. -/
structure Outcome.Delayed {σ α : Type} (ticks : Nat) (R : σ → σ → Prop) (o p : Outcome σ α) : Prop where
  state : R o.state p.state
  reports : List.Forall₂ (Report.Delayed ticks) o.reports p.reports
  result : o.result = p.result

/-- There is room for a margin behind the byte before the clock ends. -/
structure Byte.DelayedWithin (ticks : Nat) (margin : Time) (b c : Byte) : Prop extends b.Delayed ticks c where
  room : max c.start.toNat c.stop.toNat + margin.toNat < UInt64.size

/-- There is room for a margin behind the frame before the clock ends. -/
structure Frame.DelayedWithin (ticks : Nat) (margin : Time) (f g : Frame) : Prop extends f.Delayed ticks g where
  room : g.lastRead.toNat + margin.toNat < UInt64.size

namespace Outcome

variable {σ τ α β : Type} {ticks : Nat} {R : σ → σ → Prop}

theorem delayed_done {s t : σ} (h : R s t) (a : α) : (done s a).Delayed ticks R (done t a) := ⟨h, .nil, rfl⟩

namespace Delayed

variable {o p : Outcome σ α}

theorem andThen {next next' : σ → α → Outcome σ β} (h : o.Delayed ticks R p)
    (hn : ∀ a, R o.state p.state → (next o.state a).Delayed ticks R (next' p.state a)) :
    (o.andThen next).Delayed ticks R (p.andThen next') := by
  cases hr : o.result with
  | error fault =>
    have hr' : p.result = .error fault := h.result.symm.trans hr
    simp only [Outcome.andThen, hr, hr']
    exact ⟨h.state, h.reports, rfl⟩
  | ok a =>
    have later := hn a h.state
    rw [andThen_eq_of_ok hr, andThen_eq_of_ok (h.result.symm.trans hr)]
    exact ⟨later.state, List.rel_append h.reports later.reports, later.result⟩

theorem imp {S : σ → σ → Prop} (h : o.Delayed ticks R p) (hs : R o.state p.state → S o.state p.state) :
    o.Delayed ticks S p :=
  ⟨hs h.state, h.reports, h.result⟩

theorem mapState {S : τ → τ → Prop} {f g : σ → τ} (h : o.Delayed ticks R p)
    (hs : R o.state p.state → S (f o.state) (g p.state)) : (o.mapState f).Delayed ticks S (p.mapState g) :=
  ⟨hs h.state, h.reports, h.result⟩

end Delayed

end Outcome

theorem Byte.delayed_of_getElem? {ticks : Nat} {bytes bytes' : List Byte}
    (h : List.Forall₂ (Byte.Delayed ticks) bytes bytes') {i : Nat} {b c : Byte} (hb : bytes[i]? = some b)
    (hc : bytes'[i]? = some c) : b.Delayed ticks c := by
  obtain ⟨hi, rfl⟩ := List.getElem?_eq_some_iff.mp hb
  obtain ⟨hi', rfl⟩ := List.getElem?_eq_some_iff.mp hc
  exact h.get hi hi'

/-- Reports on bytes are delayed like the bytes. -/
theorem Report.delayed_of_fits {ticks : Nat} {bytes bytes' : List Byte}
    (h : List.Forall₂ (Byte.Delayed ticks) bytes bytes') {r s : Report} (untimed : r.untimed = s.untimed)
    (tied : r.covers.isSome) (hr : r.Fits bytes) (hs : s.Fits bytes') : r.Delayed ticks s := by
  obtain ⟨⟨first, last⟩, hcovers⟩ := Option.isSome_iff_exists.mp tied
  have hcovers' : s.covers = some (first, last) := (congrArg (·.2.2) untimed).symm.trans hcovers
  obtain ⟨-, head, final, hhead, hfinal, start, stop⟩ := hr first last hcovers
  obtain ⟨-, head', final', hhead', hfinal', start', stop'⟩ := hs first last hcovers'
  exact ⟨untimed, start ▸ start' ▸ (Byte.delayed_of_getElem? h hhead hhead').start,
    stop ▸ stop' ▸ (Byte.delayed_of_getElem? h hfinal hfinal').stop⟩

namespace Frame.DelayedWithin

open Outcome

variable {ticks : Nat} {margin : Time} {f g : Frame}

theorem opened (role : Role) {b c : Byte} (h : b.DelayedWithin ticks margin c) :
    (Frame.opened role b.start).DelayedWithin ticks margin (Frame.opened role c.start) where
  toAlike := alike_opened role _ _
  bytes := .nil
  start := h.start
  lastRead := h.start
  room := by
    have := h.room
    show c.start.toNat + _ < _
    omega

theorem append (h : f.DelayedWithin ticks margin g) {b c : Byte} (hb : b.DelayedWithin ticks margin c) :
    (f.append b).DelayedWithin ticks margin (g.append c) where
  toAlike := h.toAlike.append hb.value
  bytes := List.rel_append h.bytes (.cons hb.toDelayed .nil)
  start := h.start
  lastRead := h.lastRead.later hb.stop
  room := by
    have := h.room
    have := hb.room
    rw [Frame.append, Time.toNat_later]
    omega

/-- What covers bytes is delayed like the bytes, and the rest of what a frame goes through has no times. -/
theorem of_tied {α : Type} (h : f.DelayedWithin ticks margin g) {o p : Outcome Frame α} (ho : f.Evolves o)
    (hp : g.Evolves p) (alike : o.Alike p) (tied : ∀ r ∈ o.reports, r.covers.isSome) :
    o.Delayed ticks (DelayedWithin ticks margin) p where
  state := {
    toAlike := alike.state
    bytes := by
      rw [ho.bytes, hp.bytes]
      exact h.bytes
    start := by
      rw [ho.start, hp.start]
      exact h.start
    lastRead := by
      rw [ho.lastRead, hp.lastRead]
      exact h.lastRead
    room := by
      rw [hp.lastRead]
      exact h.room }
  reports := by
    have length := congrArg List.length alike.reports
    rw [List.length_map, List.length_map] at length
    refine List.forall₂_iff_get.mpr ⟨length, fun i hi hi' => ?_⟩
    have untimed := List.getElem_of_eq alike.reports ((List.length_map _).symm ▸ hi)
    rw [List.getElem_map, List.getElem_map] at untimed
    have mem := List.getElem_mem hi
    exact Report.delayed_of_fits h.bytes untimed (tied _ mem) (ho.fits _ mem)
      (hp.fits _ (List.getElem_mem hi'))
  result := alike.result

theorem reportIfNew (h : f.DelayedWithin ticks margin g) (last : Nat) (note : Except Fault Note) :
    (f.reportIfNew last note).Delayed ticks (DelayedWithin ticks margin) (g.reportIfNew last note) :=
  h.of_tied (evolves_reportIfNew f last note) (evolves_reportIfNew g last note)
    (h.toAlike.reportIfNew last note) (tied_operate f (.report last note))

theorem parse (k : Grammar) (h : f.DelayedWithin ticks margin g) :
    (k.parse f).Delayed ticks (DelayedWithin ticks margin) (k.parse g) :=
  h.of_tied (k.evolves_parse f) (k.evolves_parse g) (k.alike_parse h.toAlike) (tied_operate f (.parse k))

/-- The ends of a span, or the reason why there are none. -/
inductive Ends (ticks : Nat) : Except Fault (Time × Time) → Except Fault (Time × Time) → Prop
  | found {ends ends' : Time × Time} (start : ends.1.Delayed ticks ends'.1) (stop : ends.2.Delayed ticks ends'.2) :
      Ends ticks (.ok ends) (.ok ends')
  | fault (fault : Fault) : Ends ticks (.error fault) (.error fault)

theorem reportWithin (h : f.DelayedWithin ticks margin g) {times times' : Except Fault (Time × Time)}
    (ends : Ends ticks times times') (note : Note) :
    (f.reportWithin times note).Delayed ticks (DelayedWithin ticks margin) (g.reportWithin times' note) := by
  cases ends with
  | @found ends ends' start stop =>
    have alike := h.toAlike.reportBetween ends.1 ends.2 ends'.1 ends'.2 note
    have untimed := congrArg List.head? alike.reports
    exact {
      state := { h with toAlike := alike.state }
      reports := .cons ⟨Option.some.inj untimed, start, stop⟩ .nil
      result := rfl }
  | fault fault => exact ⟨h, .nil, rfl⟩

/-- Both frames have a byte at a place, or none of them has. -/
theorem byteAt_cases (h : f.DelayedWithin ticks margin g) (index : Nat) :
    (f.byteAt index = .error .cursorOutside ∧ g.byteAt index = .error .cursorOutside) ∨
      ∃ b c, f.byteAt index = .ok b ∧ g.byteAt index = .ok c ∧ b.Delayed ticks c := by
  rw [byteAt, byteAt]
  rcases h.getElem? index with ⟨hf, hg⟩ | ⟨b, c, hf, hg⟩
  · rw [hf, hg]
    exact Or.inl ⟨rfl, rfl⟩
  · rw [hf, hg]
    exact Or.inr ⟨b, c, rfl, rfl, Byte.delayed_of_getElem? h.bytes hf hg⟩

theorem ends_byteAt (h : f.DelayedWithin ticks margin g) (index : Nat) {ends ends' : Byte → Time × Time}
    (found : ∀ b c, b.Delayed ticks c →
      (ends b).1.Delayed ticks (ends' c).1 ∧ (ends b).2.Delayed ticks (ends' c).2) :
    Ends ticks ((f.byteAt index).map ends) ((g.byteAt index).map ends') := by
  rcases h.byteAt_cases index with ⟨hf, hg⟩ | ⟨b, c, hf, hg, hb⟩
  · rw [hf, hg]
    exact .fault _
  · rw [hf, hg]
    exact .found (found b c hb).1 (found b c hb).2

section Closing

variable {closing : Time} (within : closing ≤ margin)

include within

theorem reach (h : f.DelayedWithin ticks margin g) :
    (f.lastRead.plus closing).Delayed ticks (g.lastRead.plus closing) := by
  have room := h.room
  rw [UInt64.le_iff_toNat_le] at within
  exact h.lastRead.plus (by omega)

theorem ends_oversizedTimes (h : f.DelayedWithin ticks margin g) :
    Ends ticks (f.oversizedTimes closing) (g.oversizedTimes closing) := by
  rw [oversizedTimes, oversizedTimes, h.errorCovers, h.lastIndex]
  split
  · exact h.ends_byteAt _ fun b c hb => ⟨hb.stop, h.reach within⟩
  · exact h.ends_byteAt _ fun b c hb => ⟨hb.start, hb.stop⟩

theorem ends_tooShortTimes (h : f.DelayedWithin ticks margin g) :
    Ends ticks (f.tooShortTimes closing) (g.tooShortTimes closing) := by
  rw [tooShortTimes, tooShortTimes, h.lastCovered?]
  split
  · exact h.ends_byteAt _ fun b c hb => ⟨hb.stop, h.reach within⟩
  · exact .found h.start (h.reach within)

theorem reportOversized (h : f.DelayedWithin ticks margin g) :
    (f.reportOversized closing).Delayed ticks (DelayedWithin ticks margin) (g.reportOversized closing) := by
  simp only [Frame.reportOversized, h.length, h.lastIndex]
  split
  · refine (h.reportIfNew _ _).andThen fun progress h => ?_
    cases progress with
    | settled => exact h.reportWithin (h.ends_oversizedTimes within) _
    | reported => exact delayed_done h ()
    | waiting => exact delayed_done h ()
  · exact delayed_done h ()

theorem reportLength (h : f.DelayedWithin ticks margin g) (parsed : Progress) :
    (f.reportLength parsed closing).Delayed ticks (DelayedWithin ticks margin)
      (g.reportLength parsed closing) := by
  simp only [Frame.reportLength, h.length, h.minimumLength, h.lastIndex]
  split
  · exact h.reportWithin (h.ends_tooShortTimes within) _
  split
  · exact (h.reportIfNew _ _).andThen fun _ h => delayed_done h ()
  · exact delayed_done h ()

end Closing

theorem ends_wholeTimes (h : f.DelayedWithin ticks margin g) : Ends ticks f.wholeTimes g.wholeTimes := by
  rw [wholeTimes, wholeTimes, h.lastIndex]
  rcases h.byteAt_cases 0 with ⟨hf, hg⟩ | ⟨b, c, hf, hg, first⟩
  · rw [hf, hg]
    exact .fault _
  rcases h.byteAt_cases g.lastIndex with ⟨hf', hg'⟩ | ⟨b', c', hf', hg', final⟩
  · rw [hf, hg, hf', hg']
    exact .fault _
  · rw [hf, hg, hf', hg']
    exact .found first.start final.stop

theorem reportUnknown (h : f.DelayedWithin ticks margin g) (recognizes : UInt8 → Bool) :
    (f.reportUnknown recognizes).Delayed ticks (DelayedWithin ticks margin) (g.reportUnknown recognizes) := by
  simp only [Frame.reportUnknown, h.value? 1, h.length, h.lastIndex]
  split
  · split
    · exact (h.reportIfNew _ _).andThen fun _ h => delayed_done h ()
    · exact delayed_done h ()
  · exact delayed_done h ()

theorem markErrors (h : f.DelayedWithin ticks margin g) (wanted : Bool) :
    (f.markErrors wanted).Delayed ticks (DelayedWithin ticks margin) (g.markErrors wanted) := by
  rw [Frame.markErrors, Frame.markErrors, h.hasError]
  split
  · exact h.reportWithin h.ends_wholeTimes _
  · exact delayed_done h ()

theorem close (k : Grammar) (h : f.DelayedWithin ticks margin g) {options : CloseOptions}
    (within : options.margin ≤ margin) :
    (k.close options f).Delayed ticks (DelayedWithin ticks margin) (k.close options g) := by
  refine (h.parse k).andThen fun parsed h => ?_
  rw [h.isEmpty]
  split
  · exact delayed_done h ()
  refine (h.reportUnknown _).andThen fun _ h => ?_
  refine (h.reportOversized within).andThen fun _ h => ?_
  exact (h.reportLength within parsed).andThen fun _ h => h.markErrors _

end Frame.DelayedWithin

namespace Channel

variable {ticks : Nat} {margin : Time} {held held' : Option Frame}

/-- What a channel holds in two captures. -/
def Later (ticks : Nat) (margin : Time) : Option Frame → Option Frame → Prop :=
  Option.Rel (Frame.DelayedWithin ticks margin)

theorem Later.delayed (h : Later ticks margin held held') : Option.Rel (Frame.Delayed ticks) held held' := by
  cases h with
  | none => exact .none
  | some h => exact .some h.toDelayed

theorem delayed_close (k : Channel) (h : Later ticks margin held held') (within : k.options.margin ≤ margin) :
    (k.close held).Delayed ticks (Later ticks margin) (k.close held') := by
  cases h with
  | none => exact Outcome.delayed_done .none ()
  | some h =>
    have closed := h.close k.grammar within
    exact ⟨.none, closed.reports, closed.result⟩

theorem delayed_add (k : Channel) {f g : Frame} (h : f.DelayedWithin ticks margin g) {b c : Byte}
    (hb : b.DelayedWithin ticks margin c) :
    (k.add f b).Delayed ticks (Later ticks margin) (k.add g c) := by
  have added := ((h.append hb).parse k.grammar).mapState (S := Later ticks margin) .some
  exact added.andThen fun _ h => Outcome.delayed_done h ()

theorem delayed_start (k : Channel) (h : Later ticks margin held held') (within : k.options.margin ≤ margin)
    {b c : Byte} (hb : b.DelayedWithin ticks margin c) :
    (k.start held b).Delayed ticks (Later ticks margin) (k.start held' c) :=
  (k.delayed_close h within).andThen fun _ _ => k.delayed_add (.opened k.role hb) hb

theorem delayed_hear_byte (k : Channel) (h : Later ticks margin held held') (within : k.options.margin ≤ margin)
    {b c : Byte} (hb : b.DelayedWithin ticks margin c) :
    (k.hear held (.byte b)).Delayed ticks (Later ticks margin) (k.hear held' (.byte c)) := by
  cases h with
  | none => exact k.delayed_start .none within hb
  | @some f g h =>
    have same : f.continuesWith k.silence b = g.continuesWith k.silence c := by
      rw [Frame.continuesWith, Frame.continuesWith, hb.start.minus h.lastRead]
    rw [hear_byte, hear_byte, same]
    split
    · exact k.delayed_add h hb
    · exact k.delayed_start (.some h) within hb

end Channel

/-- Two decoders that differ in nothing but the times of the open frames, which are `ticks` later. -/
structure Decoder.Delayed (ticks : Nat) (d e : Decoder) : Prop where
  config : d.config = e.config
  bitTime : d.bitTime = e.bitTime
  frames : ∀ role, Option.Rel (Frame.Delayed ticks) (d.frame? role) (e.frame? role)

/-- There is room for a margin behind all open frames, which is not less than theirs. -/
structure Decoder.DelayedWithin (ticks : Nat) (margin : Time) (d e : Decoder) : Prop where
  config : d.config = e.config
  bitTime : d.bitTime = e.bitTime
  frames : ∀ role, Channel.Later ticks margin (d.frame? role) (e.frame? role)
  closing : d.closeOptions.margin ≤ margin

def Byte.delay (ticks : Nat) (b : Byte) : Byte := ⟨b.value, b.start.delay ticks, b.stop.delay ticks⟩

def Event.delay (ticks : Nat) : Event → Event
  | .timing start stop => .timing (start.delay ticks) (stop.delay ticks)
  | .byte line b => .byte line (b.delay ticks)
  | .flush => .flush

/-- The clock does not end before the delayed event does, nor before the margin behind a byte. -/
def Event.Fits (ticks : Nat) (margin : Time) : Event → Prop
  | .timing start stop => start.toNat + ticks < UInt64.size ∧ stop.toNat + ticks < UInt64.size
  | .byte _ b => max b.start.toNat b.stop.toNat + ticks + margin.toNat < UInt64.size
  | .flush => True

instance Event.decidableFits (ticks : Nat) (margin : Time) : (event : Event) → Decidable (event.Fits ticks margin)
  | .timing _ _ => inferInstanceAs (Decidable (_ ∧ _))
  | .byte _ _ => inferInstanceAs (Decidable (_ < _))
  | .flush => inferInstanceAs (Decidable True)

theorem Byte.delayedWithin_delay {ticks : Nat} {margin : Time} {b : Byte}
    (fits : max b.start.toNat b.stop.toNat + ticks + margin.toNat < UInt64.size) :
    b.DelayedWithin ticks margin (b.delay ticks) := by
  have start : b.start.Delayed ticks (b.start.delay ticks) := Time.delayed_delay (by omega)
  have stop : b.stop.Delayed ticks (b.stop.delay ticks) := Time.delayed_delay (by omega)
  refine ⟨⟨rfl, start, stop⟩, ?_⟩
  show max (b.start.delay ticks).toNat (b.stop.delay ticks).toNat + _ < _
  rw [start, stop]
  omega

namespace Decoder

variable {ticks : Nat} {margin : Time} {d e : Decoder}

namespace DelayedWithin

theorem channel (h : d.DelayedWithin ticks margin e) (role : Role) : d.channel role = e.channel role := by
  rw [Decoder.channel, Decoder.channel, h.config, h.bitTime]

theorem withFrame (h : d.DelayedWithin ticks margin e) (role : Role) {held held' : Option Frame}
    (later : Channel.Later ticks margin held held') :
    (d.withFrame role held).DelayedWithin ticks margin (e.withFrame role held') where
  config := by rw [config_withFrame, config_withFrame, h.config]
  bitTime := by rw [bitTime_withFrame, bitTime_withFrame, h.bitTime]
  frames other := by
    by_cases same : other = role
    · rw [same, frame?_withFrame, frame?_withFrame]
      exact later
    · rw [frame?_withFrame_of_ne _ _ same, frame?_withFrame_of_ne _ _ same]
      exact h.frames other
  closing := by
    rw [closeOptions, config_withFrame, bitTime_withFrame]
    exact h.closing

theorem listen (h : d.DelayedWithin ticks margin e) (role : Role) {event : Event}
    (fits : event.Fits ticks margin) :
    (d.listen role event).Delayed ticks (Channel.Later ticks margin) (e.listen role (event.delay ticks)) := by
  have within : (d.channel role).options.margin ≤ margin := h.closing
  cases event with
  | timing start stop => exact Outcome.delayed_done (h.frames role) ()
  | byte line b =>
    simp only [Decoder.listen, signal?, Event.delay, ← h.channel, ← h.config, ← h.bitTime]
    by_cases own : d.bitTime.isSome ∧ line = d.config.line role
    · rw [if_pos own, if_pos own]
      exact (d.channel role).delayed_hear_byte (h.frames role) within (Byte.delayedWithin_delay fits)
    · rw [if_neg own, if_neg own]
      exact Outcome.delayed_done (h.frames role) ()
  | flush =>
    simp only [Decoder.listen, signal?, Event.delay, ← h.channel]
    exact (d.channel role).delayed_close (h.frames role) within

/-- What an event does to one of the directions. -/
theorem part (h : d.DelayedWithin ticks margin e) (role : Role) {event : Event}
    (fits : event.Fits ticks margin) :
    ((d.listen role event).mapState (d.withFrame role)).Delayed ticks (DelayedWithin ticks margin)
      ((e.listen role (event.delay ticks)).mapState (e.withFrame role)) :=
  (h.listen role fits).mapState (h.withFrame role)

/-- One more event, if the margin is large enough for the bit time that is known then. -/
theorem step (h : d.DelayedWithin ticks margin e) {event : Event} (fits : event.Fits ticks margin)
    (closing : (d.config.closeOptions ((d.learns event).getD 0)).margin ≤ margin) :
    (d.step event).Delayed ticks (DelayedWithin ticks margin) (e.step (event.delay ticks)) := by
  cases event with
  | timing start stop =>
    have same : (stop.delay ticks).minus (start.delay ticks) = stop.minus start :=
      ((Time.delayed_delay fits.2).minus (Time.delayed_delay fits.1)).symm
    simp only [Decoder.step, Event.delay, same, ← h.bitTime]
    by_cases learned : d.bitTime.isNone ∧ stop.minus start ≠ 0
    · -- no other event changes the margin
      rw [learns, if_pos learned] at closing
      rw [if_pos learned, if_pos learned]
      exact Outcome.delayed_done ⟨h.config, rfl, h.frames, closing⟩ ()
    · rw [if_neg learned, if_neg learned]
      exact Outcome.delayed_done h ()
  | byte line b =>
    cases hb : d.bitTime with
    | none =>
      simp only [Decoder.step, Event.delay, hb, h.bitTime.symm.trans hb]
      exact Outcome.delayed_done h ()
    | some bitTime =>
      rw [Event.delay, step_byte_eq hb, step_byte_eq (h.bitTime.symm.trans hb)]
      exact (h.part .request fits).andThen fun _ h => h.part .response fits
  | flush =>
    rw [Event.delay, step_flush_eq, step_flush_eq]
    exact (h.part .request fits).andThen fun _ h => h.part .response fits

theorem finish (h : d.DelayedWithin ticks margin e) :
    d.finish.Delayed ticks (DelayedWithin ticks margin) e.finish := by
  have fits : Event.flush.Fits ticks margin := trivial
  exact h.step fits h.closing

theorem delayed (h : d.DelayedWithin ticks margin e) : d.Delayed ticks e where
  config := h.config
  bitTime := h.bitTime
  frames role := (h.frames role).delayed

end DelayedWithin

theorem closeOptions_step (h : d.Sane) (event : Event) :
    (d.step event).state.closeOptions = d.config.closeOptions ((d.learns event).getD 0) := by
  have step := splits_step h event
  rw [closeOptions, step.config, step.bitTime]

/-- The margin grows when the bit time is learned, and then never again. -/
theorem closing_le_step (h : d.Sane) (event : Event) :
    d.closeOptions.margin ≤ (d.step event).state.closeOptions.margin := by
  rw [closeOptions_step h, closeOptions]
  cases hb : d.bitTime with
  | none =>
    rw [Option.getD_none, Config.closeOptions, Config.closeMargin, Time.zero_times]
    exact UInt64.zero_le
  | some bitTime =>
    rw [learns_of_timed hb]
    exact UInt64.le_refl _

theorem closing_le_run (h : d.Sane) (events : List Event) :
    d.closeOptions.margin ≤ (d.run events).state.closeOptions.margin := by
  induction events generalizing d with
  | nil => exact UInt64.le_refl _
  | cons event rest ih =>
    rw [run, Outcome.andThen_eq_of_ok (splits_step h event).result]
    exact UInt64.le_trans (closing_le_step h event) (ih (sane_step h event))

theorem config_run (h : d.Sane) (events : List Event) : (d.run events).state.config = d.config := by
  induction events generalizing d with
  | nil => rfl
  | cons event rest ih =>
    have step := splits_step h event
    rw [run, Outcome.andThen_eq_of_ok step.result]
    exact (ih (sane_step h event)).trans step.config

namespace DelayedWithin

/-- A run, if the margin is large enough for the bit time that is known after it. -/
theorem run (h : d.DelayedWithin ticks margin e) (sane : d.Sane) {events : List Event}
    (fits : ∀ event ∈ events, event.Fits ticks margin)
    (closing : (d.run events).state.closeOptions.margin ≤ margin) :
    (d.run events).Delayed ticks (DelayedWithin ticks margin) (e.run (events.map (Event.delay ticks))) := by
  induction events generalizing d e with
  | nil => exact Outcome.delayed_done h ()
  | cons event rest ih =>
    obtain ⟨first, later⟩ := List.forall_mem_cons.mp fits
    rw [Decoder.run, Outcome.andThen_eq_of_ok (splits_step sane event).result] at closing
    have known := UInt64.le_trans (closing_le_run (sane_step sane event) rest) closing
    rw [closeOptions_step sane] at known
    exact (h.step first known).andThen fun _ h => ih h (sane_step sane event) later closing

/-- Each event of a run. -/
theorem step_run (h : d.DelayedWithin ticks margin e) (sane : d.Sane) {before after : List Event}
    {event : Event} (fits : ∀ event' ∈ before ++ event :: after, event'.Fits ticks margin)
    (closing : (d.run (before ++ event :: after)).state.closeOptions.margin ≤ margin) :
    ((d.run before).state.step event).Delayed ticks (DelayedWithin ticks margin)
      ((e.run (before.map (Event.delay ticks))).state.step (event.delay ticks)) := by
  obtain ⟨ok, sane'⟩ := run_ok sane before
  obtain ⟨past, future⟩ := List.forall_mem_append.mp fits
  rw [run_append, Outcome.andThen_eq_of_ok ok] at closing
  have reached := h.run sane past (UInt64.le_trans (closing_le_run sane' _) closing)
  rw [Decoder.run, Outcome.andThen_eq_of_ok (splits_step sane' event).result] at closing
  have known := UInt64.le_trans (closing_le_run (sane_step sane' event) after) closing
  rw [closeOptions_step sane'] at known
  exact reached.state.step (future event List.mem_cons_self) known

end DelayedWithin

end Decoder

/-- A capture whose times are all `ticks` later is decoded to the same annotations, `ticks` later, at every event
and at the end, and leaves the decoder in the same state but for the times of the open frames. -/
theorem delay_carries_over (config : Config) (h : config.validate = .ok ()) (events : List Event) (ticks : Nat) :
    ∃ d, Decoder.opened config = .ok d ∧
      let margin := config.closeMargin ((d.run events).state.bitTime.getD 0)
      let later := Event.delay ticks
      (∀ event ∈ events, event.Fits ticks margin) →
      (∀ before event after, events = before ++ event :: after →
        let o := (d.run before).state.step event
        o.result = .ok () ∧ o.Delayed ticks (Decoder.Delayed ticks)
          ((d.run (before.map later)).state.step (later event))) ∧
      let o := (d.run events).state.finish
      o.result = .ok () ∧ o.Delayed ticks (Decoder.Delayed ticks)
        (d.run (events.map later)).state.finish := by
  let d : Decoder := ⟨config, none, none, none⟩
  have sane : d.Sane := Decoder.sane_opened config
  refine ⟨d, Decoder.opened_ok h, fun fits => ?_⟩
  let margin := config.closeMargin ((d.run events).state.bitTime.getD 0)
  have closing : (d.run events).state.closeOptions.margin = margin := by
    rw [Decoder.closeOptions, Decoder.config_run sane]
    rfl
  have opened : d.DelayedWithin ticks margin d := {
    config := rfl
    bitTime := rfl
    frames := fun role => by cases role <;> exact .none
    closing := closing ▸ Decoder.closing_le_run sane events }
  have last := UInt64.le_of_eq closing
  refine ⟨?_, ?_⟩
  · rintro before event after rfl
    obtain ⟨-, sane'⟩ := Decoder.run_ok sane before
    exact ⟨(Decoder.splits_step sane' event).result, (opened.step_run sane fits last).imp fun h => h.delayed⟩
  · obtain ⟨-, sane'⟩ := Decoder.run_ok sane events
    have run := opened.run sane fits last
    exact ⟨(Decoder.splits_step sane' .flush).result, run.state.finish.imp fun h => h.delayed⟩

/-- The last delay at which the clock does not end before the margin behind the last byte. -/
theorem delay_carries_over_queries :
    let config : Config := {}
    let ticks := UInt64.size - 1289
    let later := Event.delay ticks
    config.validate = .ok () ∧ ∃ d, Decoder.opened config = .ok d ∧
      (∀ event ∈ queries, event.Fits ticks (config.closeMargin ((d.run queries).state.bitTime.getD 0))) ∧
      let o := (d.run queries).state.finish
      let o' := (d.run (queries.map later)).state.finish
      o.spans.map (fun s => (s.category, s.start, s.stop)) = [(.error, 1000, 1288)] ∧
      o'.spans.map (fun s => (s.category, s.start, s.stop)) =
        [(.error, 18446744073709551327, 18446744073709551615)] ∧
      o.Delayed ticks (Decoder.Delayed ticks) o' := by
  intro config ticks later
  have hv : config.validate = .ok () := rfl
  obtain ⟨d, hd, delayed⟩ := delay_carries_over config hv queries ticks
  obtain rfl := Except.ok.inj ((Decoder.opened_ok hv).symm.trans hd)
  have fits : ∀ event ∈ queries, event.Fits ticks
      (config.closeMargin (((Decoder.mk config none none none).run queries).state.bitTime.getD 0)) := by
    decide +kernel
  exact ⟨hv, _, hd, fits, by decide +kernel, by decide +kernel, (delayed fits).2.2⟩

end ModbusRtu
