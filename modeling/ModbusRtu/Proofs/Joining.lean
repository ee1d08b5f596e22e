import ModbusRtu.Proofs.Independence
import ModbusRtu.Proofs.Silence

/-! More silence within frames. A decoder that bears more of it opens no frame that a stricter one does not, so
its frames are those of the other, joined with their neighbours here and there. What the stricter decoder has
open is the end of what the other has open. That keeps the two in step: if bytes end no sooner than they start,
the silence before a byte is never longer for the decoder that looks back over more bytes. -/

namespace ModbusRtu

namespace Time

theorem later_le {t u bound : Time} (ht : t ≤ bound) (hu : u ≤ bound) : t.later u ≤ bound := by
  unfold later
  split
  · exact hu
  · exact ht

theorem minus_le_minus {t u : Time} (h : t ≤ u) (b : Time) : b.minus u ≤ b.minus t := by
  rw [UInt64.le_iff_toNat_le] at h ⊢
  rw [toNat_minus, toNat_minus]
  omega

theorem times_le_times {k k' : Time} (h : k ≤ k') (t : Time) : t.times k ≤ t.times k' := by
  rw [UInt64.le_iff_toNat_le] at h ⊢
  rw [toNat_times, toNat_times]
  have := Nat.mul_le_mul_left t.toNat h
  omega

end Time

/-- Every list of `coarse` is made of the next few of `fine`, at least one, one behind the other. -/
inductive Joins : List (List Byte) → List (List Byte) → Prop
  | nil : Joins [] []
  | cons {group fine coarse : List (List Byte)} (any : group ≠ []) (rest : Joins fine coarse) :
      Joins (group ++ fine) (group.flatten :: coarse)

theorem Joins.one {group : List (List Byte)} (any : group ≠ []) : Joins group [group.flatten] := by
  have joins := Joins.cons any .nil
  rw [List.append_nil] at joins
  exact joins

def Byte.Forward (b : Byte) : Prop := b.start ≤ b.stop

def Signal.Forward : Signal → Prop
  | .byte b => b.Forward
  | .flush => True

theorem Signal.forward_of_bytes {signals : List Signal}
    (h : ∀ b ∈ signals.filterMap Signal.byte?, b.Forward) : ∀ signal ∈ signals, signal.Forward := by
  intro signal hmem
  cases signal with
  | byte b => exact h b (List.mem_filterMap.mpr ⟨_, hmem, rfl⟩)
  | flush => trivial

namespace Segment

theorem foldl_later_le {start bound : Time} {bytes : List Byte} (hs : start ≤ bound)
    (hb : ∀ b ∈ bytes, b.stop ≤ bound) :
    bytes.foldl (fun time b => time.later b.stop) start ≤ bound := by
  induction bytes generalizing start with
  | nil => exact hs
  | cons b rest ih =>
    obtain ⟨first, later⟩ := List.forall_mem_cons.mp hb
    exact ih (Time.later_le hs first) later

/-- The start of the first byte counts for nothing if that byte ends no sooner. -/
theorem reach_le_of_suffix {s t : Segment} (h : s.bytes <:+ t.bytes) (forward : s.first.Forward) :
    s.reach ≤ t.reach := by
  have ends : ∀ b ∈ s.bytes, b.stop ≤ t.reach := fun b hb =>
    (Frame.le_foldl_later t.first.start t.bytes).2 b (h.subset hb)
  exact foldl_later_le (UInt64.le_trans forward (ends s.first List.mem_cons_self)) ends

theorem bytes_push (s : Segment) (b : Byte) : (s.push b).bytes = s.bytes ++ [b] := rfl

/-- What two cuts of the same signals have open: nothing, or the finer cut has the end of what the coarser one
has, of which it cut off `earlier`. -/
inductive Within : List (List Byte) → Option Segment → Option Segment → Prop
  | nothing : Within [] none none
  | ending {earlier : List (List Byte)} {s t : Segment} (parts : t.bytes = earlier.flatten ++ s.bytes)
      (forward : s.first.Forward) : Within earlier (some s) (some t)

namespace Within

variable {silence silence' : Time} {earlier : List (List Byte)} {current current' : Option Segment}

theorem exists_ending {t : Segment} (h : Within earlier current (some t)) :
    ∃ s, current = some s ∧ t.bytes = earlier.flatten ++ s.bytes ∧ s.first.Forward := by
  cases h with
  | @ending _ s _ parts forward => exact ⟨s, rfl, parts, forward⟩

theorem flatten_concat {s t : Segment} (parts : t.bytes = earlier.flatten ++ s.bytes) :
    t.bytes = (earlier ++ [s.bytes]).flatten := by
  rw [parts, List.flatten_append, List.flatten_singleton]

theorem late {s t : Segment} (h : Within earlier (some s) (some t)) (wider : silence ≤ silence')
    {b : Byte} (late : ¬ b.start.minus t.reach ≤ silence') : ¬ b.start.minus s.reach ≤ silence := by
  cases h with
  | ending parts forward =>
    have reach := reach_le_of_suffix ⟨earlier.flatten, parts.symm⟩ forward
    intro soon
    exact late (UInt64.le_trans (Time.minus_le_minus reach b.start) (UInt64.le_trans soon wider))

/-- With the next signal the coarser cut ends nothing, or it ends one segment, which is all that the finer cut
has ended since that segment began. -/
theorem next (h : Within earlier current current') (wider : silence ≤ silence') {signal : Signal}
    (forward : signal.Forward) :
    let fine := Segment.next silence current signal
    let coarse := Segment.next silence' current' signal
    let ended := earlier ++ fine.1.map bytes
    (coarse.1 = [] ∧ Within ended fine.2 coarse.2) ∨
      (ended ≠ [] ∧ coarse.1.map bytes = [ended.flatten] ∧ Within [] fine.2 coarse.2) := by
  intro fine coarse ended
  have any (s : Segment) : earlier ++ [s.bytes] ≠ [] :=
    List.append_ne_nil_of_right_ne_nil _ (List.cons_ne_nil _ _)
  cases signal with
  | flush =>
    cases h with
    | nothing => exact Or.inl ⟨rfl, .nothing⟩
    | @ending _ s t parts _ => exact Or.inr ⟨any s, congrArg (· :: []) (flatten_concat parts), .nothing⟩
  | byte b =>
    have opening : Within [] (some ⟨b, []⟩) (some ⟨b, []⟩) := .ending rfl forward
    cases current' with
    | none =>
      cases h with
      | nothing => exact Or.inl ⟨rfl, opening⟩
    | some t =>
      obtain ⟨s, rfl, parts, first⟩ := h.exists_ending
      by_cases soon' : b.start.minus t.reach ≤ silence'
      · have hc : coarse = ([], some (t.push b)) := next_of_soon soon'
        refine Or.inl ⟨congrArg Prod.fst hc, ?_⟩
        rw [hc]
        -- the longer segment goes on, but its end may still be cut off here
        by_cases soon : b.start.minus s.reach ≤ silence
        · have hf : fine = ([], some (s.push b)) := next_of_soon soon
          have longer : (t.push b).bytes = (earlier ++ []).flatten ++ (s.push b).bytes := by
            rw [bytes_push, bytes_push, parts, List.append_nil, List.append_assoc]
          simp only [ended, hf]
          exact .ending longer first
        · have hf : fine = ([s], some ⟨b, []⟩) := next_of_late soon
          have longer : (t.push b).bytes = (earlier ++ [s.bytes]).flatten ++ [b] := by
            rw [bytes_push, flatten_concat parts]
          simp only [ended, hf]
          exact .ending longer forward
      · have hc : coarse = ([t], some ⟨b, []⟩) := next_of_late soon'
        have hf : fine = ([s], some ⟨b, []⟩) := next_of_late (h.late wider soon')
        simp only [ended, hc, hf]
        exact Or.inr ⟨any s, congrArg (· :: []) (flatten_concat parts), opening⟩

theorem joins (h : Within earlier current current') (wider : silence ≤ silence') {signals : List Signal}
    (forward : ∀ signal ∈ signals, signal.Forward) :
    Joins (earlier ++ (cut silence current signals).map bytes) ((cut silence' current' signals).map bytes) := by
  induction signals generalizing earlier current current' with
  | nil =>
    cases current' with
    | none =>
      cases h with
      | nothing => exact .nil
    | some t =>
      obtain ⟨s, rfl, parts, -⟩ := h.exists_ending
      have last : Joins (earlier ++ [s.bytes]) [(earlier ++ [s.bytes]).flatten] :=
        .one (List.append_ne_nil_of_right_ne_nil _ (List.cons_ne_nil _ _))
      rw [← flatten_concat parts] at last
      exact last
  | cons signal rest ih =>
    obtain ⟨first, later⟩ := List.forall_mem_cons.mp forward
    rw [cut, cut, List.map_append, List.map_append, ← List.append_assoc]
    rcases h.next wider first with ⟨open', within⟩ | ⟨any, ends, within⟩
    · rw [open']
      exact ih within later
    · rw [ends]
      exact .cons any (ih within later)

theorem exists_unended (h : Within earlier current current') (wider : silence ≤ silence')
    {signals : List Signal} (forward : ∀ signal ∈ signals, signal.Forward) :
    ∃ earlier', Within earlier' (unended silence current signals) (unended silence' current' signals) := by
  induction signals generalizing earlier current current' with
  | nil => exact ⟨earlier, h⟩
  | cons signal rest ih =>
    obtain ⟨first, later⟩ := List.forall_mem_cons.mp forward
    rcases h.next wider first with ⟨-, within⟩ | ⟨-, -, within⟩
    · exact ih within later
    · exact ih within later

end Within

end Segment

theorem Config.bytes_ledger (c : Config) (role : Role) {events rest : List Event} {bitTime : Time}
    (ht : timed events = some (bitTime, rest)) :
    (c.ledger role (events ++ [.flush])).map (fun e => e.frame.bytes) =
      (Segment.cut (bitTime.times c.frameGapBits) none (heard (c.line role) rest)).map Segment.bytes := by
  rw [c.ledger_of_timed role ht, ← Segment.map_fst_ended, List.map_map, List.map_map]
  exact List.map_congr_left fun p _ => Channel.bytes_entry _ p

namespace Decoder

/-- The byte opens a new frame of `role`: none is open, or there was too much silence behind the open one. -/
def Opens (d : Decoder) (role : Role) (line : Line) (b : Byte) : Prop :=
  line = d.config.line role ∧ ∃ bitTime, d.bitTime = some bitTime ∧
    ∀ f, d.frame? role = some f → f.continuesWith (d.config.silence bitTime) b = false

/-- Of two decoders the first has open the end of what the second has open, and opens a frame wherever the
second does. -/
structure Stricter (role : Role) (d d' : Decoder) : Prop where
  suffix : Option.Rel (fun f f' => f.bytes <:+ f'.bytes) (d.frame? role) (d'.frame? role)
  opens : ∀ line b, d'.Opens role line b → d.Opens role line b

variable {c c' : Config} {role : Role} {bitTime : Time} {d d' : Decoder}

theorem Waits.stricter (h : Waits c role d) (h' : Waits c' role d') : Stricter role d d' where
  suffix := by
    rw [h.frame?, h'.frame?]
    exact .none
  opens line b opens := by
    obtain ⟨-, bitTime, told, -⟩ := opens
    cases h'.untimed.symm.trans told

theorem Follows.opens_iff {current : Option Segment} (h : Follows c role bitTime current d) (line : Line)
    (b : Byte) : d.Opens role line b ↔
      line = c.line role ∧ ∀ s, current = some s → ¬ b.start.minus s.reach ≤ bitTime.times c.frameGapBits := by
  have late (s : Segment) : let k := c.channel role bitTime
      (k.grammar.parse (k.frame s)).state.continuesWith (c.silence bitTime) b = false ↔
        ¬ b.start.minus s.reach ≤ bitTime.times c.frameGapBits := by
    intro k
    rw [show c.silence bitTime = k.silence from rfl, k.continuesWith_parse, decide_eq_false_iff_not]
    rfl
  simp only [Opens, h.config, h.timed, h.frame?, Option.some.injEq, exists_eq_left']
  refine and_congr_right fun _ => ?_
  cases current with
  | none => exact ⟨fun _ _ => nofun, fun _ _ => nofun⟩
  | some s => simp only [Channel.held, Option.map_some, Option.some.injEq, forall_eq', late]

theorem Follows.stricter {current current' : Option Segment} (h : Follows c role bitTime current d)
    (h' : Follows c' role bitTime current' d') {earlier : List (List Byte)}
    (within : Segment.Within earlier current current') (same : c.line role = c'.line role)
    (wider : bitTime.times c.frameGapBits ≤ bitTime.times c'.frameGapBits) : Stricter role d d' where
  suffix := by
    rw [h.frame?, h'.frame?]
    cases within with
    | nothing => exact .none
    | @ending _ s t parts _ =>
      have sb := (c.channel role bitTime).bytes_entry (s, none)
      have tb := (c'.channel role bitTime).bytes_entry (t, none)
      exact .some ⟨earlier.flatten, (congrArg (earlier.flatten ++ ·) sb).trans (parts.symm.trans tb.symm)⟩
  opens line b opens := by
    obtain ⟨own, late'⟩ := (h'.opens_iff line b).mp opens
    refine (h.opens_iff line b).mpr ⟨own.trans same.symm, ?_⟩
    rintro s rfl
    cases current' with
    | none => cases within
    | some t => exact within.late wider (late' t rfl)

end Decoder

open ModbusRtu.Decoder

/-- A decoder that bears more silence within frames has the same frames, but for some that it joins. -/
theorem wider_gap_joins (config config' : Config) (h : config.validate = .ok ()) (h' : config'.validate = .ok ())
    (gap : config' = { config with frameGapBits := config'.frameGapBits })
    (wider : config.frameGapBits ≤ config'.frameGapBits) (role : Role) (events : List Event)
    (forward : ∀ b ∈ bytesOn (config.line role) events, b.start ≤ b.stop) :
    ∃ d d', Decoder.opened config = .ok d ∧ Decoder.opened config' = .ok d' ∧
      (∀ before, before <+: events → Stricter role (d.run before).state (d'.run before).state) ∧
      Joins ((d.closed role [] (events ++ [.flush])).map fun e => e.frame.bytes)
        ((d'.closed role [] (events ++ [.flush])).map fun e => e.frame.bytes) := by
  have waits := waits_opened config role
  have waits' := waits_opened config' role
  have same : config'.line role = config.line role := by
    rw [gap]
    rfl
  have silence (bitTime : Time) := Time.times_le_times wider bitTime
  have signals {xs rest : List Event} {bitTime : Time} (part : xs <+: events)
      (ht : timed xs = some (bitTime, rest)) : ∀ signal ∈ heard (config.line role) rest, signal.Forward := by
    have sublist := ((timed_sublist ht).trans part.sublist).filterMap (hears (config.line role))
    exact Signal.forward_of_bytes fun b hmem => forward b ((sublist.filterMap Signal.byte?).subset hmem)
  refine ⟨_, _, opened_ok h, opened_ok h', fun before part => ?_, ?_⟩
  · cases ht : timed before with
    | none => exact (waits.run_of_untimed ht).stricter (waits'.run_of_untimed ht)
    | some p =>
      obtain ⟨bitTime, rest⟩ := p
      have follows' := waits'.run_of_timed ht
      rw [same] at follows'
      obtain ⟨earlier, within⟩ := Segment.Within.nothing.exists_unended (silence bitTime) (signals part ht)
      exact (waits.run_of_timed ht).stricter follows' within same.symm (silence bitTime)
  · rw [waits.closed, waits'.closed]
    cases ht : timed events with
    | none =>
      rw [config.ledger_of_untimed role ht, config'.ledger_of_untimed role ht]
      exact .nil
    | some p =>
      obtain ⟨bitTime, rest⟩ := p
      rw [config.bytes_ledger role ht, config'.bytes_ledger role ht, same]
      exact Segment.Within.nothing.joins (silence bitTime) (signals List.prefix_rfl ht)

/-- A hundred bit times are longer than the silence after the query, so that the byte behind it joins in. -/
theorem wider_gap_joins_queries :
    let config : Config := {}
    let config' : Config := { frameGapBits := 100 }
    config.validate = .ok () ∧ config'.validate = .ok () ∧ config.frameGapBits ≤ config'.frameGapBits ∧
      (∀ b ∈ bytesOn .tx queries, b.start ≤ b.stop) ∧
      ∃ d d', Decoder.opened config = .ok d ∧ Decoder.opened config' = .ok d' ∧
        let frames := (d.closed .request [] (queries ++ [.flush])).map fun e => e.frame.bytes
        let frames' := (d'.closed .request [] (queries ++ [.flush])).map fun e => e.frame.bytes
        frames.map List.length = [4, 1] ∧ frames'.map List.length = [5] ∧ Joins frames frames' ∧
        Stricter .request (d.run queries).state (d'.run queries).state := by
  intro config config'
  have hv : config.validate = .ok () := rfl
  have hv' : config'.validate = .ok () := rfl
  have wider : config.frameGapBits ≤ config'.frameGapBits := by decide
  have forward : ∀ b ∈ bytesOn .tx queries, b.start ≤ b.stop := by decide
  obtain ⟨d, d', hd, hd', stricter, joins⟩ :=
    wider_gap_joins config config' hv hv' rfl wider .request queries forward
  obtain rfl := Except.ok.inj ((opened_ok hv).symm.trans hd)
  obtain rfl := Except.ok.inj ((opened_ok hv').symm.trans hd')
  exact ⟨hv, hv', wider, forward, _, _, hd, hd', by decide +kernel, by decide +kernel, joins,
    stricter queries List.prefix_rfl⟩

end ModbusRtu
