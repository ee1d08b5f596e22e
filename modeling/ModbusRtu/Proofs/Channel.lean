import ModbusRtu.Decoder
import ModbusRtu.Proofs.Closing

/-! The decoder is two channels side by side. Each listens to its own line and to the flushes, and nothing
that one of them does can be seen by the other: a step of the decoder is a step of each. -/

namespace ModbusRtu

/-- What a direction hears. -/
inductive Signal
  | byte (b : Byte)
  | flush

/-- One direction at a known bit time. -/
structure Channel where
  role : Role
  grammar : Grammar
  lawful : grammar.Lawful
  silence : Time
  options : CloseOptions

namespace Channel

def close (k : Channel) : Option Frame → Outcome (Option Frame) Unit
  | some f => (k.grammar.close k.options f).mapState fun _ => none
  | none => .done none ()

def add (k : Channel) (f : Frame) (b : Byte) : Outcome (Option Frame) Unit :=
  ((k.grammar.push f b).mapState some).andThen fun held _ => .done held ()

def start (k : Channel) (held : Option Frame) (b : Byte) : Outcome (Option Frame) Unit :=
  (k.close held).andThen fun _ _ => k.add (.opened k.role b.start) b

def hear (k : Channel) (held : Option Frame) : Signal → Outcome (Option Frame) Unit
  | .byte b =>
    match held with
    | some f => if f.continuesWith k.silence b then k.add f b else k.start held b
    | none => k.start held b
  | .flush => k.close held

theorem hear_byte (k : Channel) (f : Frame) (b : Byte) :
    k.hear (some f) (.byte b) = if f.continuesWith k.silence b then k.add f b else k.start (some f) b := rfl

/-- What a channel holds between steps: a frame of its own, and not an empty one. -/
def Holds (k : Channel) (held : Option Frame) : Prop := ∀ f, held = some f → f.Held ∧ f.role = k.role

/-- A step of the channel that went well. -/
structure Well (k : Channel) (o : Outcome (Option Frame) Unit) : Prop where
  result : o.result = .ok ()
  holds : k.Holds o.state
  reports : ∀ r ∈ o.reports, r.role = k.role

variable {k : Channel}

theorem holds_none : k.Holds none := fun _ h => nomatch h

theorem Well.andThen {o : Outcome (Option Frame) Unit}
    {next : Option Frame → Unit → Outcome (Option Frame) Unit} (h : k.Well o)
    (hn : ∀ held, k.Holds held → k.Well (next held ())) : k.Well (o.andThen next) := by
  have hw := hn o.state h.holds
  rw [Outcome.andThen_eq_of_ok h.result]
  refine ⟨hw.result, hw.holds, fun r hmem => ?_⟩
  rcases List.mem_append.mp hmem with hmem | hmem
  · exact h.reports r hmem
  · exact hw.reports r hmem

theorem well_close {held : Option Frame} (h : k.Holds held) :
    k.Well (k.close held) := by
  cases held with
  | none => exact ⟨rfl, holds_none, fun r hmem => (List.not_mem_nil hmem).elim⟩
  | some f =>
    obtain ⟨hf, hrole⟩ := h f rfl
    obtain ⟨parsed, hp⟩ := k.lawful.parse_ok f
    refine ⟨(k.grammar.close_spec k.options hf hp).1, holds_none, fun r hmem => ?_⟩
    exact ((k.grammar.evolves_close k.options f).reports r hmem).trans hrole

/-- A byte may always be added, also to a frame that has none yet. -/
theorem well_add {f : Frame} (hc : f.covered ≤ f.length) (hrole : f.role = k.role) (b : Byte) :
    k.Well (k.add f b) := by
  have hf : (f.append b).Held := by
    refine ⟨List.append_ne_nil_of_right_ne_nil _ (List.cons_ne_nil _ _), ?_⟩
    rw [f.length_append b]
    exact Nat.le_succ_of_le hc
  obtain ⟨parsed, hp⟩ := k.lawful.parse_ok (f.append b)
  have evolves := k.grammar.evolves_parse (f.append b)
  have hr : ((k.grammar.push f b).mapState some).result = .ok parsed := hp
  rw [add, Outcome.andThen_eq_of_ok hr]
  refine ⟨rfl, fun g hgot => ?_, fun r hmem => ?_⟩
  · cases hgot
    exact ⟨evolves.held hf, evolves.role.trans hrole⟩
  · rw [Outcome.done, List.append_nil] at hmem
    exact (evolves.reports r hmem).trans hrole

theorem well_hear {held : Option Frame} (h : k.Holds held) (signal : Signal) :
    k.Well (k.hear held signal) := by
  have well_start (b : Byte) : k.Well (k.start held b) :=
    (well_close h).andThen fun _ _ => well_add (Nat.le_refl 0) rfl b
  cases signal with
  | flush => exact well_close h
  | byte b =>
    cases held with
    | none => exact well_start b
    | some f =>
      obtain ⟨hf, hrole⟩ := h f rfl
      rw [hear_byte]
      split
      · exact well_add hf.covered hrole b
      · exact well_start b

end Channel

namespace Decoder

theorem withFrame_frame? (d : Decoder) (role : Role) : d.withFrame role (d.frame? role) = d := by
  cases role <;> rfl

theorem withFrame_withFrame (d : Decoder) (role : Role) (held : Option Frame) :
    (d.withFrame role held).withFrame role = d.withFrame role := by
  cases role <;> rfl

theorem frame?_withFrame (d : Decoder) (role : Role) (held : Option Frame) :
    (d.withFrame role held).frame? role = held := by
  cases role <;> rfl

theorem frame?_withFrame_of_ne (d : Decoder) {role other : Role} (held : Option Frame) (h : other ≠ role) :
    (d.withFrame role held).frame? other = d.frame? other := by
  cases role <;> cases other <;> first | rfl | exact absurd rfl h

theorem config_withFrame (d : Decoder) (role : Role) (held : Option Frame) :
    (d.withFrame role held).config = d.config := by
  cases role <;> rfl

theorem bitTime_withFrame (d : Decoder) (role : Role) (held : Option Frame) :
    (d.withFrame role held).bitTime = d.bitTime := by
  cases role <;> rfl

end Decoder

def Config.channel (c : Config) (role : Role) (bitTime : Time) : Channel where
  role := role
  grammar := c.grammar role
  lawful := role.lawful_grammar c.diagnosticsLength
  silence := c.silence bitTime
  options := c.closeOptions bitTime

/-- The channel of `role`. Without a bit time yet it holds nothing and hears no bytes. -/
def Decoder.channel (d : Decoder) (role : Role) : Channel := d.config.channel role (d.bitTime.getD 0)

namespace Decoder

theorem channel_withFrame (d : Decoder) (role other : Role) (held : Option Frame) :
    (d.withFrame role held).channel other = d.channel other := by
  rw [channel, config_withFrame, bitTime_withFrame, channel]

theorem close_eq (d : Decoder) (role : Role) :
    d.close role = ((d.channel role).close (d.frame? role)).mapState (d.withFrame role) := by
  unfold close
  cases hf : d.frame? role with
  | some f => rfl
  | none =>
    have he := d.withFrame_frame? role
    rw [hf] at he
    exact congrArg (fun d => Outcome.done d ()) he.symm

theorem extend_eq (d : Decoder) (role : Role) (f : Frame) (b : Byte) :
    d.extend role f b = ((d.channel role).add f b).mapState (d.withFrame role) :=
  Outcome.mapState_andThen (g := d.withFrame role)
    (o := ((d.config.grammar role).push f b).mapState some) fun _ _ => rfl

theorem start_eq (d : Decoder) (role : Role) (b : Byte) :
    d.start role b = ((d.channel role).start (d.frame? role) b).mapState (d.withFrame role) := by
  rw [start, close_eq]
  refine Outcome.mapState_andThen fun held _ => ?_
  rw [extend_eq, channel_withFrame, withFrame_withFrame]
  rfl

theorem route_eq {d : Decoder} {bitTime : Time} (h : d.bitTime = some bitTime) (role : Role) (b : Byte) :
    d.route role bitTime b =
      ((d.channel role).hear (d.frame? role) (.byte b)).mapState (d.withFrame role) := by
  have hs : d.config.silence bitTime = (d.channel role).silence := by rw [channel, h]; rfl
  rw [route, hs]
  cases hf : d.frame? role with
  | none =>
    rw [start_eq, hf]
    rfl
  | some f =>
    rw [Channel.hear_byte]
    simp only
    split
    · exact d.extend_eq role f b
    · rw [start_eq, hf]

/-- What `role` hears of an event. -/
def signal? (d : Decoder) (role : Role) : Event → Option Signal
  | .timing _ _ => none
  | .byte line b => if d.bitTime.isSome ∧ line = d.config.line role then some (.byte b) else none
  | .flush => some .flush

theorem signal?_byte_of_untimed {d : Decoder} (h : d.bitTime = none) (role : Role) (line : Line) (b : Byte) :
    d.signal? role (.byte line b) = none := by
  simp only [signal?, h, Option.isSome_none, Bool.false_eq_true, false_and, if_false]

/-- What the channel of `role` makes of an event. -/
def listen (d : Decoder) (role : Role) (event : Event) : Outcome (Option Frame) Unit :=
  match d.signal? role event with
  | some signal => (d.channel role).hear (d.frame? role) signal
  | none => .done (d.frame? role) ()

/-- The bit time after an event. -/
def learns (d : Decoder) : Event → Option Time
  | .timing start stop =>
    if d.bitTime.isNone ∧ stop.minus start ≠ 0 then some (stop.minus start) else d.bitTime
  | _ => d.bitTime

/-- The bit time is never forgotten. -/
theorem learns_of_timed {d : Decoder} {bitTime : Time} (h : d.bitTime = some bitTime) (event : Event) :
    d.learns event = some bitTime := by
  cases event with
  | timing start stop => simp only [learns, h, Option.isNone_some, Bool.false_eq_true, false_and, if_false]
  | byte line b => exact h
  | flush => exact h

theorem part_byte (d : Decoder) (role : Role) {bitTime : Time} (h : d.bitTime = some bitTime) (line : Line)
    (b : Byte) :
    d.deliver role line bitTime b = (d.listen role (.byte line b)).mapState (d.withFrame role) := by
  unfold deliver listen signal?
  simp only [h, Option.isSome_some, true_and]
  split
  · exact route_eq h role b
  · exact congrArg (fun d => Outcome.done d ()) (d.withFrame_frame? role).symm

theorem listen_withFrame (d : Decoder) {role other : Role} (held : Option Frame) (h : other ≠ role)
    (event : Event) : (d.withFrame role held).listen other event = d.listen other event := by
  unfold listen signal?
  rw [channel_withFrame, frame?_withFrame_of_ne d held h, config_withFrame, bitTime_withFrame]

/-- A decoder whose channels hold what they may. -/
def Sane (d : Decoder) : Prop := ∀ role, (d.channel role).Holds (d.frame? role)

theorem well_listen {d : Decoder} (h : d.Sane) (role : Role) (event : Event) :
    (d.channel role).Well (d.listen role event) := by
  unfold listen
  split
  · exact Channel.well_hear (h role) _
  · exact ⟨rfl, h role, fun r hmem => (List.not_mem_nil hmem).elim⟩

/-- The reports of one direction, in the order they were made. -/
def said (role : Role) (reports : List Report) : List Report := reports.filter fun r => r.role = role

theorem said_of_forall {role : Role} {reports : List Report} (h : ∀ r ∈ reports, r.role = role) :
    said role reports = reports :=
  List.filter_eq_self.mpr fun r hmem => decide_eq_true (h r hmem)

theorem said_of_forall_ne {role other : Role} {reports : List Report} (h : ∀ r ∈ reports, r.role = role)
    (hne : role ≠ other) : said other reports = [] :=
  List.filter_eq_nil_iff.mpr fun r hmem he => hne ((h r hmem).symm.trans (of_decide_eq_true he))

theorem said_append (role : Role) (xs ys : List Report) :
    said role (xs ++ ys) = said role xs ++ said role ys :=
  List.filter_append ..

/-- A step of the decoder is a step of each channel. -/
structure Splits (d : Decoder) (event : Event) (o : Outcome Decoder Unit) : Prop where
  result : o.result = .ok ()
  config : o.state.config = d.config
  bitTime : o.state.bitTime = d.learns event
  frame? : ∀ role, o.state.frame? role = (d.listen role event).state
  reports : ∀ role, said role o.reports = (d.listen role event).reports

/-- An event that is not heard changes the bit time at most. -/
theorem splits_of_silent {d : Decoder} {event : Event} (h : ∀ role, d.signal? role event = none)
    (bitTime : Option Time) (hb : d.learns event = bitTime) :
    d.Splits event (.done { d with bitTime := bitTime } ()) := by
  have hl (role : Role) : d.listen role event = .done (d.frame? role) () := by
    rw [listen, h role]
  refine ⟨rfl, rfl, hb.symm, fun role => ?_, fun role => ?_⟩
  · rw [hl role]
    cases role <;> rfl
  · rw [hl role]
    rfl

/-- An event that both channels may hear is handed to one after the other. -/
theorem splits_of_parts {d : Decoder} (h : d.Sane) {event : Event} (hb : d.learns event = d.bitTime) :
    d.Splits event (((d.listen .request event).mapState (d.withFrame .request)).andThen fun d _ =>
      (d.listen .response event).mapState (d.withFrame .response)) := by
  have first := well_listen h .request event
  have second := well_listen h .response event
  have hr : ((d.listen .request event).mapState (d.withFrame .request)).result = .ok () := first.result
  have hl : (d.withFrame .request (d.listen .request event).state).listen .response event =
      d.listen .response event := d.listen_withFrame _ (by decide) event
  rw [Outcome.andThen_eq_of_ok hr]
  simp only [Outcome.mapState, hl]
  refine ⟨second.result, ?_, ?_, fun role => ?_, fun role => ?_⟩
  · rw [config_withFrame, config_withFrame]
  · rw [bitTime_withFrame, bitTime_withFrame, hb]
  · cases role with
    | request => rw [frame?_withFrame_of_ne _ _ (by decide), frame?_withFrame]
    | response => rw [frame?_withFrame]
  · have hrequest : ∀ r ∈ (d.listen .request event).reports, r.role = .request := first.reports
    have hresponse : ∀ r ∈ (d.listen .response event).reports, r.role = .response := second.reports
    rw [said_append]
    cases role with
    | request => rw [said_of_forall hrequest, said_of_forall_ne hresponse (by decide), List.append_nil]
    | response => rw [said_of_forall_ne hrequest (by decide), said_of_forall hresponse, List.nil_append]

theorem step_byte_eq {d : Decoder} {bitTime : Time} (h : d.bitTime = some bitTime) (line : Line) (b : Byte) :
    d.step (.byte line b) =
      ((d.listen .request (.byte line b)).mapState (d.withFrame .request)).andThen fun d _ =>
        (d.listen .response (.byte line b)).mapState (d.withFrame .response) := by
  simp only [step, h]
  rw [part_byte d .request h]
  exact Outcome.andThen_congr fun _ _ =>
    part_byte _ .response ((d.bitTime_withFrame .request _).trans h) line b

theorem step_flush_eq (d : Decoder) :
    d.step .flush = ((d.listen .request .flush).mapState (d.withFrame .request)).andThen fun d _ =>
      (d.listen .response .flush).mapState (d.withFrame .response) := by
  simp only [step, close_eq]
  rfl

theorem splits_step {d : Decoder} (h : d.Sane) (event : Event) : d.Splits event (d.step event) := by
  cases event with
  | timing start stop =>
    simp only [step]
    split
    · rename_i hc
      exact splits_of_silent (fun _ => rfl) _ (if_pos hc)
    · rename_i hc
      exact splits_of_silent (fun _ => rfl) d.bitTime (if_neg hc)
  | byte line b =>
    cases hb : d.bitTime with
    | none =>
      simp only [step, hb]
      exact splits_of_silent (fun role => signal?_byte_of_untimed hb role line b) d.bitTime rfl
    | some bitTime =>
      rw [step_byte_eq hb]
      exact splits_of_parts h rfl
  | flush =>
    rw [step_flush_eq]
    exact splits_of_parts h rfl

theorem sane_step {d : Decoder} (h : d.Sane) (event : Event) : (d.step event).state.Sane := by
  have hs := splits_step h event
  intro role f hf
  rw [hs.frame? role] at hf
  exact (well_listen h role event).holds f hf

end Decoder

end ModbusRtu
