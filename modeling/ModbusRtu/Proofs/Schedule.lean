import ModbusRtu.Grammar.Close
import ModbusRtu.Proofs.Lawful

/-! When to parse is a matter of taste. Bytes may be appended one by one or many at a time, and parsed as
often as one likes: once a parse has seen them all, reports, frame and progress are those of a single
parse over all the bytes. -/

namespace ModbusRtu

/-- One call on a frame under construction. -/
inductive Delivery
  | append (b : Byte)
  | push (b : Byte)
  | parse

namespace Delivery

def bytes : Delivery → List Byte
  | append b => [b]
  | push b => [b]
  | parse => []

def parses : Delivery → Bool
  | append _ => false
  | push _ => true
  | parse => true

def arrived (deliveries : List Delivery) : List Byte := deliveries.flatMap bytes

def EndsParsed (deliveries : List Delivery) : Prop :=
  ∃ before final, deliveries = before ++ [final] ∧ final.parses = true

theorem arrived_push (bytes : List Byte) : arrived (bytes.map push) = bytes := by
  rw [arrived, List.flatMap_map]
  exact List.flatMap_singleton' bytes

end Delivery

namespace Grammar

open Delivery

/-- What one call does, with the progress of the parse if it makes one. -/
def handle (g : Grammar) (f : Frame) : Delivery → Outcome Frame (Option Progress)
  | .append b => .done (f.append b) none
  | .push b => (g.push f b).andThen fun f progress => .done f (some progress)
  | .parse => (g.parse f).andThen fun f progress => .done f (some progress)

/-- A run of calls, with the progress of the last one. -/
def deliver (g : Grammar) (f : Frame) (deliveries : List Delivery) : Outcome Frame (Option Progress) :=
  deliveries.foldl (fun o d => o.andThen fun f _ => g.handle f d) (.done f none)

theorem deliver_concat (g : Grammar) (f : Frame) (deliveries : List Delivery) (d : Delivery) :
    g.deliver f (deliveries ++ [d]) = (g.deliver f deliveries).andThen fun f _ => g.handle f d := by
  simp only [deliver, List.foldl_append, List.foldl_cons, List.foldl_nil]

theorem Lawful.handle_parse {g : Grammar} (hg : g.Lawful) (f : Frame) (d : Delivery) (more : List Byte) :
    (g.handle f d).andThen (fun f _ => g.parse (f.extend more)) = g.parse (f.extend (d.bytes ++ more)) := by
  have parsed (f : Frame) : (g.handle f .parse).andThen (fun f _ => g.parse (f.extend more)) =
      g.parse (f.extend more) := by
    rw [handle, Outcome.andThen_assoc]
    exact (hg.parse_extend f more).symm
  cases d with
  | append b =>
    rw [bytes, List.singleton_append, Frame.extend_cons]
    rfl
  | push b =>
    rw [bytes, List.singleton_append, Frame.extend_cons]
    exact parsed (f.append b)
  | parse => exact parsed f

/-- However the bytes got there, the next parse leaves what one parse over all of them would have left. -/
theorem Lawful.deliver_parse {g : Grammar} (hg : g.Lawful) (f : Frame) (deliveries : List Delivery)
    (more : List Byte) :
    (g.deliver f deliveries).andThen (fun f _ => g.parse (f.extend more)) =
      g.parse (f.extend (arrived deliveries ++ more)) := by
  have fromOutcome (o : Outcome Frame (Option Progress)) :
      (deliveries.foldl (fun o d => o.andThen fun f _ => g.handle f d) o).andThen
        (fun f _ => g.parse (f.extend more)) =
      o.andThen fun f _ => g.parse (f.extend (arrived deliveries ++ more)) := by
    induction deliveries generalizing o with
    | nil => rfl
    | cons d rest ih =>
      rw [List.foldl_cons, ih, Outcome.andThen_assoc]
      simp only [hg.handle_parse, arrived, List.flatMap_cons, List.append_assoc]
  exact fromOutcome (.done f none)

/-- Closing begins with a parse, so a frame closes as if all its bytes had come at once. -/
theorem Lawful.deliver_close {g : Grammar} (hg : g.Lawful) (f : Frame) (deliveries : List Delivery)
    (options : CloseOptions) :
    (g.deliver f deliveries).andThen (fun f _ => g.close options f) =
      g.close options (f.extend (arrived deliveries)) := by
  have parsed := hg.deliver_parse f deliveries []
  simp only [Frame.extend_nil, List.append_nil] at parsed
  simp only [close, ← Outcome.andThen_assoc, parsed]

theorem Lawful.deliver_of_endsParsed {g : Grammar} (hg : g.Lawful) (f : Frame)
    {deliveries : List Delivery} (h : EndsParsed deliveries) :
    g.deliver f deliveries = g.handle (f.extend (arrived deliveries)) .parse := by
  obtain ⟨before, final, rfl, hp⟩ := h
  have parsed : (g.deliver f before).andThen (fun f _ => g.handle (f.extend final.bytes) .parse) =
      g.handle (f.extend (arrived (before ++ [final]))) .parse := by
    simp only [handle, ← Outcome.andThen_assoc, hg.deliver_parse, arrived, List.flatMap_append,
      List.flatMap_singleton]
  rw [deliver_concat, ← parsed]
  cases final with
  | append b => cases hp
  | push b => rfl
  | parse => simp only [bytes, Frame.extend_nil]

theorem Lawful.handle_parse_eq {g : Grammar} (hg : g.Lawful) (f : Frame) :
    ∃ progress, (g.parse f).result = .ok progress ∧
      g.handle f .parse = ⟨(g.parse f).state, (g.parse f).reports, .ok (some progress)⟩ := by
  obtain ⟨progress, hr⟩ := hg.parse_ok f
  refine ⟨progress, hr, ?_⟩
  rw [handle, Outcome.andThen_eq_of_ok hr, Outcome.done, List.append_nil]

theorem Lawful.handle_parse_ok {g : Grammar} (hg : g.Lawful) (f : Frame) :
    ∃ progress, (g.handle f .parse).result = .ok (some progress) := by
  obtain ⟨progress, -, h⟩ := hg.handle_parse_eq f
  exact ⟨progress, congrArg Outcome.result h⟩

theorem Lawful.reports_prefix {g : Grammar} (hg : g.Lawful) (f : Frame) (more : List Byte) :
    (g.handle f .parse).reports <+: (g.handle (f.extend more) .parse).reports := by
  obtain ⟨progress, hr, h⟩ := hg.handle_parse_eq f
  obtain ⟨_, -, h'⟩ := hg.handle_parse_eq (f.extend more)
  rw [h, h', hg.parse_extend f more, Outcome.andThen_eq_of_ok hr]
  exact List.prefix_append _ _

end Grammar

/-- Two runs of calls that bring the same bytes to a new frame and end with a parse are the same in all
that can be seen of them: reports, frame and progress, and so also in how the frame closes. With fewer
bytes a run has reported a first part of what it reports with more. -/
theorem deliver_eq_of_arrived (role : Role) (n : Nat) (start : Time) {xs ys : List Delivery}
    (hx : Delivery.EndsParsed xs) (hy : Delivery.EndsParsed ys) :
    let g := role.grammar n
    let run := g.deliver (.opened role start)
    (∃ progress, (run xs).result = .ok (some progress)) ∧
    (Delivery.arrived xs = Delivery.arrived ys → run xs = run ys ∧
      ∀ options, g.close options (run xs).state = g.close options (run ys).state) ∧
    (Delivery.arrived xs <+: Delivery.arrived ys → (run xs).reports <+: (run ys).reports) := by
  intro g run
  have hg : g.Lawful := role.lawful_grammar n
  have ex : run xs = g.handle ((Frame.opened role start).extend (Delivery.arrived xs)) .parse :=
    hg.deliver_of_endsParsed _ hx
  have ey : run ys = g.handle ((Frame.opened role start).extend (Delivery.arrived ys)) .parse :=
    hg.deliver_of_endsParsed _ hy
  refine ⟨?_, fun same => ?_, fun first => ?_⟩
  · rw [ex]
    exact hg.handle_parse_ok _
  · have e : run xs = run ys := by rw [ex, ey, same]
    exact ⟨e, fun options => by rw [e]⟩
  · obtain ⟨more, hm⟩ := first
    rw [ex, ey, ← hm, Frame.extend_append]
    exact hg.reports_prefix _ more

/-- A request for the exception status of server 17. -/
def statusQuery : List Byte := [⟨0x11, 0, 8⟩, ⟨0x07, 10, 18⟩, ⟨0x4C, 20, 28⟩, ⟨0x22, 30, 38⟩]

theorem deliver_statusQuery :
    let g := Role.grammar .request 2
    let pushed := statusQuery.map Delivery.push
    let appended := statusQuery.map Delivery.append ++ [.parse, .parse]
    Delivery.EndsParsed pushed ∧ Delivery.EndsParsed appended ∧
      g.deliver (.opened .request 0) pushed = g.deliver (.opened .request 0) appended := by
  intro g pushed appended
  have hp : Delivery.EndsParsed pushed := ⟨pushed.dropLast, .push ⟨0x22, 30, 38⟩, rfl, rfl⟩
  have ha : Delivery.EndsParsed appended := ⟨appended.dropLast, .parse, rfl, rfl⟩
  exact ⟨hp, ha, ((deliver_eq_of_arrived .request 2 0 hp ha).2.1 rfl).1⟩

end ModbusRtu
