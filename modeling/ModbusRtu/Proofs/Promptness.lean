import ModbusRtu.Proofs.Tiling
import ModbusRtu.Proofs.Verdict

/-! Fields are reported as soon as they are complete. No plan waits for a byte behind the end of the next field,
so what a parse leaves for later ends with a byte still to come. If the bytes are pushed one by one, a field of
the table is reported with its last byte, or with the fourth of the frame, before which nothing is said. -/

namespace ModbusRtu

open Item FieldTable

namespace Plan

/-- The fields end at `first` or later, one after the other, and none of them has to wait for a byte behind
its end. -/
inductive Prompt : Nat → Plan → Prop
  | nil (first : Nat) : Prompt first []
  | require {first : Nat} {p : Plan} (length : Nat) (rest : Prompt first p) :
      Prompt first (.require length :: p)
  | await {first index : Nat} {p : Plan} (h : index ≤ first) (rest : Prompt first p) :
      Prompt first (.await index :: p)
  | field {first last : Nat} {p : Plan} (said : Note) (h : first ≤ last) (rest : Prompt (last + 1) p) :
      Prompt first (.due last said :: p)
  | trailer {first last : Nat} {p : Plan} (h : first ≤ last) (rest : Prompt (last + 1) p) :
      Prompt first (.trailer last :: p)
  | pending (first : Nat) : Prompt first [.pending]

/-- Nothing that the plan says ends before `first`. -/
def EndsFrom (first : Nat) (p : Plan) : Prop := ∀ item ∈ p, item.Says fun last _ => first ≤ last

section Prompt

variable {first n : Nat} {item : Item} {p q : Plan}

theorem endsFrom_cons :
    EndsFrom first (item :: p) ↔ (item.Says fun last _ => first ≤ last) ∧ EndsFrom first p :=
  List.forall_mem_cons

theorem EndsFrom.of_le {next : Nat} (h : EndsFrom next p) (hn : first ≤ next) : EndsFrom first p :=
  fun item hmem => (h item hmem).imp fun _ _ behind => Nat.le_trans hn behind

theorem Prompt.endsFrom (h : Prompt first p) : EndsFrom first p := by
  induction h with
  | nil first => exact List.forall_mem_nil _
  | require length rest ih => exact endsFrom_cons.mpr ⟨trivial, ih⟩
  | await h rest ih => exact endsFrom_cons.mpr ⟨trivial, ih⟩
  | field said h rest ih => exact endsFrom_cons.mpr ⟨fun _ _ => h, ih.of_le (Nat.le_succ_of_le h)⟩
  | trailer h rest ih => exact endsFrom_cons.mpr ⟨⟨h, fun _ => h⟩, ih.of_le (Nat.le_succ_of_le h)⟩
  | pending first => exact endsFrom_cons.mpr ⟨trivial, List.forall_mem_nil _⟩

theorem Prompt.endsFrom_of_waits (h : Prompt first (item :: p)) (hw : item.Waits n) :
    EndsFrom n (item :: p) := by
  cases h with
  | require length rest => exact hw.elim
  | await hi rest => exact endsFrom_cons.mpr ⟨trivial, rest.endsFrom.of_le (Nat.le_trans hw hi)⟩
  | field said hl rest => exact endsFrom_cons.mpr ⟨fun _ _ => hw, rest.endsFrom.of_le (Nat.le_succ_of_le hw)⟩
  | trailer hl rest => exact endsFrom_cons.mpr ⟨⟨hw, fun _ => hw⟩, rest.endsFrom.of_le (Nat.le_succ_of_le hw)⟩
  | pending => exact endsFrom_cons.mpr ⟨trivial, List.forall_mem_nil _⟩

theorem Prompt.tail (h : Prompt first (item :: p)) : ∃ next, Prompt next p := by
  cases h with
  | require length rest => exact ⟨_, rest⟩
  | await hi rest => exact ⟨_, rest⟩
  | field said hl rest => exact ⟨_, rest⟩
  | trailer hl rest => exact ⟨_, rest⟩
  | pending => exact ⟨first, .nil first⟩

theorem Tiles.prompt {v : Bytes} {slots : List Slot} (h : Tiles v first p slots) : Prompt first p := by
  induction h with
  | require length rest ih => exact .require length ih
  | await h rest ih => exact .await h ih
  | field h rest ih => exact .field _ h.within.1 ih
  | @trailer first last skipped h =>
    have behind : first ≤ last := by omega
    exact .trailer behind (.nil _)

theorem sweep_again {f : Frame} (more : List Byte) (hs : item.Sound) (hw : ¬ item.Waits f.length) :
    sweep (item :: q) ((sweep (item :: p) f).state.extend more) =
      q.sweep ((p.sweep (item.apply f).state).state.extend more) := by
  obtain ⟨progress, hr⟩ := apply_ok hs f
  have passed := passed_of_apply hr fun waiting => not_waiting hw (waiting ▸ hr)
  rw [(sweep_cons_state_result p hs hw).1]
  refine sweep_cons_of_passed q (passed.of_grows ?_)
  exact (evolves_sweep p (item.apply f).state).grows.trans (Frame.grows_extend _ more)

/-- What a sweep leaves for later ends with a byte that had not arrived. -/
theorem Agree.late (h : Agree n p q) (hs : p.Sound) (hq : Prompt first q) (f : Frame) (hn : f.length = n)
    (more : List Byte) :
    ∀ r ∈ (q.sweep ((p.sweep f).state.extend more)).reports,
      ∃ start last, r.covers = some (start, last) ∧ n ≤ last := by
  -- up to the first item that waits the second sweep finds all settled, and behind it all ends late
  induction h generalizing f first with
  | nil => exact List.forall_mem_nil _
  | @cons item p q rest ih =>
    obtain ⟨hi, hrest⟩ := sound_cons.mp hs
    by_cases hw : item.Waits n
    · exact mem_sweep (hq.endsFrom_of_waits hw) _
    · obtain ⟨next, hq⟩ := hq.tail
      rw [sweep_again more hi (hn ▸ hw)]
      exact ih hw hrest hq _ ((evolves_apply item f).length.trans hn)
  | @field last said told p q same rest ih =>
    obtain ⟨hi, hrest⟩ := sound_cons.mp hs
    by_cases hl : last < n
    · obtain rfl := same hl
      have hw : ¬ (Item.field last said).Waits f.length := hn ▸ Nat.not_le.mpr hl
      obtain ⟨next, hq⟩ := hq.tail
      rw [sweep_again more hi hw]
      exact ih hl hrest hq _ ((evolves_apply _ f).length.trans hn)
    · have hw : (Item.field last told).Waits n := Nat.not_lt.mp hl
      exact mem_sweep (hq.endsFrom_of_waits hw) _

end Prompt

end Plan

theorem Role.prompt_plan (role : Role) (n : Nat) (v : Bytes) :
    ∃ p, (role.grammar n).plan v = .await 3 :: p ∧ Plan.Prompt 0 p := by
  cases known : (role.grammar n).recognizes (v.byte 1) with
  | true =>
    obtain ⟨p, hp, tiles⟩ := tiles_plan role n known
    exact ⟨p, hp, tiles.prompt⟩
  | false => exact ⟨_, role.plan_of_unknown n known, .field _ (Nat.le_refl 0) (.pending 1)⟩

/-- The index of the byte that a report on bytes has to wait for. -/
def Report.due (r : Report) : Option Nat := r.covers.map fun range => max 3 range.2

theorem Report.due_eq_some_iff {r : Report} {k : Nat} :
    r.due = some k ↔ ∃ first last, r.covers = some (first, last) ∧ k = max 3 last := by
  rw [due, Option.map_eq_some_iff]
  constructor
  · rintro ⟨⟨first, last⟩, covers, rfl⟩
    exact ⟨first, last, covers, rfl⟩
  · rintro ⟨first, last, covers, rfl⟩
    exact ⟨(first, last), covers, rfl⟩

theorem Report.filter_due_eq_nil {reports : List Report} {k : Nat}
    (h : ∀ r ∈ reports, ∃ j, r.due = some j ∧ j ≠ k) : reports.filter (fun r => r.due = some k) = [] := by
  refine List.filter_eq_nil_iff.mpr fun r hr same => ?_
  obtain ⟨j, hj, other⟩ := h r hr
  exact other (Option.some.inj (hj.symm.trans (of_decide_eq_true same)))

theorem Report.rows_due {reports : List Report} {table : List Entry} (rows : reports.map row = table.map Entry.row)
    (k : Nat) : (reports.filter fun r => r.due = some k).map row =
      (table.filter fun e => max 3 e.last = k).map Entry.row := by
  let due (row : Option (Nat × Nat) × Category × Note) : Bool := row.1.map (fun range => max 3 range.2) = some k
  have ends : table.filter (due ∘ Entry.row) = table.filter fun e => max 3 e.last = k := by
    refine List.filter_congr fun e _ => decide_eq_decide.mpr ?_
    rw [Entry.row, Option.map_some, Option.some.injEq]
  calc (reports.filter fun r => r.due = some k).map row
      = (reports.filter (due ∘ row)).map row := rfl
    _ = (reports.map row).filter due := List.filter_map.symm
    _ = (table.map Entry.row).filter due := by rw [rows]
    _ = (table.filter (due ∘ Entry.row)).map Entry.row := List.filter_map
    _ = _ := by rw [ends]

/-- The fields that are told while a frame comes. An unknown function is none of them: it waits for the end. -/
def Role.told (role : Role) (n : Nat) (v : Bytes) : List Slot :=
  if (role.grammar n).recognizes (v.byte 1) then role.fields n v else [serverId v role]

namespace Grammar

/-- Once a parse has seen four bytes, it has left nothing to say of bytes that it had. -/
theorem late (role : Role) (n : Nat) (f : Frame) (h4 : Limits.minFrameLength ≤ f.length) (more : List Byte) :
    ∀ r ∈ ((role.grammar n).parse (((role.grammar n).parse f).state.extend more)).reports,
      ∃ first last, r.covers = some (first, last) ∧ f.length ≤ last := by
  have hg := role.lawful_grammar n
  have ready : ¬ (Item.await 3).Waits f.length := Nat.not_le.mpr h4
  obtain ⟨p, hp⟩ := role.plan_awaits n f.values
  obtain ⟨q, hq, prompt⟩ := role.prompt_plan n (f.values ++ more.map Byte.value)
  have agree := hg.causal f.values (more.map Byte.value)
  have sound := hg.sound f.values
  have evolves := (role.grammar n).evolves_parse f
  have values : (((role.grammar n).parse f).state.extend more).values = f.values ++ more.map Byte.value := by
    rw [Frame.values_extend, evolves.values]
  rw [hp, hq, Frame.length_values] at agree
  rw [hp] at sound
  obtain ⟨hi, hrest⟩ := Plan.sound_cons.mp sound
  rw [parse_eq_sweep (f := Frame.extend _ more), values, hq, parse_eq_sweep, hp,
    Plan.sweep_again more hi ready]
  cases agree with
  | cons item rest => exact (rest ready).late hrest prompt f rfl more

section Pushed

variable (role : Role) (n : Nat) (start : Time)

theorem reports_filled_append (early more : List Byte) :
    ((role.grammar n).parse (.filled role start (early ++ more))).reports =
      ((role.grammar n).parse (.filled role start early)).reports ++
        ((role.grammar n).parse (((role.grammar n).parse (.filled role start early)).state.extend more)).reports := by
  have hg := role.lawful_grammar n
  obtain ⟨progress, hr⟩ := hg.parse_ok (.filled role start early)
  rw [Frame.filled, Frame.extend_append, ← Frame.filled, hg.parse_extend, Outcome.andThen_eq_of_ok hr]

theorem deliver_push_eq (bytes : List Byte) :
    let o := (role.grammar n).deliver (.opened role start) (bytes.map Delivery.push)
    (∃ progress, o.result = .ok progress) ∧
      o.state = ((role.grammar n).parse (.filled role start bytes)).state ∧
      o.reports = ((role.grammar n).parse (.filled role start bytes)).reports := by
  intro o
  by_cases h : bytes = []
  · subst h
    have tiny : (Frame.filled role start []).length < Limits.minFrameLength := Nat.zero_lt_succ 3
    rw [role.parse_of_tiny n tiny]
    exact ⟨⟨none, rfl⟩, rfl, rfl⟩
  · obtain ⟨progress, -, handled⟩ := (role.lawful_grammar n).handle_parse_eq (.filled role start bytes)
    have ho : o = _ := ((role.lawful_grammar n).received_eq (.opened role start) h).trans handled
    rw [ho]
    exact ⟨⟨_, rfl⟩, rfl, rfl⟩

theorem due_lt_of_mem_parse {bytes : List Byte} :
    ∀ r ∈ ((role.grammar n).parse (.filled role start bytes)).reports, ∃ k, r.due = some k ∧ k < bytes.length := by
  intro r hr
  have h4 : Limits.minFrameLength ≤ bytes.length := by
    refine Nat.not_lt.mp fun tiny => ?_
    rw [role.parse_of_tiny n (f := .filled role start bytes) tiny] at hr
    cases hr
  obtain ⟨⟨first, last⟩, covers⟩ := Option.isSome_iff_exists.mp (ofField_of_mem_parse role n _ r hr).1
  obtain ⟨-, -, final, -, hfinal, -⟩ := ((role.grammar n).evolves_parse _).fits r hr first last covers
  have hl : last < bytes.length := (List.getElem?_eq_some_iff.mp hfinal).1
  exact ⟨_, Report.due_eq_some_iff.mpr ⟨first, last, covers, rfl⟩, Nat.max_lt.mpr ⟨h4, hl⟩⟩

theorem le_due_of_mem_later (early more : List Byte) :
    ∀ r ∈ ((role.grammar n).parse (((role.grammar n).parse (.filled role start early)).state.extend more)).reports,
      ∃ k, r.due = some k ∧ early.length ≤ k := by
  intro r hr
  by_cases h4 : Limits.minFrameLength ≤ early.length
  · obtain ⟨first, last, covers, behind⟩ := late role n (.filled role start early) h4 more r hr
    exact ⟨_, Report.due_eq_some_iff.mpr ⟨first, last, covers, rfl⟩, Nat.le_trans behind (Nat.le_max_right _ _)⟩
  · obtain ⟨⟨first, last⟩, covers⟩ := Option.isSome_iff_exists.mp (ofField_of_mem_parse role n _ r hr).1
    have h3 : early.length ≤ 3 := Nat.le_of_lt_succ (Nat.not_le.mp h4)
    exact ⟨_, Report.due_eq_some_iff.mpr ⟨first, last, covers, rfl⟩, Nat.le_trans h3 (Nat.le_max_left _ _)⟩

theorem reports_parse_told {bytes : List Byte} (h4 : Limits.minFrameLength ≤ bytes.length) :
    ((role.grammar n).parse (.filled role start bytes)).reports.map Report.row =
      ((entries 0 (role.told n (bytes.map Byte.value))).filter fun e => e.last < bytes.length).map Entry.row := by
  let f := Frame.filled role start bytes
  have values : f.values = bytes.map Byte.value := Frame.values_filled role start bytes
  rw [← values]
  cases known : (role.grammar n).recognizes (f.values.byte 1) with
  | true =>
    rw [Role.told, if_pos known]
    exact reports_parse role n f h4 rfl known
  | false =>
    have passed : Passed f (.await 3) := h4
    have plan : (role.grammar n).plan f.values =
        [.await 3, .due 0 (.serverId role (f.values.byte 0)), .pending] := role.plan_of_unknown n known
    rw [Role.told, known, parse_eq_sweep, plan, Plan.sweep_cons_of_passed _ passed]
    exact Plan.reports_field (holds_serverId f.values role) rfl rfl rfl fun _ => rfl

theorem reports_parse_due {bytes : List Byte} {k : Nat} (come : k < bytes.length) :
    (((role.grammar n).parse (.filled role start bytes)).reports.filter fun r => r.due = some k).map Report.row =
      ((entries 0 (role.told n (bytes.map Byte.value))).filter fun e => max 3 e.last = k).map Entry.row := by
  by_cases h4 : Limits.minFrameLength ≤ bytes.length
  · rw [Report.rows_due (reports_parse_told role n start h4) k, List.filter_filter]
    refine congrArg _ (List.filter_congr fun e _ => ?_)
    rw [← Bool.decide_and, decide_eq_decide]
    omega
  · have few : bytes.length ≤ 3 := Nat.le_of_lt_succ (Nat.not_le.mp h4)
    have none : (entries 0 (role.told n (bytes.map Byte.value))).filter (fun e => max 3 e.last = k) = [] := by
      refine List.filter_eq_nil_iff.mpr fun e _ ends => ?_
      have := of_decide_eq_true ends
      omega
    rw [role.parse_of_tiny n (f := .filled role start bytes) (Nat.not_le.mp h4), none]
    rfl

section Push

variable (early : List Byte) (b : Byte)

theorem push_deliver_eq :
    (role.grammar n).push ((role.grammar n).deliver (.opened role start) (early.map Delivery.push)).state b =
      (role.grammar n).parse (((role.grammar n).parse (.filled role start early)).state.extend [b]) := by
  obtain ⟨-, state, -⟩ := deliver_push_eq role n start early
  rw [← state]
  rfl

theorem due_of_mem_push :
    ∀ r ∈ ((role.grammar n).parse (((role.grammar n).parse (.filled role start early)).state.extend [b])).reports,
      r.due = some early.length := by
  -- the report is about bytes that have come, and about one that had not come before
  intro r hr
  have come : r ∈ ((role.grammar n).parse (.filled role start (early ++ [b]))).reports := by
    rw [reports_filled_append]
    exact List.mem_append_right _ hr
  obtain ⟨k, hk, lt⟩ := due_lt_of_mem_parse role n start r come
  obtain ⟨k', hk', le⟩ := le_due_of_mem_later role n start early [b] r hr
  obtain rfl : k = k' := Option.some.inj (hk.symm.trans hk')
  rw [List.length_append, List.length_singleton] at lt
  rw [hk, Nat.le_antisymm (Nat.le_of_lt_succ lt) le]

theorem reports_push_eq_filter (later : List Byte) :
    ((role.grammar n).parse (((role.grammar n).parse (.filled role start early)).state.extend [b])).reports =
      ((role.grammar n).parse (.filled role start (early ++ b :: later))).reports.filter
        fun r => r.due = some early.length := by
  have before : ((role.grammar n).parse (.filled role start early)).reports.filter
      (fun r => r.due = some early.length) = [] := by
    refine Report.filter_due_eq_nil fun r hr => ?_
    obtain ⟨k, hk, lt⟩ := due_lt_of_mem_parse role n start r hr
    exact ⟨k, hk, Nat.ne_of_lt lt⟩
  have now := List.filter_eq_self.mpr fun r hr => decide_eq_true (due_of_mem_push role n start early b r hr)
  have after : ((role.grammar n).parse (((role.grammar n).parse (.filled role start (early ++ [b]))).state.extend
      later)).reports.filter (fun r => r.due = some early.length) = [] := by
    refine Report.filter_due_eq_nil fun r hr => ?_
    obtain ⟨k, hk, le⟩ := le_due_of_mem_later role n start (early ++ [b]) later r hr
    rw [List.length_append, List.length_singleton] at le
    exact ⟨k, hk, Nat.ne_of_gt le⟩
  rw [List.append_cons, reports_filled_append role n start (early ++ [b]), reports_filled_append role n start early,
    List.filter_append, List.filter_append, before, now, after]
  exact (List.append_nil _).symm

end Push

end Pushed

end Grammar

/-- If the bytes of a frame are pushed one by one, a byte brings what is told of the frame and has to wait for it:
the fields that end with it or, with the fourth byte of the frame, those that end with it or before it. Nothing
else comes with it, no field of the table comes later, and all pushes together say what one parse says. -/
theorem push_prompt (role : Role) (n : Nat) (start : Time) (early : List Byte) (b : Byte) (later : List Byte) :
    let g := role.grammar n
    let bytes := early ++ b :: later
    let pushed (bytes : List Byte) := g.deliver (.opened role start) (bytes.map Delivery.push)
    let o := g.push (pushed early).state b
    ((∃ progress, o.result = .ok progress) ∧ ∃ progress, (pushed bytes).result = .ok progress) ∧
    (pushed bytes).reports = (g.parse (.filled role start bytes)).reports ∧
    o.reports = (pushed bytes).reports.filter (fun r => r.due = some early.length) ∧
    o.reports.map (fun r => (r.covers, r.span.category, r.span.text)) =
      ((entries 0 (role.told n (bytes.map Byte.value))).filter fun e => max 3 e.last = early.length).map
        (fun e => (some (e.first, e.last), e.category, e.note.text)) ∧
    (∀ r ∈ o.reports, r.Fits bytes ∧ ∃ first last, r.covers = some (first, last) ∧ early.length = max 3 last) ∧
    (early.length < 3 → o.reports = []) := by
  intro g bytes pushed o
  obtain ⟨ok, -, whole⟩ := Grammar.deliver_push_eq role n start bytes
  have ho : o = _ := Grammar.push_deliver_eq role n start early b
  have due := Grammar.due_of_mem_push role n start early b
  have filtered := Grammar.reports_push_eq_filter role n start early b later
  rw [← ho] at due filtered
  have come : early.length < bytes.length := by
    rw [List.length_append, List.length_cons]
    omega
  have rows : o.reports.map Report.row = _ := filtered ▸ Grammar.reports_parse_due role n start come
  have texts := congrArg (List.map fun row => (row.1, row.2.1, row.2.2.text)) rows
  rw [List.map_map, List.map_map] at texts
  have spread (r : Report) (hr : r ∈ o.reports) := Report.due_eq_some_iff.mp (due r hr)
  refine ⟨⟨ho ▸ (role.lawful_grammar n).parse_ok _, ok⟩, whole, ?_, texts, fun r hr => ⟨?_, spread r hr⟩,
    fun few => ?_⟩
  · rw [show (pushed bytes).reports = _ from whole]
    exact filtered
  · rw [filtered] at hr
    exact ((role.grammar n).evolves_parse _).fits r (List.mem_filter.mp hr).1
  · refine List.eq_nil_iff_forall_not_mem.mpr fun r hr => ?_
    obtain ⟨first, last, -, late⟩ := spread r hr
    omega

/-- The third byte of a query brings nothing yet, the fourth all fields up to the address, and the sixth the
quantity that it ends. -/
theorem push_prompt_emptyQuery :
    let g := Role.request.grammar 2
    let pushed (count : Nat) := g.deliver (.opened .request 0) ((emptyQuery.take count).map Delivery.push)
    let said (o : Outcome Frame Progress) : List (Option (Nat × Nat) × Category × String) :=
      o.reports.map fun r => (r.covers, r.span.category, r.span.text)
    (emptyQuery.take 2).length < 3 ∧ (g.push (pushed 2).state ⟨0x00, 20, 28⟩).reports = [] ∧
      said (g.push (pushed 3).state ⟨0x6B, 30, 38⟩) =
        [(some (0, 0), .serverId, "Slave ID: 17"), (some (1, 1), .function, "Function 3: Read Holding Registers"),
          (some (2, 3), .address, "Start at address 0x6B / 40108")] ∧
      said (g.push (pushed 4).state ⟨0x00, 40, 48⟩) = [] ∧
      said (g.push (pushed 5).state ⟨0x00, 50, 58⟩) =
        [(some (4, 5), .error, "Quantity 0 is out of range (1..=125)")] := by
  intro g pushed said
  have few : (emptyQuery.take 2).length < 3 := by decide
  obtain ⟨-, -, -, -, -, third⟩ := push_prompt .request 2 0 (emptyQuery.take 2) ⟨0x00, 20, 28⟩ []
  obtain ⟨-, -, -, fourth, -⟩ := push_prompt .request 2 0 (emptyQuery.take 3) ⟨0x6B, 30, 38⟩ []
  obtain ⟨-, -, -, fifth, -⟩ := push_prompt .request 2 0 (emptyQuery.take 4) ⟨0x00, 40, 48⟩ []
  obtain ⟨-, -, -, sixth, -⟩ := push_prompt .request 2 0 (emptyQuery.take 5) ⟨0x00, 50, 58⟩ []
  refine ⟨few, third few, fourth.trans ?_, fifth.trans ?_, sixth.trans ?_⟩
  · decide +kernel
  · decide +kernel
  · decide +kernel

end ModbusRtu
