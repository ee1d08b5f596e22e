import ModbusRtu.Proofs.Closing

/-! Where in time the reports on a frame lie. Each is the span of some of its bytes, or it tells of bytes that
did not come: then it begins where a byte ends, or with the frame if none was reported, and ends with the
margin behind the last byte. -/

namespace ModbusRtu

namespace Time

theorem le_plus (t d : Time) : t ≤ t.plus d := by
  rw [UInt64.le_iff_toNat_le, toNat_plus]
  exact Nat.le_min.mpr ⟨Nat.le_add_right _ _, toNat_le_lastTick t⟩

theorem le_later_left (t u : Time) : t ≤ t.later u := by
  rw [UInt64.le_iff_toNat_le, toNat_later]
  exact Nat.le_max_left _ _

theorem le_later_right (t u : Time) : u ≤ t.later u := by
  rw [UInt64.le_iff_toNat_le, toNat_later]
  exact Nat.le_max_right _ _

end Time

/-- Bytes that end no sooner than they start, none of which starts before one that is ahead of it. They may
overlap. -/
structure StartInOrder (bytes : List Byte) : Prop where
  forward : ∀ b ∈ bytes, b.start ≤ b.stop
  sorted : bytes.Pairwise fun a b => a.start ≤ b.start

namespace StartInOrder

variable {bytes : List Byte}

theorem sublist {part : List Byte} (h : StartInOrder bytes) (hp : part.Sublist bytes) : StartInOrder part :=
  ⟨fun b hb => h.forward b (hp.subset hb), h.sorted.sublist hp⟩

theorem start_le_start (h : StartInOrder bytes) {i j : Nat} {a b : Byte} (hij : i ≤ j)
    (ha : bytes[i]? = some a) (hb : bytes[j]? = some b) : a.start ≤ b.start := by
  rcases Nat.eq_or_lt_of_le hij with rfl | hlt
  · obtain rfl := Option.some.inj (ha.symm.trans hb)
    exact UInt64.le_refl _
  · obtain ⟨hi, rfl⟩ := List.getElem?_eq_some_iff.mp ha
    obtain ⟨hj, rfl⟩ := List.getElem?_eq_some_iff.mp hb
    exact List.pairwise_iff_getElem.mp h.sorted i j hi hj hlt

theorem head_le {first b : Byte} {more : List Byte} (h : StartInOrder (first :: more))
    (hb : b ∈ first :: more) : first.start ≤ b.start := by
  obtain ⟨i, hi⟩ := List.mem_iff_getElem?.mp hb
  exact h.start_le_start (Nat.zero_le i) rfl hi

end StartInOrder

namespace Frame

/-- The times that a report on `f` can have. -/
inductive Extent (f : Frame) (margin start stop : Time) : Prop
  | bytes {i j : Nat} {a b : Byte} (h : i ≤ j) (ha : f.bytes[i]? = some a) (hb : f.bytes[j]? = some b)
      (ends : start = a.start ∧ stop = b.stop)
  | tail (h : start = f.start ∨ ∃ b ∈ f.bytes, start = b.stop) (reach : stop = f.lastRead.plus margin)

/-- What can happen to `f` without more bytes arriving, with all that is reported in its time. -/
structure Keeps {α : Type} (f : Frame) (margin : Time) (o : Outcome Frame α) : Prop where
  evolves : f.Evolves o
  extents : ∀ r ∈ o.reports, f.Extent margin r.start r.stop

section Keeps

variable {α β : Type} {f : Frame} {margin : Time} {o : Outcome Frame α}

theorem Keeps.done (f : Frame) (a : α) : Keeps f margin (.done f a) := ⟨.done f a, List.forall_mem_nil _⟩

theorem Keeps.failed (f : Frame) (fault : Fault) : Keeps f margin (.failed f fault : Outcome Frame α) :=
  ⟨.failed f fault, List.forall_mem_nil _⟩

theorem Evolves.extent (h : Evolves f o) {start stop : Time} (he : o.state.Extent margin start stop) :
    f.Extent margin start stop := by
  cases he with
  | bytes hij ha hb ends => exact .bytes hij (h.bytes ▸ ha) (h.bytes ▸ hb) ends
  | tail hs reach => exact .tail (h.start ▸ h.bytes ▸ hs) (h.lastRead ▸ reach)

theorem Keeps.andThen {next : Frame → α → Outcome Frame β} (h : Keeps f margin o)
    (hn : ∀ a, Keeps o.state margin (next o.state a)) : Keeps f margin (o.andThen next) := by
  refine ⟨h.evolves.andThen fun a => (hn a).evolves, ?_⟩
  cases hr : o.result with
  | error fault =>
    simp only [Outcome.andThen, hr]
    exact h.extents
  | ok a =>
    rw [Outcome.andThen_eq_of_ok hr]
    exact List.forall_mem_append.mpr ⟨h.extents, fun r hmem => h.evolves.extent ((hn a).extents r hmem)⟩

theorem Keeps.of_require {length : Nat} (h : Keeps (f.require length) margin o) : Keeps f margin o := by
  refine ⟨.of_require h.evolves, fun r hmem => ?_⟩
  cases h.extents r hmem with
  | bytes hij ha hb ends => exact .bytes hij ha hb ends
  | tail hs reach => exact .tail hs reach

theorem Keeps.of_tied (h : Evolves f o) (tied : ∀ r ∈ o.reports, r.covers.isSome) : Keeps f margin o := by
  refine ⟨h, fun r hmem => ?_⟩
  obtain ⟨⟨first, last⟩, hc⟩ := Option.isSome_iff_exists.mp (tied r hmem)
  obtain ⟨hle, head, final, hhead, hfinal, ends⟩ := h.fits r hmem first last hc
  exact .bytes hle hhead hfinal ends

theorem keeps_reportIfNew (f : Frame) (last : Nat) (note : Except Fault Note) :
    Keeps f margin (f.reportIfNew last note) := by
  refine .of_tied (evolves_reportIfNew f last note) ?_
  show ∀ r ∈ ((Item.field last note).apply f).reports, r.covers.isSome
  rcases Item.field_cases last note f with ⟨-, h⟩ | ⟨-, h⟩ | ⟨said, -, hc, hl, h⟩ | ⟨fault, -, -, -, h⟩
  · exact h ▸ List.forall_mem_nil _
  · exact h ▸ List.forall_mem_nil _
  · obtain ⟨first, final, -, -, hr⟩ := report_of_due said hc hl
    rw [h, hr]
    intro r hmem
    rw [List.mem_singleton.mp hmem]
    rfl
  · exact h ▸ List.forall_mem_nil _

theorem keeps_reportRest (f : Frame) (note : Note) : Keeps f margin (f.reportRest note) :=
  (keeps_reportIfNew f _ _).andThen fun _ => .done _ ()

theorem keeps_reportWithin {times : Except Fault (Time × Time)} (note : Note)
    (h : ∀ ends, times = .ok ends → f.Extent margin ends.1 ends.2) :
    Keeps f margin (f.reportWithin times note) := by
  refine ⟨evolves_reportWithin f times note, ?_⟩
  cases times with
  | error fault => exact List.forall_mem_nil _
  | ok ends =>
    intro r hmem
    rw [List.mem_singleton.mp hmem]
    exact h ends rfl

end Keeps

theorem byteAt_eq_ok {f : Frame} {index : Nat} {b : Byte} (h : f.byteAt index = .ok b) :
    f.bytes[index]? = some b := by
  unfold byteAt at h
  split at h
  · rename_i hb
    exact hb.trans (congrArg some (Except.ok.inj h))
  · cases h

theorem Extent.one {f : Frame} {margin : Time} {index : Nat} {b : Byte} (h : f.byteAt index = .ok b) :
    f.Extent margin b.start b.stop :=
  .bytes (Nat.le_refl _) (byteAt_eq_ok h) (byteAt_eq_ok h) ⟨rfl, rfl⟩

theorem Extent.behind {f : Frame} {margin : Time} {index : Nat} {b : Byte} (h : f.byteAt index = .ok b) :
    f.Extent margin b.stop (f.lastRead.plus margin) :=
  .tail (Or.inr ⟨b, List.mem_of_getElem? (byteAt_eq_ok h), rfl⟩) rfl

theorem ok_of_map {α β : Type} {x : Except Fault α} {g : α → β} {b : β} (h : x.map g = .ok b) :
    ∃ a, x = .ok a ∧ g a = b := by
  cases x with
  | error fault => cases h
  | ok a => exact ⟨a, rfl, Except.ok.inj h⟩

variable {f : Frame} {margin : Time}

theorem extent_oversizedTimes {ends : Time × Time} (h : f.oversizedTimes margin = .ok ends) :
    f.Extent margin ends.1 ends.2 := by
  unfold oversizedTimes at h
  split at h
  · obtain ⟨final, hfinal, rfl⟩ := ok_of_map h
    exact .behind hfinal
  · obtain ⟨crossing, hcrossing, rfl⟩ := ok_of_map h
    exact .one hcrossing

theorem extent_tooShortTimes {ends : Time × Time} (h : f.tooShortTimes margin = .ok ends) :
    f.Extent margin ends.1 ends.2 := by
  unfold tooShortTimes at h
  split at h
  · obtain ⟨final, hfinal, rfl⟩ := ok_of_map h
    exact .behind hfinal
  · obtain rfl := Except.ok.inj h
    exact .tail (Or.inl rfl) rfl

theorem extent_wholeTimes {ends : Time × Time} (h : f.wholeTimes = .ok ends) :
    f.Extent margin ends.1 ends.2 := by
  unfold wholeTimes at h
  split at h
  · rename_i first final hfirst hfinal
    obtain rfl := Except.ok.inj h
    exact .bytes (Nat.zero_le _) (byteAt_eq_ok hfirst) (byteAt_eq_ok hfinal) ⟨rfl, rfl⟩
  · cases h
  · cases h

theorem keeps_reportUnknown (f : Frame) (recognizes : UInt8 → Bool) :
    Keeps f margin (f.reportUnknown recognizes) := by
  unfold reportUnknown
  split
  · split
    · exact keeps_reportRest f _
    · exact .done f ()
  · exact .done f ()

theorem keeps_reportOversized (f : Frame) : Keeps f margin (f.reportOversized margin) := by
  unfold reportOversized
  split
  · refine (keeps_reportIfNew f _ _).andThen fun progress => ?_
    split
    · exact keeps_reportWithin _ fun ends h => extent_oversizedTimes h
    · exact .done _ ()
  · exact .done f ()

theorem keeps_reportLength (f : Frame) (parsed : Progress) : Keeps f margin (f.reportLength parsed margin) := by
  unfold reportLength
  split
  · exact keeps_reportWithin _ fun ends h => extent_tooShortTimes h
  split
  · exact keeps_reportRest f _
  · exact .done f ()

theorem keeps_markErrors (f : Frame) (wanted : Bool) : Keeps f margin (f.markErrors wanted) := by
  unfold markErrors
  split
  · exact keeps_reportWithin _ fun ends h => extent_wholeTimes h
  · exact .done f ()

end Frame

open ModbusRtu.Frame

theorem Item.keeps_apply (item : Item) (f : Frame) (margin : Time) : f.Keeps margin (item.apply f) := by
  cases item with
  | require length => exact .of_require (.done (f.require length) _)
  | await index => exact .done f _
  | field last note => exact keeps_reportIfNew f last note
  | trailer last => exact .of_require (keeps_reportIfNew (f.require (last + 1)) last _)
  | pending => exact .done f _
  | broken fault => exact .failed f fault

theorem Plan.keeps_sweep (p : Plan) (f : Frame) (margin : Time) : f.Keeps margin (p.sweep f) := by
  induction p generalizing f with
  | nil => exact .done f _
  | cons item rest ih =>
    refine (item.keeps_apply f margin).andThen fun progress => ?_
    cases progress with
    | settled => exact ih _
    | reported => exact ih _
    | waiting => exact .done _ _

namespace Grammar

theorem keeps_parse (g : Grammar) (f : Frame) (margin : Time) : f.Keeps margin (g.parse f) := by
  rw [parse_eq_sweep]
  exact Plan.keeps_sweep _ f margin

theorem keeps_close (g : Grammar) (options : CloseOptions) (f : Frame) :
    f.Keeps options.margin (g.close options f) := by
  refine (g.keeps_parse f _).andThen fun parsed => ?_
  split
  · exact .done _ ()
  refine (keeps_reportUnknown _ _).andThen fun _ => ?_
  refine (keeps_reportOversized _).andThen fun _ => ?_
  exact (keeps_reportLength _ parsed).andThen fun _ => keeps_markErrors _ _

end Grammar

namespace Frame

theorem le_foldl_later (start : Time) (bytes : List Byte) :
    let reach := bytes.foldl (fun time b => time.later b.stop) start
    start ≤ reach ∧ ∀ b ∈ bytes, b.stop ≤ reach := by
  induction bytes generalizing start with
  | nil => exact ⟨UInt64.le_refl _, List.forall_mem_nil _⟩
  | cons b rest ih =>
    obtain ⟨hstart, hrest⟩ := ih (start.later b.stop)
    refine ⟨UInt64.le_trans (Time.le_later_left _ _) hstart, List.forall_mem_cons.mpr ⟨?_, hrest⟩⟩
    exact UInt64.le_trans (Time.le_later_right _ _) hstart

section Filled

variable {role : Role} {start stop margin : Time}

/-- No report on a frame goes beyond the margin behind its last byte. -/
theorem Extent.stop_le {opened : Time} {bytes : List Byte}
    (h : (filled role opened bytes).Extent margin start stop) :
    stop ≤ (filled role opened bytes).lastRead.plus margin := by
  cases h with
  | bytes hij ha hb ends =>
    have read := (le_foldl_later opened bytes).2 _ (List.mem_of_getElem? hb)
    exact ends.2 ▸ UInt64.le_trans read (Time.le_plus _ _)
  | tail hs reach => exact reach ▸ UInt64.le_refl _

/-- A report on a frame whose bytes start in order starts no sooner than the first of them and does not end
before it starts. -/
theorem Extent.forward {first : Byte} {more : List Byte} (ordered : StartInOrder (first :: more))
    (h : (filled role first.start (first :: more)).Extent margin start stop) :
    first.start ≤ start ∧ start ≤ stop := by
  obtain ⟨hstart, hread⟩ := le_foldl_later first.start (first :: more)
  cases h with
  | bytes hij ha hb ends =>
    have later := ordered.head_le (List.mem_of_getElem? ha)
    have straight := ordered.forward _ (List.mem_of_getElem? hb)
    exact ⟨ends.1 ▸ later, ends.1 ▸ ends.2 ▸ UInt64.le_trans (ordered.start_le_start hij ha hb) straight⟩
  | tail hs reach =>
    subst reach
    rcases hs with rfl | ⟨b, hmem, rfl⟩
    · exact ⟨UInt64.le_refl _, UInt64.le_trans hstart (Time.le_plus _ _)⟩
    · exact ⟨UInt64.le_trans (ordered.head_le hmem) (ordered.forward b hmem),
        UInt64.le_trans (hread b hmem) (Time.le_plus _ _)⟩

end Filled

end Frame

end ModbusRtu
