import ModbusRtu.Grammar

/-! What a run of a plan can do to a frame. It comes to one report of bytes that were not covered, or to none
at all, so no item ever takes back what was received, required or reported. An item that a run got past stays
behind it in every later state of the frame, also when more bytes have arrived. -/

namespace ModbusRtu

namespace Report

/-- The indexes of the bytes that a report covers. -/
def indexes (r : Report) : List Nat :=
  match r.covers with
  | some (first, last) => List.range' first (last + 1 - first)
  | none => []

/-- A report that covers bytes begins with the first of them and ends with the last. -/
def Fits (bytes : List Byte) (r : Report) : Prop :=
  ∀ first last, r.covers = some (first, last) → first ≤ last ∧
    ∃ head final, bytes[first]? = some head ∧ bytes[last]? = some final ∧
      r.start = head.start ∧ r.stop = final.stop

/-- The ranges of the error reports that cover bytes. -/
def errorRanges (reports : List Report) : List (Nat × Nat) :=
  (reports.filter (·.note.isError)).filterMap covers

end Report

namespace Frame

structure Grows (f g : Frame) : Prop where
  bytes : f.bytes <+: g.bytes
  minimumLength : f.minimumLength ≤ g.minimumLength
  covered : f.covered ≤ g.covered

theorem Grows.refl (f : Frame) : Grows f f := ⟨List.prefix_refl _, Nat.le_refl _, Nat.le_refl _⟩

theorem Grows.trans {f g h : Frame} (hfg : Grows f g) (hgh : Grows g h) : Grows f h :=
  ⟨hfg.bytes.trans hgh.bytes, Nat.le_trans hfg.minimumLength hgh.minimumLength,
    Nat.le_trans hfg.covered hgh.covered⟩

theorem Grows.length {f g : Frame} (h : Grows f g) : f.length ≤ g.length := h.bytes.length_le

theorem require_of_le {f : Frame} {length : Nat} (h : length ≤ f.minimumLength) : f.require length = f := by
  simp only [require, Nat.max_eq_left h]

theorem require_zero (f : Frame) : f.require 0 = f := require_of_le (Nat.zero_le _)

/-- The frame once the bytes up to `last` are reported with `note`. -/
def reportedTo (f : Frame) (last : Nat) (note : Note) : Frame :=
  { f with
    covered := last + 1
    hasError := f.hasError || note.isError
    errorRanges := if note.isError then f.errorRanges ++ [(f.covered, last)] else f.errorRanges }

theorem report_of_due {f : Frame} {last : Nat} (note : Note) (hc : f.covered ≤ last)
    (hl : last < f.length) :
    ∃ first final, f.bytes[f.covered]? = some first ∧ f.bytes[last]? = some final ∧
      f.report last note = ⟨f.reportedTo last note,
        [⟨f.role, note, first.start, final.stop, some (f.covered, last)⟩], .ok .reported⟩ := by
  have hfirst : f.covered < f.bytes.length := Nat.lt_of_le_of_lt hc hl
  have hfinal : last < f.bytes.length := hl
  refine ⟨f.bytes[f.covered], f.bytes[last], List.getElem?_eq_getElem hfirst,
    List.getElem?_eq_getElem hfinal, ?_⟩
  simp only [report, List.getElem?_eq_getElem hfirst, List.getElem?_eq_getElem hfinal, reportedTo]

theorem reportIfNew_of_length_le {f : Frame} {last : Nat} (note : Except Fault Note)
    (h : f.length ≤ last) : f.reportIfNew last note = .done f .waiting := by
  simp only [reportIfNew, whenDue, h, if_true]

theorem reportIfNew_of_lt_covered {f : Frame} {last : Nat} (note : Except Fault Note)
    (hl : last < f.length) (hc : last < f.covered) : f.reportIfNew last note = .done f .settled := by
  simp only [reportIfNew, whenDue, Nat.not_le.mpr hl, hc, if_false, if_true]

theorem reportIfNew_of_due {f : Frame} {last : Nat} (note : Note) (hc : f.covered ≤ last)
    (hl : last < f.length) : f.reportIfNew last (.ok note) = f.report last note := by
  simp only [reportIfNew, whenDue, Nat.not_le.mpr hl, Nat.not_lt.mpr hc, if_false]

theorem reportIfNew_of_fault {f : Frame} {last : Nat} (fault : Fault) (hc : f.covered ≤ last)
    (hl : last < f.length) : f.reportIfNew last (.error fault) = .failed f fault := by
  simp only [reportIfNew, whenDue, Nat.not_le.mpr hl, Nat.not_lt.mpr hc, if_false]

/-- What can happen to `f` without more bytes arriving. The bytes and their times stay as they are, the
cursor never moves back or beyond them, and all that is reported is reported in the role of `f`. The
reports cover what the cursor moves past, each byte once, and the frame keeps book of the errors. -/
structure Evolves {α : Type} (f : Frame) (o : Outcome Frame α) : Prop where
  role : o.state.role = f.role
  bytes : o.state.bytes = f.bytes
  start : o.state.start = f.start
  lastRead : o.state.lastRead = f.lastRead
  minimumLength : f.minimumLength ≤ o.state.minimumLength
  covered : f.covered ≤ o.state.covered
  within : f.covered ≤ f.length → o.state.covered ≤ f.length
  reports : ∀ r ∈ o.reports, r.role = f.role
  fits : ∀ r ∈ o.reports, r.Fits f.bytes
  indexes : o.reports.flatMap Report.indexes = List.range' f.covered (o.state.covered - f.covered)
  hasError : o.state.hasError = (f.hasError || o.reports.any (·.note.isError))
  errorRanges : o.state.errorRanges = f.errorRanges ++ Report.errorRanges o.reports

namespace Evolves

variable {α β : Type} {f : Frame} {o : Outcome Frame α}

theorem length (h : Evolves f o) : o.state.length = f.length := congrArg List.length h.bytes

theorem values (h : Evolves f o) : o.state.values = f.values := congrArg (List.map Byte.value) h.bytes

theorem grows (h : Evolves f o) : Grows f o.state :=
  ⟨h.bytes ▸ List.prefix_refl _, h.minimumLength, h.covered⟩

theorem silent (f : Frame) (result : Except Fault α) : Evolves f ⟨f, [], result⟩ where
  role := rfl
  bytes := rfl
  start := rfl
  lastRead := rfl
  minimumLength := Nat.le_refl _
  covered := Nat.le_refl _
  within := id
  reports := List.forall_mem_nil _
  fits := List.forall_mem_nil _
  indexes := by simp
  hasError := (Bool.or_false _).symm
  errorRanges := (List.append_nil _).symm

theorem done (f : Frame) (a : α) : Evolves f (.done f a) := silent f _

theorem failed (f : Frame) (fault : Fault) : Evolves f (.failed f fault : Outcome Frame α) := silent f _

theorem of_require {length : Nat} (h : Evolves (f.require length) o) : Evolves f o :=
  { h with minimumLength := Nat.le_trans (Nat.le_max_left _ _) h.minimumLength }

/-- Two moves of the cursor, and what was reported on the way. -/
theorem indexes_append {p : Outcome Frame β} (h : Evolves f o) (hg : Evolves o.state p) :
    (o.reports ++ p.reports).flatMap Report.indexes =
      List.range' f.covered (p.state.covered - f.covered) := by
  have first := h.covered
  have second := hg.covered
  rw [List.flatMap_append, h.indexes, hg.indexes,
    show p.state.covered - f.covered =
      (o.state.covered - f.covered) + (p.state.covered - o.state.covered) by omega,
    ← List.range'_append_1, show f.covered + (o.state.covered - f.covered) = o.state.covered by omega]

theorem trans {p : Outcome Frame β} (h : Evolves f o) (hg : Evolves o.state p) :
    Evolves f ⟨p.state, o.reports ++ p.reports, p.result⟩ where
  role := hg.role.trans h.role
  bytes := hg.bytes.trans h.bytes
  start := hg.start.trans h.start
  lastRead := hg.lastRead.trans h.lastRead
  minimumLength := Nat.le_trans h.minimumLength hg.minimumLength
  covered := Nat.le_trans h.covered hg.covered
  within hc := by
    have hw := hg.within
    rw [h.length] at hw
    exact hw (h.within hc)
  reports r hmem := by
    rcases List.mem_append.mp hmem with hmem | hmem
    · exact h.reports r hmem
    · exact (hg.reports r hmem).trans h.role
  fits r hmem := by
    rcases List.mem_append.mp hmem with hmem | hmem
    · exact h.fits r hmem
    · exact h.bytes ▸ hg.fits r hmem
  indexes := h.indexes_append hg
  hasError := by
    rw [hg.hasError, h.hasError, List.any_append, Bool.or_assoc]
  errorRanges := by
    simp only [hg.errorRanges, h.errorRanges, Report.errorRanges, List.filter_append,
      List.filterMap_append, List.append_assoc]

theorem andThen {next : Frame → α → Outcome Frame β} (h : Evolves f o)
    (hn : ∀ a, Evolves o.state (next o.state a)) : Evolves f (o.andThen next) := by
  cases hr : o.result with
  | error fault =>
    simp only [Outcome.andThen, hr]
    exact { h with }
  | ok a =>
    rw [Outcome.andThen_eq_of_ok hr]
    exact h.trans (hn a)

end Evolves

theorem evolves_report {f : Frame} {last : Nat} (note : Note) (hc : f.covered ≤ last)
    (hl : last < f.length) : Evolves f (f.report last note) := by
  obtain ⟨first, final, hfirst, hfinal, hr⟩ := report_of_due note hc hl
  rw [hr]
  exact {
    role := rfl
    bytes := rfl
    start := rfl
    lastRead := rfl
    minimumLength := Nat.le_refl _
    covered := Nat.le_succ_of_le hc
    within := fun _ => hl
    reports := fun r hmem => by rw [List.mem_singleton.mp hmem]
    fits := fun r hmem => by
      rw [List.mem_singleton.mp hmem]
      intro head last hcovers
      obtain ⟨rfl, rfl⟩ := Prod.mk.inj (Option.some.inj hcovers)
      exact ⟨hc, first, final, hfirst, hfinal, rfl, rfl⟩
    indexes := by simp [Report.indexes, reportedTo]
    hasError := by simp [reportedTo]
    errorRanges := by
      cases he : note.isError with
      | true => simp [reportedTo, Report.errorRanges, he]
      | false => simp [reportedTo, Report.errorRanges, he] }

theorem require_require (f : Frame) (length more : Nat) :
    (f.require length).require more = f.require (max length more) := by
  simp only [require, Nat.max_assoc]

/-- All that a walk up to its first report can make of a frame. -/
inductive Walked (f : Frame) : Outcome Frame Progress → Prop
  | quiet (length : Nat) {result : Except Fault Progress} (h : result ≠ .ok .reported) :
      Walked f ⟨f.require length, [], result⟩
  | reported (length : Nat) (note : Note) {last : Nat} (hc : f.covered ≤ last) (hl : last < f.length) :
      Walked f ((f.require length).report last note)

namespace Walked

variable {f : Frame} {o : Outcome Frame Progress}

theorem still (f : Frame) {result : Except Fault Progress} (h : result ≠ .ok .reported) :
    f.Walked ⟨f, [], result⟩ := by
  have walked := quiet (f := f) 0 h
  rwa [require_zero] at walked

theorem of_require {length : Nat} (h : (f.require length).Walked o) : f.Walked o := by
  cases h with
  | quiet more h =>
    rw [require_require]
    exact .quiet _ h
  | reported more note hc hl =>
    rw [require_require]
    exact .reported _ note hc hl

theorem evolves (h : f.Walked o) : f.Evolves o := by
  cases h with
  | quiet length h => exact .of_require (.silent (f.require length) _)
  | reported length note hc hl => exact .of_require (evolves_report (f := f.require length) note hc hl)

/-- A report moves the cursor, but never past the bytes received. -/
theorem covered (h : f.Walked o) (hr : o.result = .ok .reported) :
    f.covered < o.state.covered ∧ o.state.covered ≤ f.length := by
  cases h with
  | quiet length h => exact absurd hr h
  | reported length note hc hl =>
    obtain ⟨first, final, -, -, he⟩ := report_of_due (f := f.require length) note hc hl
    rw [he]
    exact ⟨Nat.lt_succ_of_le hc, hl⟩

/-- A walk goes on as long as all is settled. -/
theorem andThen (h : f.Walked o) {next : Frame → Outcome Frame Progress} (hn : ∀ g, Walked g (next g)) :
    f.Walked (o.andThen fun g progress =>
      match progress with
      | .settled => next g
      | stopped => .done g stopped) := by
  cases h with
  | @quiet length result h =>
    cases result with
    | error fault => exact .quiet length nofun
    | ok progress =>
      cases progress with
      | settled => exact of_require (hn (f.require length))
      | reported => exact absurd rfl h
      | waiting => exact .quiet length nofun
  | reported length note hc hl =>
    obtain ⟨first, final, -, -, hr⟩ := report_of_due (f := f.require length) note hc hl
    have walked := reported length note hc hl
    rw [hr] at walked ⊢
    exact walked

end Walked

theorem walked_reportIfNew (f : Frame) (last : Nat) (note : Except Fault Note) :
    f.Walked (f.reportIfNew last note) := by
  by_cases hl : last < f.length
  · by_cases hc : last < f.covered
    · rw [reportIfNew_of_lt_covered note hl hc]
      exact .still f nofun
    · have hc : f.covered ≤ last := Nat.not_lt.mp hc
      cases note with
      | ok said =>
        have walked := Walked.reported 0 said hc hl
        rw [require_zero] at walked
        rwa [reportIfNew_of_due said hc hl]
      | error fault =>
        rw [reportIfNew_of_fault fault hc hl]
        exact .still f nofun
  · rw [reportIfNew_of_length_le note (Nat.not_lt.mp hl)]
    exact .still f nofun

theorem evolves_reportIfNew (f : Frame) (last : Nat) (note : Except Fault Note) :
    f.Evolves (f.reportIfNew last note) := (f.walked_reportIfNew last note).evolves

end Frame

namespace Item

open ModbusRtu.Frame

theorem trailer_apply (last : Nat) (f : Frame) :
    (trailer last).apply f = (field last (f.trailerNote last)).apply (f.require (last + 1)) := rfl

/-- A run over `f` gets past the item without a report. -/
def Passed (f : Frame) : Item → Prop
  | require length => length ≤ f.minimumLength
  | await index => index < f.length
  | field last _ => last < f.length ∧ last < f.covered
  | trailer last => last < f.length ∧ last < f.covered ∧ last + 1 ≤ f.minimumLength
  | pending => False
  | broken _ => False

theorem Passed.of_grows {f g : Frame} {item : Item} (h : Passed f item) (hg : Grows f g) :
    Passed g item := by
  have hl := hg.length
  have hm := hg.minimumLength
  have hc := hg.covered
  cases item with
  | require length => exact Nat.le_trans h hm
  | await index => exact Nat.lt_of_lt_of_le h hl
  | field last note => exact ⟨Nat.lt_of_lt_of_le h.1 hl, Nat.lt_of_lt_of_le h.2 hc⟩
  | trailer last =>
    exact ⟨Nat.lt_of_lt_of_le h.1 hl, Nat.lt_of_lt_of_le h.2.1 hc, Nat.le_trans h.2.2 hm⟩
  | pending => exact h
  | broken fault => exact h

theorem apply_of_passed {f : Frame} {item : Item} (h : Passed f item) :
    item.apply f = .done f .settled := by
  cases item with
  | require length => simp only [apply, require_of_le h]
  | await index =>
    have hi : index < f.length := h
    simp only [apply, hi, if_true]
  | field last note => exact reportIfNew_of_lt_covered note h.1 h.2
  | trailer last =>
    rw [trailer_apply, require_of_le h.2.2]
    exact reportIfNew_of_lt_covered _ h.1 h.2.1
  | pending => exact h.elim
  | broken fault => exact h.elim

/-- The ways a field can go. Whatever the other items do, they do without a report. -/
theorem field_cases (last : Nat) (note : Except Fault Note) (f : Frame) :
    (f.length ≤ last ∧ (field last note).apply f = .done f .waiting) ∨
    (Passed f (field last note) ∧ (field last note).apply f = .done f .settled) ∨
    (∃ said, note = .ok said ∧ f.covered ≤ last ∧ last < f.length ∧
      (field last note).apply f = f.report last said) ∨
    (∃ fault, note = .error fault ∧ f.covered ≤ last ∧ last < f.length ∧
      (field last note).apply f = .failed f fault) := by
  by_cases hl : last < f.length
  · by_cases hc : last < f.covered
    · exact Or.inr (Or.inl ⟨⟨hl, hc⟩, reportIfNew_of_lt_covered note hl hc⟩)
    · have hc : f.covered ≤ last := Nat.not_lt.mp hc
      cases note with
      | ok said => exact Or.inr (Or.inr (Or.inl ⟨said, rfl, hc, hl, reportIfNew_of_due said hc hl⟩))
      | error fault =>
        exact Or.inr (Or.inr (Or.inr ⟨fault, rfl, hc, hl, reportIfNew_of_fault fault hc hl⟩))
  · have hl : f.length ≤ last := Nat.not_lt.mp hl
    exact Or.inl ⟨hl, reportIfNew_of_length_le note hl⟩

theorem walked_apply (item : Item) (f : Frame) : f.Walked (item.apply f) := by
  cases item with
  | require length => exact .quiet length nofun
  | await index =>
    refine .still f ?_
    split <;> nofun
  | field last note => exact walked_reportIfNew f last note
  | trailer last => exact .of_require (walked_reportIfNew (f.require (last + 1)) last _)
  | pending => exact .still f nofun
  | broken fault => exact .still f nofun

theorem evolves_apply (item : Item) (f : Frame) : f.Evolves (item.apply f) := (item.walked_apply f).evolves

/-- Whatever it is applied to, the item says nothing but `P` of bytes up to a last one. -/
def Says (P : Nat → Note → Prop) : Item → Prop
  | field last note => ∀ said, note = .ok said → P last said
  | trailer last => P last .checksumCorrect ∧ ∀ expected, P last (.checksumExpected expected)
  | _ => True

section Says

variable {P : Nat → Note → Prop} {last : Nat}

theorem says_trailerNote (h : (trailer last).Says P) (f : Frame) :
    (field last (f.trailerNote last)).Says P := by
  intro said hs
  unfold trailerNote at hs
  split at hs
  · cases hs
  split at hs
  · split at hs
    · obtain rfl := Except.ok.inj hs
      exact h.1
    · obtain rfl := Except.ok.inj hs
      exact h.2 _
    · cases hs
  · cases hs

theorem mem_field {note : Except Fault Note} (h : (field last note).Says P) (f : Frame) :
    ∀ r ∈ ((field last note).apply f).reports,
      ∃ first last, r.covers = some (first, last) ∧ P last r.note := by
  rcases field_cases last note f with ⟨-, ha⟩ | ⟨-, ha⟩ | ⟨said, hs, hc, hl, ha⟩ | ⟨fault, -, -, -, ha⟩
  · rw [ha]
    exact List.forall_mem_nil _
  · rw [ha]
    exact List.forall_mem_nil _
  · obtain ⟨first, final, -, -, hr⟩ := report_of_due said hc hl
    rw [ha, hr]
    intro r hmem
    rw [List.mem_singleton.mp hmem]
    exact ⟨_, _, rfl, h said hs⟩
  · rw [ha]
    exact List.forall_mem_nil _

/-- All that items report is tied to bytes. -/
theorem mem_apply {item : Item} (h : item.Says P) (f : Frame) :
    ∀ r ∈ (item.apply f).reports, ∃ first last, r.covers = some (first, last) ∧ P last r.note := by
  cases item with
  | field last note => exact mem_field h f
  | trailer last => exact mem_field (says_trailerNote h f) (f.require (last + 1))
  | _ => exact List.forall_mem_nil _

theorem Says.imp {Q : Nat → Note → Prop} {item : Item} (h : item.Says P)
    (hpq : ∀ last said, P last said → Q last said) : item.Says Q := by
  cases item with
  | field last note => exact fun said hs => hpq last said (h said hs)
  | trailer last => exact ⟨hpq last _ h.1, fun expected => hpq last _ (h.2 expected)⟩
  | _ => trivial

end Says

theorem passed_field {last : Nat} {note : Except Fault Note} {f : Frame} {progress : Progress}
    (hr : ((field last note).apply f).result = .ok progress) (hp : progress ≠ .waiting) :
    Passed ((field last note).apply f).state (field last note) := by
  rcases field_cases last note f with ⟨-, h⟩ | ⟨hd, h⟩ | ⟨said, -, hc, hl, h⟩ | ⟨fault, -, -, -, h⟩
  · rw [h] at hr
    exact absurd (Except.ok.inj hr).symm hp
  · rw [h]; exact hd
  · obtain ⟨first, final, -, -, he⟩ := report_of_due said hc hl
    rw [h, he]
    exact ⟨hl, Nat.lt_succ_self last⟩
  · rw [h] at hr
    cases hr

theorem passed_of_apply {item : Item} {f : Frame} {progress : Progress}
    (hr : (item.apply f).result = .ok progress) (hp : progress ≠ .waiting) :
    Passed (item.apply f).state item := by
  cases item with
  | require length => exact Nat.le_max_right _ _
  | await index =>
    simp only [apply, Outcome.done, Except.ok.injEq] at hr
    by_cases hi : index < f.length
    · exact hi
    · simp only [hi, if_false] at hr
      exact absurd hr.symm hp
  | field last note => exact passed_field hr hp
  | trailer last =>
    obtain ⟨hl, hc⟩ := passed_field hr hp
    have hm := (evolves_reportIfNew (f.require (last + 1)) last (f.trailerNote last)).minimumLength
    exact ⟨hl, hc, Nat.le_trans (Nat.le_max_right _ _) hm⟩
  | pending => exact absurd (Except.ok.inj hr).symm hp
  | broken fault => cases hr

/-- With `n` bytes received, a run has to wait at the item. -/
def Waits (n : Nat) : Item → Prop
  | require _ => False
  | await index => n ≤ index
  | field last _ => n ≤ last
  | trailer last => n ≤ last
  | pending => True
  | broken _ => False

/-- The length that the item requires of the frame, whether it waits or not. -/
def demand : Item → Nat
  | require length => length
  | trailer last => last + 1
  | _ => 0

theorem apply_of_waits {item : Item} {f : Frame} (h : item.Waits f.length) :
    item.apply f = .done (f.require item.demand) .waiting := by
  cases item with
  | require length => exact h.elim
  | await index =>
    have hi : ¬ index < f.length := Nat.not_lt.mpr h
    simp only [apply, hi, if_false, demand, require_zero]
  | field last note =>
    simp only [demand, require_zero]
    exact reportIfNew_of_length_le note h
  | trailer last => exact reportIfNew_of_length_le _ h
  | pending => simp only [apply, demand, require_zero]
  | broken fault => exact h.elim

theorem field_not_waiting {last : Nat} (note : Except Fault Note) {f : Frame} (h : last < f.length) :
    ((field last note).apply f).result ≠ .ok .waiting := by
  intro hr
  rcases field_cases last note f with ⟨hw, -⟩ | ⟨-, ha⟩ | ⟨said, -, hc, -, ha⟩ | ⟨fault, -, -, -, ha⟩
  · exact absurd h (Nat.not_lt.mpr hw)
  · rw [ha] at hr; cases hr
  · obtain ⟨first, final, -, -, he⟩ := report_of_due said hc h
    rw [ha, he] at hr; cases hr
  · rw [ha] at hr; cases hr

theorem not_waiting {item : Item} {f : Frame} (h : ¬ item.Waits f.length) :
    (item.apply f).result ≠ .ok .waiting := by
  cases item with
  | require length => intro hr; cases hr
  | await index =>
    have hi : index < f.length := Nat.not_le.mp h
    simp only [apply, hi, if_true, Outcome.done]
    intro hr; cases hr
  | field last note => exact field_not_waiting note (Nat.not_le.mp h)
  | trailer last => exact field_not_waiting (f := f.require (last + 1)) _ (Nat.not_le.mp h)
  | pending => exact (h trivial).elim
  | broken fault => intro hr; cases hr

end Item

end ModbusRtu
