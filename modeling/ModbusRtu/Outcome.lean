import ModbusRtu.Note.Text

/-! The outcome of an operation on a state: the state after it, what it reported on the way, and its
result or the fault that ended it. A fault is a defect of the decoder, never of the line; state and
reports up to a fault are kept. -/

namespace ModbusRtu

inductive Fault
  | namelessFunction
  | namelessException
  | regularFunction
  | shortChecksum
  | malformedChecksum
  | cursorOutside
  | raised (cause : String)
deriving Repr, DecidableEq

def Fault.cause : Fault → String
  | namelessFunction => "function table entry without a name"
  | namelessException => "exception on a function without a name"
  | regularFunction => "exception layout on a regular function"
  | shortChecksum => "crc check on fewer than 4 bytes"
  | malformedChecksum => "crc check on a malformed frame"
  | cursorOutside => "cursor outside the frame"
  | raised cause => cause

def Fault.message (fault : Fault) : String := "internal decoder defect: " ++ fault.cause

/-- A note on a span of time, with the first and last index of the bytes it covers unless it is not tied
to bytes. -/
structure Report where
  role : Role
  note : Note
  start : Time
  stop : Time
  covers : Option (Nat × Nat)
deriving Repr, DecidableEq

def Report.span (r : Report) : Span :=
  ⟨r.role, r.note.category, r.start, r.stop, r.note.text⟩

structure Outcome (σ α : Type) where
  state : σ
  reports : List Report
  result : Except Fault α

namespace Outcome

variable {σ τ α β : Type}

def done (s : σ) (a : α) : Outcome σ α := ⟨s, [], .ok a⟩

def failed (s : σ) (fault : Fault) : Outcome σ α := ⟨s, [], .error fault⟩

def andThen (o : Outcome σ α) (next : σ → α → Outcome σ β) : Outcome σ β :=
  match o.result with
  | .ok a =>
    let rest := next o.state a
    ⟨rest.state, o.reports ++ rest.reports, rest.result⟩
  | .error fault => ⟨o.state, o.reports, .error fault⟩

def mapState (f : σ → τ) (o : Outcome σ α) : Outcome τ α := ⟨f o.state, o.reports, o.result⟩

def spans (o : Outcome σ α) : List Span := o.reports.map Report.span

theorem done_andThen (s : σ) (a : α) (next : σ → α → Outcome σ β) :
    (done s a).andThen next = next s a := rfl

theorem andThen_assoc {γ : Type} (o : Outcome σ α) (f : σ → α → Outcome σ β)
    (g : σ → β → Outcome σ γ) :
    (o.andThen f).andThen g = o.andThen fun s a => (f s a).andThen g := by
  obtain ⟨s, reports, result⟩ := o
  cases result with
  | error fault => rfl
  | ok a =>
    simp only [andThen]
    cases (f s a).result with
    | error fault => rfl
    | ok b => simp

theorem andThen_congr {o : Outcome σ α} {f g : σ → α → Outcome σ β}
    (h : ∀ a, o.result = .ok a → f o.state a = g o.state a) : o.andThen f = o.andThen g := by
  obtain ⟨s, reports, result⟩ := o
  cases result with
  | error fault => rfl
  | ok a => simp only [andThen, h a rfl]

theorem andThen_eq_of_ok {o : Outcome σ α} {a : α} (h : o.result = .ok a) (next : σ → α → Outcome σ β) :
    o.andThen next = ⟨(next o.state a).state, o.reports ++ (next o.state a).reports,
      (next o.state a).result⟩ := by
  simp only [andThen, h]

theorem forall_mem_andThen {P : Report → Prop} {o : Outcome σ α} {next : σ → α → Outcome σ β}
    (h : ∀ r ∈ o.reports, P r) (hn : ∀ a, ∀ r ∈ (next o.state a).reports, P r) :
    ∀ r ∈ (o.andThen next).reports, P r := by
  obtain ⟨s, reports, result⟩ := o
  cases result with
  | error fault => exact h
  | ok a => exact List.forall_mem_append.mpr ⟨h, hn a⟩

theorem mapState_andThen_of_ok {o : Outcome σ α} {a : α} (h : o.result = .ok a) (g : σ → σ)
    (next : σ → α → Outcome σ β) : (o.mapState g).andThen next = o.andThen fun s a => next (g s) a := by
  simp only [andThen, mapState, h]

theorem andThen_done (o : Outcome σ α) : (o.andThen fun s a => done s a) = o := by
  obtain ⟨s, reports, result⟩ := o
  cases result with
  | error fault => rfl
  | ok a => simp [andThen, done]

theorem mapState_andThen {g : σ → τ} {o : Outcome σ α}
    {next : τ → α → Outcome τ β} {next' : σ → α → Outcome σ β}
    (h : ∀ s a, next (g s) a = (next' s a).mapState g) :
    (o.mapState g).andThen next = (o.andThen next').mapState g := by
  obtain ⟨s, reports, result⟩ := o
  cases result with
  | error fault => rfl
  | ok a => simp only [andThen, mapState, h]

end Outcome

end ModbusRtu
