import ModbusRtu.Proofs.Operation

/-! Frames over the limit. Whatever was made of such a frame before, its end says once that it is too large and
never that it is too short or too long. Where the error goes depends on what was reported before: it takes the
bytes that are left, and if there are none, the byte that crosses the limit or the time after the frame. -/

namespace ModbusRtu

namespace Frame

section Limit

variable {role : Role} {start : Time} {bytes : List Byte} {o : Outcome Frame Unit}

end Limit

end Frame

namespace Grammar

theorem parse_of_quiet {g : Grammar} {f : Frame} {progress : Progress} (h : g.pass f = .done f progress)
    (quiet : progress ≠ .reported) : g.parse f = .done f progress := by
  have silent : (g.pass f).result ≠ .ok .reported := h ▸ fun hr => quiet (Except.ok.inj hr)
  exact (passes_of_quiet silent _).trans h

/-- A grammar that has nothing more to say of the frame, or one of the two for the line. -/
def Tame (g : Grammar) (f : Frame) : Prop :=
  (∃ progress, progress ≠ .reported ∧ g.pass f = .done f progress) ∨
    ∃ (role : Role) (n : Nat), g = role.grammar n

theorem Tame.parse {g : Grammar} {f : Frame} (h : g.Tame f) :
    ∃ parsed, (g.parse f).result = .ok parsed ∧
      ∀ r ∈ (g.parse f).reports, r.covers.isSome ∧ r.note.ofField = true := by
  rcases h with ⟨progress, quiet, pass⟩ | ⟨role, n, rfl⟩
  · rw [parse_of_quiet pass quiet]
    exact ⟨progress, rfl, List.forall_mem_nil _⟩
  · obtain ⟨parsed, hp⟩ := (role.lawful_grammar n).parse_ok f
    exact ⟨parsed, hp, ofField_of_mem_parse role n f⟩

end Grammar

end ModbusRtu
