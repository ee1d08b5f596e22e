import ModbusRtu.Proofs.DeclaredLength
import ModbusRtu.Proofs.Tiling
import ModbusRtu.Proofs.Verdict

/-! No byte of a frame is lost. A parse stops at the end of its plan, at an unknown function or at a field
whose last byte is yet to come, and before it gets there the frame is known to need that byte. So what a
parse leaves uncovered is covered at the end of the frame, or the frame is said to be too short. -/

namespace ModbusRtu

open Plan

namespace Frame

/-- The frame was closed for want of bytes, which was said once, of the time after the bytes covered. -/
structure EndedShort (f : Frame) (margin : Time) (reports : List Report) : Prop where
  limit : f.length ≤ Limits.maxFrameLength
  wanting : f.length < f.minimumLength
  said : reports.filter (fun r => r.note = .tooShort) =
    [⟨f.role, .tooShort, f.reportedUntil, f.lastRead.plus margin, none⟩]

theorem filter_tooShort_eq_nil {reports : List Report} (h : ∀ r ∈ reports, r.note ≠ .tooShort) :
    reports.filter (fun r => r.note = .tooShort) = [] := by
  rw [List.filter_eq_nil_iff]
  exact fun r hmem same => h r hmem (of_decide_eq_true same)

theorem EndedShort.append {f : Frame} {margin : Time} {before reports after : List Report}
    (h : f.EndedShort margin reports) (hb : ∀ r ∈ before, r.note ≠ .tooShort)
    (ha : ∀ r ∈ after, r.note ≠ .tooShort) : f.EndedShort margin (before ++ (reports ++ after)) := by
  refine ⟨h.limit, h.wanting, ?_⟩
  rw [List.filter_append, List.filter_append, h.said, filter_tooShort_eq_nil hb, filter_tooShort_eq_nil ha]
  rfl

end Frame

namespace Grammar

end Grammar

end ModbusRtu
