import ModbusRtu.Proofs.Intact

/-! Nothing is lost in what is said of a frame without an error. Its fields are known from the function on, each
text gives back the value of its field, a count how many fields there are, and the check sum follows from all the
rest. So from the categories and the texts alone the bytes can be told. -/

namespace ModbusRtu

open FieldTable

theorem Role.Intact.plain {n : Nat} {v : Bytes} (h : Role.response.Intact n v) :
    FunctionCode.hasExceptionBit (v.byte 1) = false := by
  refine Bool.of_not_eq_true fun bit => ?_
  -- an exception has a field that is an error whatever its value is
  have reason : (exception v).entry 2 ∈ entries 0 (Role.response.fields n v) := by
    rw [Role.fields, if_pos bit]
    exact List.mem_cons_of_mem _ (List.mem_cons_of_mem _ List.mem_cons_self)
  exact h.kept _ reason rfl

theorem Role.Intact.eq_of_texts {role : Role} {n : Nat} {v w : Bytes} (hv : role.Intact n v)
    (hw : role.Intact n w)
    (texts : (entries 0 (role.fields n v)).map (·.note.text) = (entries 0 (role.fields n w)).map (·.note.text)) :
    v = w := by
  have exceptions : role = .response →
      FunctionCode.hasExceptionBit (v.byte 1) = FunctionCode.hasExceptionBit (w.byte 1) := by
    rintro rfl
    rw [hv.plain, hw.plain]
  have extent (u : Bytes) (hu : role.Intact n u) : u.length = 0 + extent (role.fields n u) := by
    rw [role.extent_fields n hu.known, Nat.zero_add]
    exact hu.length
  exact (twins_fields role n hv.known exceptions).eq_of_texts (extent v hv) (extent w hw) nofun hv.kept hw.kept texts

theorem Grammar.said_of_clean (role : Role) (n : Nat) (start : Time) {bytes : List Byte} (h : bytes ≠ [])
    (options : CloseOptions)
    (clean : ((role.grammar n).live (.opened role start) bytes options).state.hasError = false) :
    ((role.grammar n).live (.opened role start) bytes options).reports.map
        (fun r => (r.span.category, r.span.text)) =
      (entries 0 (role.fields n (bytes.map Byte.value))).map fun e => (e.category, e.note.text) := by
  have said := congrArg (List.map fun row => (row.2.1, row.2.2.text))
    ((role.intact_of_live n start h options clean).rows start)
  rw [List.map_map, List.map_map] at said
  rw [(reports_live_of_clean role n start h options clean).2]
  exact said

/-- Two frames that close without an error are reported with the same categories and texts exactly if they have
the same bytes, whatever their times are. -/
theorem reports_lossless (role : Role) (n : Nat) (start start' : Time) (bytes bytes' : List Byte) (h : bytes ≠ [])
    (h' : bytes' ≠ []) (options options' : CloseOptions)
    (clean : ((role.grammar n).live (.opened role start) bytes options).state.hasError = false)
    (clean' : ((role.grammar n).live (.opened role start') bytes' options').state.hasError = false) :
    let o := (role.grammar n).live (.opened role start) bytes options
    let o' := (role.grammar n).live (.opened role start') bytes' options'
    (o.result = .ok () ∧ o'.result = .ok ()) ∧
    (o.reports.map (fun r => (r.span.category, r.span.text)) =
        o'.reports.map (fun r => (r.span.category, r.span.text)) ↔
      bytes.map Byte.value = bytes'.map Byte.value) := by
  intro o o'
  refine ⟨⟨(Grammar.reports_live_of_clean role n start h options clean).1,
    (Grammar.reports_live_of_clean role n start' h' options' clean').1⟩, ?_⟩
  rw [Grammar.said_of_clean role n start h options clean, Grammar.said_of_clean role n start' h' options' clean']
  refine ⟨fun said => ?_, fun same => by rw [same]⟩
  have texts := congrArg (List.map Prod.snd) said
  rw [List.map_map, List.map_map] at texts
  exact (role.intact_of_live n start h options clean).eq_of_texts
    (role.intact_of_live n start' h' options' clean') texts

theorem reports_lossless_statusQuery :
    let other : List Byte := [⟨0x12, 5, 7⟩, ⟨0x07, 9, 9⟩, ⟨0x4C, 30, 20⟩, ⟨0xD2, 31, 40⟩]
    let o := (Role.request.grammar 2).live (.opened .request 0) statusQuery ⟨10, true⟩
    let o' := (Role.request.grammar 2).live (.opened .request 3) other ⟨0, false⟩
    (statusQuery ≠ [] ∧ other ≠ [] ∧ o.state.hasError = false ∧ o'.state.hasError = false) ∧
      o.reports.map (fun r => (r.span.category, r.span.text)) ≠
        o'.reports.map (fun r => (r.span.category, r.span.text)) := by
  intro other
  have some : statusQuery ≠ [] := List.cons_ne_nil _ _
  have some' : other ≠ [] := List.cons_ne_nil _ _
  have clean : ((Role.request.grammar 2).live (.opened .request 0) statusQuery ⟨10, true⟩).state.hasError = false := by
    decide +kernel
  have clean' : ((Role.request.grammar 2).live (.opened .request 3) other ⟨0, false⟩).state.hasError = false := by
    decide +kernel
  have lossless := (reports_lossless .request 2 0 3 statusQuery other some some' ⟨10, true⟩ ⟨0, false⟩ clean clean').2
  have differ : statusQuery.map Byte.value ≠ other.map Byte.value := by decide
  exact ⟨⟨some, some', clean, clean'⟩, fun same => differ (lossless.mp same)⟩

end ModbusRtu
