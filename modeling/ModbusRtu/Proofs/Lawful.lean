import ModbusRtu.Proofs.Layouts

/-! Both grammars are lawful: their plans cannot fail, and bytes that arrive later do not change what was
planned for the bytes before them. A frame with a recognised function is laid out in order as a whole. -/

namespace ModbusRtu

open Item Plan

/-- What both plans begin with waits for four bytes, so only frames of four bytes have to agree beyond. -/
theorem agree_framePlan (role : Role) {body body' : Option (Except Fault Note × Plan)} {bytes : Bytes}
    (more : Bytes)
    (unknown : 3 < bytes.length → body = none → body' = none)
    (known : 3 < bytes.length → ∀ function p, body = some (function, p) →
      ∃ q, body' = some (function, q) ∧ Agree bytes.length p q) :
    Agree bytes.length (framePlan role body bytes) (framePlan role body' (bytes ++ more)) := by
  refine .cons (.await 3) fun hw => ?_
  have h3 : 3 < bytes.length := Nat.not_le.mp hw
  refine .byte 0 (.serverId role) more fun _ => ?_
  cases hb : body with
  | none =>
    rw [unknown h3 hb]
    exact .refl _ _
  | some known' =>
    obtain ⟨function, p⟩ := known'
    obtain ⟨q, hq, agree⟩ := known h3 function p hb
    rw [hq]
    exact .field 1 (fun _ => rfl) fun _ => agree

theorem sound_framePlan (role : Role) {body : Option (Except Fault Note × Plan)} (bytes : Bytes)
    (known : ∀ function p, body = some (function, p) → (∃ said, function = .ok said) ∧ p.Sound) :
    (framePlan role body bytes).Sound := by
  refine sound_cons.mpr ⟨trivial, sound_cons.mpr ⟨sound_due _ _, ?_⟩⟩
  cases hb : body with
  | none => exact sound_cons.mpr ⟨trivial, by simp [Plan.Sound]⟩
  | some known' =>
    obtain ⟨function, p⟩ := known'
    exact sound_cons.mpr (known function p hb)

theorem laid_framePlan (role : Role) {bytes : Bytes} {said : Note} {p : Plan} {total : Nat}
    (h : Laid total 2 4 p) : Laid total 0 4 (framePlan role (some (.ok said, p)) bytes) :=
  .await (by omega) (.field _ (by omega) (.field said (by omega) h))

theorem lawful_requestGrammar (n : Nat) : (requestGrammar n).Lawful where
  sound bytes := by
    refine sound_framePlan .request bytes fun function p hb => ?_
    obtain ⟨layout, hl, he⟩ := Option.map_eq_some_iff.mp hb
    obtain ⟨rfl, rfl⟩ := Prod.mk.inj he
    obtain ⟨name, hn⟩ := RequestLayout.functionNote_of_ofCode? hl
    exact ⟨⟨_, hn⟩, (RequestLayout.laid_plan n layout bytes).sound⟩
  causal bytes more := by
    refine agree_framePlan .request more (fun h3 hb => ?_) (fun h3 function p hb => ?_)
    · rw [Bytes.byte_append more (Nat.lt_of_succ_lt (Nat.lt_of_succ_lt h3))]
      rw [Option.map_eq_none_iff] at hb ⊢
      exact hb
    · rw [Bytes.byte_append more (Nat.lt_of_succ_lt (Nat.lt_of_succ_lt h3))]
      obtain ⟨layout, hl, he⟩ := Option.map_eq_some_iff.mp hb
      obtain ⟨rfl, rfl⟩ := Prod.mk.inj he
      exact ⟨_, by rw [hl]; rfl, RequestLayout.agree_plan n layout bytes more⟩

theorem lawful_responseGrammar (n : Nat) : (responseGrammar n).Lawful where
  sound bytes := by
    refine sound_framePlan .response bytes fun function p hb => ?_
    obtain ⟨layout, hl, he⟩ := Option.map_eq_some_iff.mp hb
    obtain ⟨rfl, rfl⟩ := Prod.mk.inj he
    exact ⟨ResponseLayout.functionNote_of_ofCode? hl, (ResponseLayout.laid_plan n hl).sound⟩
  causal bytes more := by
    refine agree_framePlan .response more (fun h3 hb => ?_) (fun h3 function p hb => ?_)
    · rw [Bytes.byte_append more (Nat.lt_of_succ_lt (Nat.lt_of_succ_lt h3))]
      rw [Option.map_eq_none_iff] at hb ⊢
      exact hb
    · rw [Bytes.byte_append more (Nat.lt_of_succ_lt (Nat.lt_of_succ_lt h3))]
      obtain ⟨layout, hl, he⟩ := Option.map_eq_some_iff.mp hb
      obtain ⟨rfl, rfl⟩ := Prod.mk.inj he
      exact ⟨_, by rw [hl]; rfl, ResponseLayout.agree_plan more (Nat.lt_of_succ_lt h3) n layout⟩

theorem Role.lawful_grammar (role : Role) (n : Nat) : (role.grammar n).Lawful := by
  cases role with
  | request => exact lawful_requestGrammar n
  | response => exact lawful_responseGrammar n

/-- Of a frame with a function that the plan does not know, only the server id is reported. -/
theorem Grammar.parse_of_unknown {g : Grammar} {role : Role} {f : Frame}
    (hp : g.plan f.values = framePlan role none f.values) (hc : f.covered = 0)
    (h4 : Limits.minFrameLength ≤ f.length) :
    ∃ first, f.bytes[0]? = some first ∧
      g.parse f = ⟨f.reportedTo 0 (.serverId role first.value),
        [⟨f.role, .serverId role first.value, first.start, first.stop, some (0, 0)⟩], .ok .waiting⟩ := by
  have passed : Passed f (.await 3) := h4
  have h0 : 0 < f.length := Nat.lt_of_lt_of_le (by decide) h4
  have sound : (Field.serverId role f.values).Sound := sound_due _ _
  have ready : ¬ (Field.serverId role f.values).Waits f.length := Nat.not_le.mpr h0
  obtain ⟨first, final, hfirst, hfinal, hr⟩ :=
    Frame.report_of_due (.serverId role (f.values.byte 0)) (Nat.le_of_eq hc) h0
  rw [hc] at hfirst hr
  obtain rfl := Option.some.inj (hfirst.symm.trans hfinal)
  have apply : (Field.serverId role f.values).apply f = f.report 0 (.serverId role (f.values.byte 0)) :=
    Frame.reportIfNew_of_due _ (Nat.le_of_eq hc) h0
  refine ⟨first, hfirst, ?_⟩
  rw [parse_eq_sweep, hp, framePlan, List.cons_append, sweep_cons_of_passed _ passed]
  show sweep (Field.serverId role f.values :: [.pending]) f = _
  rw [sweep_cons_of_ready _ sound ready, apply, hr, Frame.byte_of_getElem? hfirst]
  rfl

namespace Role

/-- Fewer than four bytes say nothing. -/
theorem plan_awaits (role : Role) (n : Nat) (v : Bytes) : ∃ p, (role.grammar n).plan v = .await 3 :: p := by
  cases role with
  | request => exact ⟨_, rfl⟩
  | response => exact ⟨_, rfl⟩

theorem parse_of_tiny (role : Role) (n : Nat) {f : Frame} (h : f.length < Limits.minFrameLength) :
    (role.grammar n).parse f = .done f .waiting := by
  obtain ⟨p, hp⟩ := role.plan_awaits n f.values
  have waits : (Item.await 3).Waits f.length := Nat.le_of_lt_succ h
  rw [Grammar.parse_eq_sweep, hp, sweep_cons_of_waits p waits]
  exact congrArg (Outcome.done · Progress.waiting) f.require_zero

theorem plan_of_unknown (role : Role) (n : Nat) {v : Bytes}
    (unknown : (role.grammar n).recognizes (v.byte 1) = false) :
    (role.grammar n).plan v = framePlan role none v := by
  cases role with
  | request =>
    have none : RequestLayout.ofCode? (v.byte 1) = none :=
      Option.not_isSome_iff_eq_none.mp (Bool.eq_false_iff.mp unknown)
    simp only [grammar, requestGrammar, none, Option.map_none]
  | response =>
    have none : ResponseLayout.ofCode? (v.byte 1) = none :=
      Option.not_isSome_iff_eq_none.mp (Bool.eq_false_iff.mp unknown)
    simp only [grammar, responseGrammar, none, Option.map_none]

end Role

end ModbusRtu
