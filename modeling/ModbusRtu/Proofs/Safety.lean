import ModbusRtu.Proofs.Channel

/-! A valid decoder never fails, whatever it is fed: a fault is out of reach, because every open frame has
bytes and its cursor is among them or right behind. -/

namespace ModbusRtu

namespace Decoder

theorem opened_ok {config : Config} (h : config.validate = .ok ()) :
    opened config = .ok ⟨config, none, none, none⟩ := by
  rw [opened, h]

theorem sane_opened (config : Config) : Sane ⟨config, none, none, none⟩ := by
  intro role f hf
  cases role <;> cases hf

theorem run_ok {d : Decoder} (h : d.Sane) (events : List Event) :
    (d.run events).result = .ok () ∧ (d.run events).state.Sane := by
  induction events generalizing d with
  | nil => exact ⟨rfl, h⟩
  | cons event rest ih =>
    rw [run, Outcome.andThen_eq_of_ok (splits_step h event).result]
    exact ih (sane_step h event)

end Decoder

/-- After any events in any order, with any times, every further event and the end of the capture go
well. An open frame has bytes, and the cursor points at one of them or right behind the last. -/
theorem run_never_fails (config : Config) (h : config.validate = .ok ()) (events : List Event) :
    ∃ d, Decoder.opened config = .ok d ∧
      (d.run events).result = .ok () ∧
      (∀ event, ((d.run events).state.step event).result = .ok ()) ∧
      (d.run events).state.finish.result = .ok () ∧
      ∀ role f, (d.run events).state.frame? role = some f → f.bytes ≠ [] ∧ f.covered ≤ f.length := by
  refine ⟨_, Decoder.opened_ok h, ?_⟩
  obtain ⟨hr, hs⟩ := Decoder.run_ok (Decoder.sane_opened config) events
  have step (event : Event) := (Decoder.splits_step hs event).result
  refine ⟨hr, step, step .flush, ?_⟩
  intro role f hf
  obtain ⟨held, -⟩ := hs role f hf
  exact ⟨held.nonempty, held.covered⟩

/-- Both directions on one line, and bytes that end before they start. After two of them the frames are closed, of
the next four the server id is known. -/
theorem run_never_fails_inverted :
    let config : Config := { responseLine := .tx }
    let events : List Event :=
      [.timing 0 10, .byte .tx ⟨0x11, 180, 100⟩, .byte .tx ⟨0x03, 90, 95⟩, .flush, .byte .tx ⟨0x00, 300, 20⟩,
        .byte .tx ⟨0xC8, 10, 900⟩, .byte .tx ⟨0x01, 905, 902⟩, .byte .tx ⟨0x02, 7, 7⟩]
    config.validate = .ok () ∧
      ∃ d, Decoder.opened config = .ok d ∧ (d.run events).result = .ok () ∧
        ((d.run events).state.step (.byte .tx ⟨0xFF, 5000, 40⟩)).result = .ok () ∧
        (d.run events).state.finish.result = .ok () ∧
        ∃ f, (d.run events).state.frame? .response = some f ∧ (f.bytes ≠ [] ∧ f.covered ≤ f.length) ∧
          f.length = 4 ∧ f.covered = 1 := by
  intro config events
  have hv : config.validate = .ok () := rfl
  obtain ⟨d, hd, hrun, step, finish, frames⟩ := run_never_fails config hv events
  obtain rfl : d = ⟨config, none, none, none⟩ := Except.ok.inj (hd.symm.trans (Decoder.opened_ok hv))
  have left : ((Decoder.run ⟨config, none, none, none⟩ events).state.frame? .response).map
      (fun f => (f.length, f.covered)) = some (4, 1) := by decide +kernel
  obtain ⟨f, hf, shape⟩ := Option.map_eq_some_iff.mp left
  obtain ⟨length, covered⟩ := Prod.mk.inj shape
  exact ⟨hv, _, hd, hrun, step _, finish, f, hf, frames .response f hf, length, covered⟩

end ModbusRtu
