import Wallet.Event
import Wallet.Rlp.Decoder

/-! Successful outcomes taken apart: of steps that may fail one after the other, of errors that are
renamed on the way, and of readers that are run on a whole input. -/

namespace Wallet.Outcome

variable {ε ε' α β : Type}

theorem ok_bind (a : α) (f : α → Except ε β) : (.ok a >>= f) = f a := rfl

theorem error_bind (e : ε) (f : α → Except ε β) : (.error e >>= f) = .error e := rfl

theorem bind_eq_ok {x : Except ε α} {f : α → Except ε β} {b : β} :
    (x >>= f) = .ok b ↔ ∃ a, x = .ok a ∧ f a = .ok b := by
  cases x <;> simp [bind, Except.bind]

theorem pure_eq_ok {a b : α} : (pure a : Except ε α) = .ok b ↔ a = b := by
  simp [pure, Except.pure]

theorem mapError_eq_ok {x : Except ε α} {g : ε → ε'} {a : α} : x.mapError g = .ok a ↔ x = .ok a := by
  cases x with
  | error e => exact iff_of_false nofun nofun
  | ok b =>
    change Except.ok b = .ok a ↔ _
    rw [Except.ok.injEq, Except.ok.injEq]

/-- An outcome is a success or a failure. -/
theorem exists_eq_ok_iff {x : Except ε α} : (∃ a, x = .ok a) ↔ ∀ e, x ≠ .error e := by
  cases x <;> simp

theorem result_bind_eq_ok {x : Reporting ε α} {f : α → Reporting ε β} {b : β} :
    (x >>= f).result = .ok b ↔ ∃ a, x.result = .ok a ∧ (f a).result = .ok b := by
  rw [Reporting.result_bind, bind_eq_ok]

theorem parse_eq_ok {x : Rlp.Decoder α} {s : Bytes} {a : α} :
    x.parse s = .ok a ↔ ∃ t, x s = .ok a t := by
  unfold Rlp.Decoder.parse
  cases x s <;> simp

/-! What runs behind a step without events, or only puts an outcome in another form -/

theorem silent_ok_bind (a : α) (f : α → Reporting ε β) : (Reporting.silent (.ok a) >>= f) = f a := rfl

theorem silent_error_bind (e : ε) (f : α → Reporting ε β) : (Reporting.silent (.error e) >>= f) = throw e := rfl

theorem events_bind_pure (x : Reporting ε α) (f : α → β) :
    Reporting.events (x >>= fun a => pure (f a)) = x.events := by
  rcases x with ⟨_ | a, es⟩ <;> exact List.append_nil es

theorem result_bind_pure (x : Reporting ε α) (f : α → β) :
    Reporting.result (x >>= fun a => pure (f a)) = x.result.map f := by
  rcases x with ⟨_ | a, es⟩ <;> rfl

theorem run_events (x : Reporting ε α) : x.run.events = x.events := rfl

theorem run_value (x : Reporting ε α) : x.run.value = x.result := rfl

end Wallet.Outcome
