import Wallet.Proofs.Signature.Recovery
import Wallet.Proofs.Transaction.Sender

/-! Checking a transaction against a sender says what recovering its sender says. The check looks at the half of
`s` by itself, before it recovers anything, and recovery verifies the signature under the key that it has found,
which refuses the upper half as well; so neither accepts what the other refuses (`verify_eq_ok`). Where both fail
they may do so with different errors: the check reports a signature that is not canonical as such. Main statement:
`verify_iff_recoverSender`. -/

namespace Wallet.Transaction

open Curve (order)

variable {tx : Transaction} {σ : Signature} {a b : Address} {e : TransactionError}

/-! The sender -/

theorem recoverSender_of_unsigned (h : tx.signature = none) : tx.recoverSender = .error .missingSignature := by
  rw [recoverSender, h]
  rfl

theorem recoverSender_eq (h : tx.signature = some σ) :
    tx.recoverSender =
      (recoverPublicKey (Keccak.digest256 tx.signingPayload) σ).mapError .signature >>= fun key =>
        pure (Address.ofPublicKey key) := by
  simp only [recoverSender, h]

/-- What fails in a signed transaction is its signature. -/
theorem recoverSender_eq_error (h : tx.signature = some σ) (he : tx.recoverSender = .error e) :
    ∃ e', e = .signature e' := by
  rw [recoverSender_eq h] at he
  cases hkey : recoverPublicKey (Keccak.digest256 tx.signingPayload) σ with
  | error e' =>
    rw [hkey] at he
    cases he
    exact ⟨e', rfl⟩
  | ok key =>
    rw [hkey] at he
    cases he

theorem isCanonical_of_recoverSender (h : tx.signature = some σ) (hb : tx.recoverSender = .ok b) :
    σ.isCanonical = true := by
  rw [recoverSender_eq h, Outcome.bind_eq_ok] at hb
  obtain ⟨key, hkey, -⟩ := hb
  exact isCanonical_of_recoverPublicKey (Outcome.mapError_eq_ok.1 hkey)

theorem recoverSender_of_high (hsound : tx.Sound) (h : tx.signature = some σ) (hhigh : σ.isCanonical = false) :
    tx.recoverSender = .error (.signature .recoveryFailed) := by
  obtain ⟨hr, hs, hv⟩ := hsound σ h
  rw [recoverSender_eq h, recoverPublicKey_of_high _ hr hs hv hhigh]
  rfl

/-! The check -/

theorem verify_of_unsigned (h : tx.signature = none) (a : Address) : tx.verify a = .error .missingSignature := by
  rw [verify, h]
  rfl

theorem verify_of_high (h : tx.signature = some σ) (hhigh : σ.isCanonical = false) (a : Address) :
    tx.verify a = .error .nonCanonicalSignature := by
  simp only [verify, h, hhigh]
  rfl

theorem verify_of_low (h : tx.signature = some σ) (hlow : σ.isCanonical = true) (a : Address) :
    tx.verify a = tx.recoverSender >>= fun b => if b = a then .ok () else .error (.senderMismatch a b) := by
  cases hsender : tx.recoverSender with
  | error e =>
    simp only [verify, h, hlow, hsender]
    rfl
  | ok b =>
    rw [verify_of_recoverSender h hlow hsender, Outcome.ok_bind]
    exact if_congr eq_comm rfl rfl

theorem verify_eq_ok : tx.verify a = .ok () ↔ tx.recoverSender = .ok a := by
  cases h : tx.signature with
  | none =>
    rw [verify_of_unsigned h, recoverSender_of_unsigned h]
    exact iff_of_false nofun nofun
  | some σ =>
    cases hcanonical : σ.isCanonical with
    | false =>
      rw [verify_of_high h hcanonical]
      refine iff_of_false nofun fun hsender => ?_
      rw [isCanonical_of_recoverSender h hsender] at hcanonical
      cases hcanonical
    | true =>
      rw [verify_of_low h hcanonical]
      cases tx.recoverSender with
      | error e => exact iff_of_false nofun nofun
      | ok b => by_cases hb : b = a <;> simp [Outcome.ok_bind, hb]

theorem verify_eq_error (h : tx.signature = some σ) (hlow : σ.isCanonical = true) :
    tx.verify a = .error e ↔
      tx.recoverSender = .error e ∨ ∃ b, tx.recoverSender = .ok b ∧ b ≠ a ∧ e = .senderMismatch a b := by
  rw [verify_of_low h hlow]
  cases tx.recoverSender with
  | error e' => simp [Outcome.error_bind]
  | ok b =>
    rw [Outcome.ok_bind]
    by_cases hb : b = a
    · simp [hb]
    · rw [if_neg hb, Except.error.injEq, eq_comm]
      simp [hb]

/-- With a low `s` the check fails for the signature, or for the sender. -/
theorem signature_or_mismatch (h : tx.signature = some σ) (hlow : σ.isCanonical = true)
    (hverify : tx.verify a = .error e) : (∃ e', e = .signature e') ∨ ∃ b, e = .senderMismatch a b := by
  rcases (verify_eq_error h hlow).1 hverify with hsender | ⟨b, -, -, hmismatch⟩
  · exact .inl (recoverSender_eq_error h hsender)
  · exact .inr ⟨b, hmismatch⟩

theorem verify_eq_missingSignature : tx.verify a = .error .missingSignature ↔ tx.signature = none := by
  refine ⟨fun hverify => ?_, fun h => verify_of_unsigned h a⟩
  cases h : tx.signature with
  | none => rfl
  | some σ =>
    cases hcanonical : σ.isCanonical with
    | false =>
      rw [verify_of_high h hcanonical] at hverify
      cases hverify
    | true => rcases signature_or_mismatch h hcanonical hverify with ⟨_, he⟩ | ⟨_, he⟩ <;> cases he

theorem verify_eq_nonCanonicalSignature :
    tx.verify a = .error .nonCanonicalSignature ↔ ∃ σ, tx.signature = some σ ∧ σ.isCanonical = false := by
  refine ⟨fun hverify => ?_, fun ⟨σ, h, hhigh⟩ => verify_of_high h hhigh a⟩
  cases h : tx.signature with
  | none =>
    rw [verify_of_unsigned h] at hverify
    cases hverify
  | some σ =>
    refine ⟨σ, rfl, ?_⟩
    by_contra hcanonical
    rw [Bool.not_eq_false] at hcanonical
    rcases signature_or_mismatch h hcanonical hverify with ⟨_, he⟩ | ⟨_, he⟩ <;> cases he

/-- A transaction passes for an address just when its sender is recovered as that address. Otherwise it is
unsigned, or its `s` is high, or recovery fails with the error that is reported, or the sender is another; the first
of these is what the error says. From a high `s` no sender is recovered, as for every transaction that is read
from bytes. -/
theorem verify_iff_recoverSender (tx : Transaction) (a : Address) :
    (tx.verify a = .ok () ↔ tx.recoverSender = .ok a) ∧
    (tx.verify a = .error .missingSignature ↔ tx.signature = none) ∧
    (tx.verify a = .error .nonCanonicalSignature ↔ ∃ σ, tx.signature = some σ ∧ order / 2 < σ.s.toNat) ∧
    (∀ σ, tx.signature = some σ → σ.s.toNat ≤ order / 2 → ∀ e, tx.verify a = .error e ↔
      tx.recoverSender = .error e ∨
        ∃ recovered, tx.recoverSender = .ok recovered ∧ recovered ≠ a ∧ e = .senderMismatch a recovered) ∧
    ∀ σ, tx.signature = some σ → order / 2 < σ.s.toNat →
      (∀ b, tx.recoverSender ≠ .ok b) ∧
      ∀ raw, (decode raw).result = .ok tx → tx.recoverSender = .error (.signature .recoveryFailed) := by
  refine ⟨verify_eq_ok, verify_eq_missingSignature, ?_, fun σ h hlow e => ?_, fun σ h hhigh => ⟨fun b hb => ?_, ?_⟩⟩
  · simp only [verify_eq_nonCanonicalSignature, Signature.isCanonical_eq_false]
  · rw [← Curve.halfOrder_eq, ← Signature.isCanonical_iff] at hlow
    exact verify_eq_error h hlow
  · rw [← Signature.isCanonical_eq_false, isCanonical_of_recoverSender h hb] at hhigh
    cases hhigh
  · intro raw hread
    exact recoverSender_of_high (decode_eq_ok.1 hread).2.1 h (Signature.isCanonical_eq_false.2 hhigh)

/-- The signature of `unitPair` with the other of the two values that its `s` can have. -/
def unitHighSignature : Signature :=
  ⟨unitSignature.r, 0xc1351f10b60c9c7cf9cd0e67af59931ba56d4876559083264529816673ff4943, 28⟩

def unitHigh : Transaction := { unitSigned.transaction with signature := some unitHighSignature }

/-- The transaction is read from its bytes with the high `s`, and then has no sender. -/
theorem unitHigh_has_no_sender :
    unitSignature.s.toNat + unitHighSignature.s.toNat = order ∧
      (decode unitHigh.encoded).result = .ok unitHigh ∧
      unitHigh.recoverSender = .error (.signature .recoveryFailed) ∧
      ∀ a, unitHigh.verify a = .error .nonCanonicalSignature := by
  have hsound : unitHigh.Sound := by
    intro σ hσ
    cases hσ
    decide
  have hread : (decode unitHigh.encoded).result = .ok unitHigh := decode_encoded_of_sound hsound (by decide)
  have hhigh : order / 2 < unitHighSignature.s.toNat := by decide
  refine ⟨by decide, hread, ?_, fun a => ?_⟩
  · obtain ⟨-, -, -, -, hsender⟩ := verify_iff_recoverSender unitHigh default
    exact (hsender _ rfl hhigh).2 _ hread
  · obtain ⟨-, -, hnonCanonical, -⟩ := verify_iff_recoverSender unitHigh a
    exact hnonCanonical.2 ⟨_, rfl, hhigh⟩

end Wallet.Transaction
