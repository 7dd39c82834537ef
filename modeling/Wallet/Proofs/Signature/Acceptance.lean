import Wallet.Proofs.Signature.Recovery
import Wallet.Proofs.Signature.Wire
import Wallet.Proofs.Transaction.Sender

/-! A signature that a signer returns is accepted wherever it is checked: by the signer, by a verifier
that holds the key in another form, without its indicator, and by the recovery of the key. Verification
looks at the numbers `r` and `s` and at the point of the key only; that they satisfy the equation is
known from the search for the indicator, which has recovered the key. Main statement:
`accepted_everywhere`. -/

namespace Wallet

section Verification

variable {hash : DomainHash} {key : PublicKey} {message : Bytes} {σ : Signature}

theorem verifyMessage_of_verify {r s : Curve.Scalar} (hcanonical : σ.isCanonical = true)
    (hscalars : σ.scalars = .ok (r, s))
    (hverify : Ecdsa.verify key.point (Ecdsa.challenge (hash message)) r s = true) :
    verifyMessage hash key message σ = pure true := by
  unfold verifyMessage
  simp only [hcanonical, hscalars, hverify]
  rfl

/-- The indicator plays no part in verification. -/
theorem verifyMessage_indicator (v : UInt8) :
    verifyMessage hash key message { σ with v } = verifyMessage hash key message σ := rfl

end Verification

namespace Signer

variable {signer : Signer} {message : Bytes} {σ : Signature}

theorem verifyMessage_of_sign (h : (signer.sign message).result = .ok σ) {key : PublicKey}
    (hkey : key.point = signer.pair.publicKey.point) : verifyMessage signer.hash key message σ = pure true := by
  obtain ⟨-, -, -, hcanonical, id, r, s, -, hscalars, hrecover⟩ := signDigest_eq_ok h
  refine verifyMessage_of_verify hcanonical hscalars ?_
  rw [hkey]
  exact (Ecdsa.sound_of_recover? hrecover).2

/-- What a signer returns is canonical and has a known indicator. The signer accepts it, so does every
verifier of the same point, both do without the indicator, and the key recovered from it is the
signer's. -/
theorem accepted_everywhere (signer : Signer) (message : Bytes) (σ : Signature)
    (h : (signer.sign message).result = .ok σ) :
    σ.s.toNat ≤ Curve.order / 2 ∧ (σ.v = 27 ∨ σ.v = 28) ∧
    signer.verify message σ = pure true ∧
    (∀ key : PublicKey, key.point = signer.pair.publicKey.point →
      Verifier.verify ⟨key, signer.hash⟩ message σ = pure true) ∧
    (∃ compact, Signature.ofBytes σ.bytes = .ok compact ∧ compact.v = 0 ∧
      signer.verify message compact = pure true ∧
      ∀ key : PublicKey, key.point = signer.pair.publicKey.point →
        Verifier.verify ⟨key, signer.hash⟩ message compact = pure true) ∧
    recoverPublicKey (signer.hash message) σ = .ok signer.pair.publicKey.uncompressed := by
  obtain ⟨hr, hs, hv, hcanonical, -⟩ := signDigest_eq_ok h
  refine ⟨?_, hv, verifyMessage_of_sign h rfl, fun key hkey => verifyMessage_of_sign h hkey, ?_,
    recoverPublicKey_of_signDigest h⟩
  · rw [← Curve.halfOrder_eq]
    exact Signature.isCanonical_iff.1 hcanonical
  · refine ⟨{ σ with v := 0 }, Signature.ofBytes_bytes hr hs, rfl, ?_, fun key hkey => ?_⟩
    · exact (verifyMessage_indicator 0).trans (verifyMessage_of_sign h rfl)
    · exact (verifyMessage_indicator 0).trans (verifyMessage_of_sign h hkey)

open Transaction (unitPair unitDraft unitDigest unitSignature digest_unitDraft signDigest_unit)

def unitSigner : Signer := { pair := unitPair }

/-- A message that the unit pair signs. -/
def unitMessage : Bytes := (unitDraft.address default).transaction.signingPayload

theorem unit_accepted_everywhere :
    (unitSigner.sign unitMessage).result = .ok unitSignature ∧
      unitSigner.verify unitMessage unitSignature = pure true ∧
      Verifier.verify ⟨unitPair.publicKey.uncompressed, unitSigner.hash⟩ unitMessage unitSignature = pure true ∧
      recoverPublicKey (unitSigner.hash unitMessage) unitSignature = .ok unitPair.publicKey.uncompressed := by
  have hdigest : unitSigner.hash unitMessage = unitDigest := digest_unitDraft
  have h : (unitSigner.sign unitMessage).result = .ok unitSignature := by
    rw [Signer.sign, hdigest]
    exact signDigest_unit
  obtain ⟨-, -, hsigner, hverifier, -, hrecover⟩ := accepted_everywhere unitSigner unitMessage unitSignature h
  -- for any key, so that the point of this one is not computed
  have hpoint (key : PublicKey) : key.uncompressed.point = key.point := rfl
  exact ⟨h, hsigner, hverifier _ (hpoint unitPair.publicKey), hrecover⟩

end Signer
end Wallet
