import Wallet.Proofs.Ecdsa.Equation
import Wallet.Proofs.Key
import Wallet.Proofs.Signature.Signing

/-! What a signer returns leads back to its own key (`recoverPublicKey_of_signDigest`). The point that
is recovered has to be written and read again as a key on the way, which needs it to be on the curve. From a
signature that is not canonical no key is recovered (`isCanonical_of_recoverPublicKey`). -/

namespace Wallet

theorem Signature.exists_recoveryByte? {σ : Signature} (h : σ.v = 27 ∨ σ.v = 28) :
    ∃ id : Ecdsa.RecoveryId, σ.recoveryByte? = some id.toByte := by
  unfold recoveryByte?
  obtain hv | hv := h <;> rw [hv]
  · exact ⟨0, by decide⟩
  · exact ⟨1, by decide⟩

/-- Recovery at an indicator that is the one of a recovery id. -/
theorem recoverPublicKey_eq {digest : Digest} {σ : Signature} {id : Ecdsa.RecoveryId} {r s : Curve.Scalar}
    (hbyte : σ.recoveryByte? = some id.toByte) (hscalars : σ.scalars = .ok (r, s)) :
    recoverPublicKey digest σ =
      match Ecdsa.recover? (Ecdsa.challenge digest) r s id with
      | none => .error .recoveryFailed
      | some point => .ok ⟨.uncompressed, point⟩ := by
  simp only [recoverPublicKey, hbyte, Ecdsa.RecoveryId.ofByte?_toByte, hscalars, Outcome.ok_bind]
  cases hpoint : Ecdsa.recover? (Ecdsa.challenge digest) r s id with
  | none => rfl
  | some point =>
    dsimp only
    rw [PublicKey.ofBytes_encode (Ecdsa.recover?_onCurve hpoint) (Ecdsa.sound_of_recover? hpoint).1]
    rfl

theorem recoverPublicKey_of_signDigest {signer : Signer} {digest : Digest} {σ : Signature}
    (h : (signer.signDigest digest).result = .ok σ) :
    recoverPublicKey digest σ = .ok ⟨.uncompressed, signer.pair.publicKey.point⟩ := by
  obtain ⟨-, -, -, -, id, r, s, hbyte, hscalars, hrecover⟩ := Signer.signDigest_eq_ok h
  rw [recoverPublicKey_eq hbyte hscalars, hrecover]

/-- A key that is recovered comes from the scalars of the signature. -/
theorem recover?_of_recoverPublicKey {digest : Digest} {σ : Signature} {key : PublicKey}
    (h : recoverPublicKey digest σ = .ok key) :
    ∃ r s id point, σ.scalars = .ok (r, s) ∧ Ecdsa.recover? (Ecdsa.challenge digest) r s id = some point := by
  unfold recoverPublicKey at h
  split at h
  · split at h
    · obtain ⟨⟨r, s⟩, hscalars, h⟩ := Outcome.bind_eq_ok.1 h
      dsimp only at h
      split at h
      · rename_i point hpoint
        exact ⟨r, s, _, point, hscalars, hpoint⟩
      · cases h
    · cases h
  · cases h

/-- Recovery checks what it has found, and the check refuses a high `s`. -/
theorem isCanonical_of_recoverPublicKey {digest : Digest} {σ : Signature} {key : PublicKey}
    (h : recoverPublicKey digest σ = .ok key) : σ.isCanonical = true := by
  obtain ⟨r, s, id, point, hscalars, hpoint⟩ := recover?_of_recoverPublicKey h
  obtain ⟨hr, hs, -⟩ | hrange := σ.scalars_cases
  · rw [Signature.scalars_eq hr hs, Except.ok.injEq, Prod.mk.injEq] at hscalars
    obtain ⟨rfl, rfl⟩ := hscalars
    have hverify := (Ecdsa.sound_of_recover? hpoint).2
    rw [Ecdsa.verify, Bool.and_eq_true] at hverify
    rw [Signature.isCanonical_eq_isLow hs]
    exact hverify.1
  · rw [hrange] at hscalars
    cases hscalars

theorem recoverPublicKey_of_high {σ : Signature} (digest : Digest) (hr : Signature.InRange σ.r)
    (hs : Signature.InRange σ.s) (hv : σ.v = 27 ∨ σ.v = 28) (hhigh : σ.isCanonical = false) :
    recoverPublicKey digest σ = .error .recoveryFailed := by
  obtain ⟨id, hbyte⟩ := Signature.exists_recoveryByte? hv
  rw [Signature.isCanonical_eq_isLow hs] at hhigh
  rw [recoverPublicKey_eq hbyte (Signature.scalars_eq hr hs σ.v), Ecdsa.recover?_of_high hhigh]

end Wallet
