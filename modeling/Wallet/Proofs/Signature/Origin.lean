import Wallet.Proofs.Signature.Recovery
import Wallet.Proofs.Signature.Twins
import Wallet.Proofs.Signature.Wire
import Wallet.Proofs.Transaction.RoundTrip

/-! Where signatures come from. Whoever makes one keeps to the ranges of its parts, also those that put a part in by
hand: an indicator behind the compact form, or the complement of `s` (`Obtained.valid`). So of the failures of recovery
only two are left, that the indicator is unknown and that no key is found: both numbers are scalars, an indicator that
is known is that of a recovery id, and a point that is found is on the curve and read back as a key. Main statement:
`obtained_recovery`. -/

namespace Wallet.Signature

/-- The signatures that the library hands out, by what makes them. -/
inductive Obtained : Signature → Prop
  | make {r s : Word} {v : UInt8} {σ : Signature} (h : make r s v = .ok σ) : Obtained σ
  | compact {bs : Bytes} {σ : Signature} (h : ofBytes bs = .ok σ) : Obtained σ
  | recoverable {bs : Bytes} {σ : Signature} (h : ofRecoverable bs = .ok σ) : Obtained σ
  | canonical {σ : Signature} (h : Obtained σ) : Obtained σ.toCanonical
  | signed {signer : Signer} {message : Bytes} {σ : Signature} (h : (signer.sign message).result = .ok σ) :
      Obtained σ
  | signedDigest {signer : Signer} {digest : Digest} {σ : Signature} (h : (signer.signDigest digest).result = .ok σ) :
      Obtained σ
  | signedTransaction {tx : Transaction} {pair : KeyPair} {σ : Signature} (h : (tx.sign pair).result = .ok σ) :
      Obtained σ
  | stored {tx : Transaction} {σ : Signature} (hmade : Transaction.Made tx) (h : tx.signature = some σ) : Obtained σ

variable {σ : Signature} {digest : Digest}

theorem valid_of_ofRecoverable {bs : Bytes} (h : ofRecoverable bs = .ok σ) : σ.Valid := by
  obtain ⟨-, last, -, -, τ, hτ, rfl⟩ := ofRecoverable_eq_ok.1 h
  obtain ⟨⟨hr, hs, -⟩, -, -⟩ := ofBytes_eq_ok.1 hτ
  refine ⟨hr, hs, .inr ?_⟩
  dsimp only [normalized]
  split
  · exact .inl rfl
  · exact .inr rfl

theorem valid_of_signDigest {signer : Signer} (h : (signer.signDigest digest).result = .ok σ) : σ.Valid := by
  obtain ⟨hr, hs, hv, -⟩ := Signer.signDigest_eq_ok h
  exact ⟨hr, hs, .inr hv⟩

theorem Obtained.valid (h : Obtained σ) : σ.Valid := by
  induction h with
  | make h => exact valid_of_make h
  | compact h => exact (ofBytes_eq_ok.1 h).1
  | recoverable h => exact valid_of_ofRecoverable h
  | canonical _ ih => exact valid_toCanonical ih
  | signed h => exact valid_of_signDigest h
  | signedDigest h => exact valid_of_signDigest h
  | signedTransaction h => exact valid_of_signDigest (Transaction.sign_eq_ok.1 h)
  | stored hmade h =>
    obtain ⟨hr, hs, hv⟩ := hmade.sound _ h
    exact ⟨hr, hs, .inr hv⟩

/-! Recovery -/

theorem recoveryByte?_of_unknown (h : σ.v = 0) : σ.recoveryByte? = none := by
  rw [recoveryByte?, h, if_pos (by decide)]

theorem recoverPublicKey_of_unknown (h : σ.v = 0) : recoverPublicKey digest σ = .error (.invalidV 0) := by
  simp only [recoverPublicKey, recoveryByte?_of_unknown h, h]
  rfl

/-- With a known indicator, the search for a key is all that can fail. -/
theorem recoverPublicKey_of_known (digest : Digest) (hσ : σ.Valid) (hknown : σ.v ≠ 0) :
    (∃ key, recoverPublicKey digest σ = .ok key ∧ key.Valid) ∨
      recoverPublicKey digest σ = .error .recoveryFailed := by
  obtain ⟨hr, hs, hv⟩ := hσ
  obtain ⟨id, hbyte⟩ := exists_recoveryByte? (hv.resolve_left hknown)
  rw [recoverPublicKey_eq hbyte (scalars_eq hr hs σ.v)]
  cases hfound : Ecdsa.recover? (Ecdsa.challenge digest) (Curve.Scalar.ofNat σ.r.toNat) (Curve.Scalar.ofNat σ.s.toNat) id
    with
  | none => exact .inr rfl
  | some point =>
    have hvalid : PublicKey.Valid ⟨.uncompressed, point⟩ :=
      PublicKey.valid_of_onCurve (Ecdsa.recover?_onCurve hfound) (Ecdsa.sound_of_recover? hfound).1 nofun
    exact .inl ⟨_, rfl, hvalid⟩

/-- A signature, wherever it comes from, has both numbers in range and an indicator of 0, 27 or 28. So its numbers are
scalars, its indicator is that of a recovery id if it is known, and a point that is recovered from it is read back as a
key. Recovery fails for an unknown indicator and no other signature does so; else it finds a key or finds none. -/
theorem obtained_recovery (σ : Signature) (h : Obtained σ) :
    InRange σ.r ∧ InRange σ.s ∧ (σ.v = 0 ∨ σ.v = 27 ∨ σ.v = 28) ∧
    ∃ r s : Curve.Scalar, σ.scalars = .ok (r, s) ∧ r.val = σ.r.toNat ∧ s.val = σ.s.toNat ∧
      (∀ byte, σ.recoveryByte? = some byte → ∃ id, Ecdsa.RecoveryId.ofByte? byte = some id) ∧
      ∀ digest,
        (∀ id point, Ecdsa.recover? (Ecdsa.challenge digest) r s id = some point →
          PublicKey.ofBytes (point.encode .uncompressed) = .ok ⟨.uncompressed, point⟩) ∧
        (recoverPublicKey digest σ = .error (.invalidV 0) ↔ σ.v = 0) ∧
        (σ.v ≠ 0 → (∃ key, recoverPublicKey digest σ = .ok key ∧ key.Valid) ∨
          recoverPublicKey digest σ = .error .recoveryFailed) := by
  have hσ := h.valid
  have ⟨hr, hs, hv⟩ := hσ
  refine ⟨hr, hs, hv, _, _, scalars_eq hr hs σ.v, val_scalar hr, val_scalar hs, fun byte hbyte => ?_, fun digest =>
    ⟨fun id point hfound => ?_, ⟨fun hunknown => ?_, recoverPublicKey_of_unknown⟩, recoverPublicKey_of_known digest hσ⟩⟩
  · have hknown : σ.v ≠ 0 := fun hzero => by
      rw [recoveryByte?_of_unknown hzero] at hbyte
      cases hbyte
    obtain ⟨id, hid⟩ := exists_recoveryByte? (hv.resolve_left hknown)
    rw [hid, Option.some.injEq] at hbyte
    exact ⟨id, hbyte ▸ id.ofByte?_toByte⟩
  · exact PublicKey.ofBytes_encode (Ecdsa.recover?_onCurve hfound) (Ecdsa.sound_of_recover? hfound).1
  · by_contra hknown
    rcases recoverPublicKey_of_known digest hσ hknown with ⟨key, hkey, -⟩ | hnone
    · rw [hkey] at hunknown
      cases hunknown
    · rw [hnone] at hunknown
      cases hunknown

theorem small_obtained :
    Obtained smallSignature ∧ Obtained { smallSignature with v := 0 } ∧
      ∀ digest,
        recoverPublicKey digest { smallSignature with v := 0 } = .error (.invalidV 0) ∧
        ((∃ key, recoverPublicKey digest smallSignature = .ok key ∧ key.Valid) ∨
          recoverPublicKey digest smallSignature = .error .recoveryFailed) := by
  have hvalid : smallSignature.Valid := by decide
  have hknown : Obtained smallSignature := .recoverable (ofRecoverable_recoverableBytes? hvalid rfl)
  have hunknown : Obtained { smallSignature with v := 0 } := .compact (ofBytes_bytes hvalid.1 hvalid.2.1)
  obtain ⟨-, -, -, _, _, -, -, -, -, hrecovery⟩ := obtained_recovery _ hknown
  obtain ⟨-, -, -, _, _, -, -, -, -, hfailure⟩ := obtained_recovery _ hunknown
  exact ⟨hknown, hunknown, fun digest => ⟨(hfailure digest).2.1.2 rfl, (hrecovery digest).2.2 (by decide)⟩⟩

end Wallet.Signature
