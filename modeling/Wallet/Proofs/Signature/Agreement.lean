import Wallet.Proofs.Ecdsa.Equation
import Wallet.Proofs.Signature.Acceptance

/-! Verification and recovery agree. Both come down to the nonce point that a signature claims under a key:
verification asks whether it has the given `r`, recovery at an indicator whether it is the one point that the
indicator names. Of the points with a given `r` those with an abscissa below the order have an indicator, and
one of the two only, so that a key verifies if it is recovered at one of them, or if the claimed point is
past the order. Main statement: `verify_iff_recovered`. -/

namespace Wallet

open Curve

namespace Ecdsa

/-- The two ids that have an indicator are those of the points with an abscissa below the order. -/
theorem RecoveryId.ofPoint_eq_zero_or_one {x y : Coord} :
    ofPoint x y = 0 ∨ ofPoint x y = 1 ↔ ¬order ≤ x.val := by
  have hbits : ∀ odd reduced, ofBits odd reduced = 0 ∨ ofBits odd reduced = 1 ↔ ¬reduced = true := by decide
  rw [ofPoint, hbits, decide_eq_true_eq]

end Ecdsa

section Agreement

open Signature (InRange)

variable {hash : DomainHash} {message : Bytes} {digest : Digest} {key : PublicKey} {r s : Word} {v : UInt8}

theorem Signature.recoveryByte?_mk (r s : Word) (v : UInt8) :
    recoveryByte? ⟨r, s, v⟩ = if v < lowestV then none else some (v - lowestV) := rfl

theorem value_verifyMessage (hr : InRange r) (hs : InRange s) :
    (verifyMessage hash key message ⟨r, s, v⟩).value =
      Ecdsa.verify key.point (Ecdsa.challenge (hash message)) (Scalar.ofNat r.toNat) (Scalar.ofNat s.toNat) := by
  unfold verifyMessage
  simp only [Signature.isCanonical_eq_isLow hs, Signature.scalars_eq hr hs]
  cases hlow : Ecdsa.isLow (Scalar.ofNat s.toNat)
  · rw [Ecdsa.verify, hlow, Bool.false_and]
    rfl
  · rfl

theorem recoverPublicKey_eq_ok (hkey : key.Valid) (hr : InRange r) (hs : InRange s) {id : Ecdsa.RecoveryId}
    (hbyte : Signature.recoveryByte? ⟨r, s, v⟩ = some id.toByte) :
    recoverPublicKey digest ⟨r, s, v⟩ = .ok key.uncompressed ↔
      Ecdsa.isLow (Scalar.ofNat s.toNat) = true ∧
        ∃ x y, Ecdsa.claimedPoint key.point (Ecdsa.challenge digest) (Scalar.ofNat r.toNat) (Scalar.ofNat s.toNat) =
          .affine x y ∧ x.val % order = r.toNat ∧ .ofPoint x y = id := by
  have hrecover : Ecdsa.recover? (Ecdsa.challenge digest) (Scalar.ofNat r.toNat) (Scalar.ofNat s.toNat) id =
      some key.point ↔ _ :=
    Ecdsa.recover?_eq_some hkey.onCurve hkey.ne_infinity (Signature.scalar_ne_zero hr)
      (Signature.scalar_ne_zero hs)
  rw [Signature.val_scalar hr] at hrecover
  rw [← hrecover, recoverPublicKey_eq hbyte (Signature.scalars_eq hr hs v)]
  generalize Ecdsa.recover? _ _ _ _ = found
  cases found with
  | none => exact iff_of_false nofun nofun
  | some point =>
    dsimp only
    rw [Except.ok.injEq, Option.some.injEq, PublicKey.uncompressed, PublicKey.mk.injEq]
    exact and_iff_right rfl

/-- A key verifies a canonical signature exactly if it is recovered at one of the two indicators or if the
claimed nonce point has an abscissa past the order, and it is recovered at one of them at most. A signature
that is not canonical is refused by both. -/
theorem verify_iff_recovered (hash : DomainHash) (key : PublicKey) (message : Bytes) (r s : Word)
    (hkey : key.Valid) (hr : InRange r) (hs : InRange s) :
    let verified (v : UInt8) := (Verifier.verify ⟨key, hash⟩ message ⟨r, s, v⟩).value
    let recovered (v : UInt8) := recoverPublicKey (hash message) ⟨r, s, v⟩
    let claimed := Ecdsa.claimedPoint key.point (Ecdsa.challenge (hash message)) (Scalar.ofNat r.toNat)
      (Scalar.ofNat s.toNat)
    if s.toNat ≤ order / 2 then
      (∀ v, verified v = true ↔
        recovered 27 = .ok key.uncompressed ∨ recovered 28 = .ok key.uncompressed ∨
          ∃ x y, claimed = .affine x y ∧ order ≤ x.val ∧ x.val % order = r.toNat) ∧
      ¬(recovered 27 = .ok key.uncompressed ∧ recovered 28 = .ok key.uncompressed)
    else
      (∀ v, verified v = false) ∧ recovered 27 = .error .recoveryFailed ∧ recovered 28 = .error .recoveryFailed := by
  intro verified recovered claimed
  have h27 : Signature.recoveryByte? ⟨r, s, 27⟩ = some (Ecdsa.RecoveryId.toByte 0) :=
    (Signature.recoveryByte?_mk r s 27).trans (by decide)
  have h28 : Signature.recoveryByte? ⟨r, s, 28⟩ = some (Ecdsa.RecoveryId.toByte 1) :=
    (Signature.recoveryByte?_mk r s 28).trans (by decide)
  have hverified (v : UInt8) : verified v = Ecdsa.verify key.point (Ecdsa.challenge (hash message))
      (Scalar.ofNat r.toNat) (Scalar.ofNat s.toNat) := value_verifyMessage hr hs
  split
  · rename_i hcanonical
    have hlow : Ecdsa.isLow (Scalar.ofNat s.toNat) = true := by
      rw [Ecdsa.isLow, Signature.val_scalar hs, halfOrder_eq]
      exact decide_eq_true hcanonical
    simp only [hverified, Ecdsa.verify_iff, recovered, recoverPublicKey_eq_ok hkey hr hs h27,
      recoverPublicKey_eq_ok hkey hr hs h28, hlow, true_and, Signature.val_scalar hr]
    refine ⟨fun _ => ⟨?_, ?_⟩, ?_⟩
    · rintro ⟨x, y, hclaimed, hx⟩
      by_cases hpast : order ≤ x.val
      · exact .inr (.inr ⟨x, y, hclaimed, hpast, hx⟩)
      · rcases Ecdsa.RecoveryId.ofPoint_eq_zero_or_one.2 hpast with hid | hid
        · exact .inl ⟨x, y, hclaimed, hx, hid⟩
        · exact .inr (.inl ⟨x, y, hclaimed, hx, hid⟩)
    · rintro (⟨x, y, hclaimed, hx, -⟩ | ⟨x, y, hclaimed, hx, -⟩ | ⟨x, y, hclaimed, -, hx⟩) <;>
        exact ⟨x, y, hclaimed, hx⟩
    · rintro ⟨⟨x, y, hclaimed, -, heven⟩, x', y', hclaimed', -, hodd⟩
      cases hclaimed.symm.trans hclaimed'
      rw [heven] at hodd
      exact absurd hodd (by decide)
  · rename_i hhigh
    have hlow : Ecdsa.isLow (Scalar.ofNat s.toNat) = false := by
      rw [Ecdsa.isLow, Signature.val_scalar hs, halfOrder_eq]
      exact decide_eq_false hhigh
    refine ⟨fun v => ?_, ?_, ?_⟩
    · rw [hverified, Ecdsa.verify, hlow, Bool.false_and]
    · simp only [recovered, recoverPublicKey_eq h27 (Signature.scalars_eq hr hs 27), Ecdsa.recover?_of_high hlow]
    · simp only [recovered, recoverPublicKey_eq h28 (Signature.scalars_eq hr hs 28), Ecdsa.recover?_of_high hlow]

open Transaction (unitPair unitSignature digest_unitDraft signDigest_unit)
open Signer (unitMessage)

theorem point_unitPair : unitPair.publicKey.point = .generator :=
  unitPair.point_eq.trans (PrivateKey.publicPoint_of_one rfl)

theorem recovered_unit :
    recoverPublicKey (DomainHash.keccak unitMessage) ⟨unitSignature.r, unitSignature.s, 27⟩ = .ok generatorKey := by
  have hdigest : DomainHash.keccak unitMessage = Transaction.unitDigest := digest_unitDraft
  have h := recoverPublicKey_of_signDigest signDigest_unit
  dsimp only at h
  rw [point_unitPair] at h
  rw [hdigest]
  exact h

theorem unit_verify_iff_recovered :
    generatorKey.Valid ∧ InRange unitSignature.r ∧ InRange unitSignature.s ∧
      recoverPublicKey (DomainHash.keccak unitMessage) ⟨unitSignature.r, unitSignature.s, 27⟩ = .ok generatorKey ∧
      recoverPublicKey (DomainHash.keccak unitMessage) ⟨unitSignature.r, unitSignature.s, 28⟩ ≠ .ok generatorKey ∧
      (Verifier.verify ⟨generatorKey, DomainHash.keccak⟩ unitMessage
        ⟨unitSignature.r, unitSignature.s, 0⟩).value = true := by
  have hkey := generatorKey_valid
  have hr : InRange unitSignature.r := by decide
  have hs : InRange unitSignature.s := by decide
  have hlow : unitSignature.s.toNat ≤ order / 2 := by decide
  have h := verify_iff_recovered DomainHash.keccak generatorKey unitMessage unitSignature.r unitSignature.s hkey hr hs
  dsimp only at h
  rw [if_pos hlow] at h
  exact ⟨hkey, hr, hs, recovered_unit, fun h28 => h.2 ⟨recovered_unit, h28⟩, (h.1 0).2 (.inl recovered_unit)⟩

end Agreement
end Wallet
