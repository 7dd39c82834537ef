import Wallet.Proofs.Outcome
import Wallet.Proofs.Signature.Range
import Wallet.Signature.Signer

/-! What a signature that a signer returns is: canonical, with a `v` that names the recovery id at
which the signer's own key comes back (`signDigest_eq_ok`). -/

namespace Wallet

namespace Signature

/-- The twin of a signature in range has the complement of `s`. -/
theorem toNat_twin_s {σ : Signature} (h : InRange σ.s) : σ.twin.s.toNat = Curve.order - σ.s.toNat := by
  have hlt := h.2
  have horder : Curve.order < 2 ^ 256 := by decide
  change (BitVec.ofNat 256 Curve.order - σ.s).toNat = _
  rw [BitVec.toNat_sub, BitVec.toNat_ofNat, Nat.mod_eq_of_lt horder]
  omega

theorem isCanonical_iff {σ : Signature} : σ.isCanonical = true ↔ σ.s.toNat ≤ Curve.halfOrder := by
  rw [isCanonical, decide_eq_true_eq]

theorem isCanonical_eq_false {σ : Signature} : σ.isCanonical = false ↔ Curve.order / 2 < σ.s.toNat := by
  rw [← Bool.not_eq_true, isCanonical_iff, ← Curve.halfOrder_eq, Nat.not_le]

theorem isCanonical_toCanonical {σ : Signature} (h : InRange σ.s) : σ.toCanonical.isCanonical = true := by
  unfold toCanonical
  split
  · assumption
  · rename_i hhigh
    have hodd : Curve.order = 2 * Curve.halfOrder + 1 := by decide
    rw [isCanonical_iff] at hhigh ⊢
    rw [toNat_twin_s h]
    omega

end Signature

namespace Ecdsa.RecoveryId

theorem ofByte?_toByte (id : RecoveryId) : ofByte? id.toByte = some id := by
  revert id
  decide

/-- Where an indicator is 27 or 28, the recovery id is read back from it. -/
theorem recoveryByte?_add_lowestV {id : RecoveryId} (r s : Word)
    (h : id.toByte + Signature.lowestV = 0 ∨ id.toByte + Signature.lowestV = 27 ∨
      id.toByte + Signature.lowestV = 28) :
    (id.toByte + Signature.lowestV = 27 ∨ id.toByte + Signature.lowestV = 28) ∧
      (Signature.mk r s (id.toByte + Signature.lowestV)).recoveryByte? = some id.toByte := by
  have hbyte : ∀ id : RecoveryId,
      id.toByte + Signature.lowestV = 0 ∨ id.toByte + Signature.lowestV = 27 ∨
        id.toByte + Signature.lowestV = 28 →
      (id.toByte + Signature.lowestV = 27 ∨ id.toByte + Signature.lowestV = 28) ∧
        ¬id.toByte + Signature.lowestV < Signature.lowestV ∧
        id.toByte + Signature.lowestV - Signature.lowestV = id.toByte := by decide
  obtain ⟨hv, hge, hsub⟩ := hbyte id h
  exact ⟨hv, by rw [Signature.recoveryByte?, if_neg hge, hsub]⟩

end Ecdsa.RecoveryId

namespace Signer

open Signature (InRange)

variable {signer : Signer} {digest : Digest} {tries : Nat} {σ τ : Signature}

/-- The last step of signing: the indicator of the recovery id is put on a signature. -/
def stamp (signer : Signer) (σ : Signature) : Option Ecdsa.RecoveryId → Reporting SignatureError Signature
  | some id => do
    Reporting.emit (.recoveryIdSelected id.toByte)
    Reporting.silent (Signature.make σ.r σ.s (id.toByte + Signature.lowestV))
  | none => do
    Reporting.emit (.recoveryIdMissing signer.pair.publicKey)
    throw .recoveryIdNotFound

/-- What signing makes of a pair of scalars, if there is one. -/
def complete (signer : Signer) (digest : Digest) :
    Option (Curve.Scalar × Curve.Scalar) → Reporting SignatureError Signature
  | none => throw .signingFailed
  | some (r, s) => do
    let raw ← Reporting.silent (Signature.ofScalars r s 0)
    let (r, s) ← Reporting.silent raw.toCanonical.scalars
    stamp signer raw.toCanonical (signer.recoveryId? digest r s)

theorem signDigest_eq (signer : Signer) (digest : Digest) (tries : Nat) :
    signer.signDigest digest tries =
      complete signer digest (Ecdsa.sign signer.pair.privateKey.scalar digest tries) := by
  -- between functions, and by cases on what is drawn: the drawing itself must never be computed
  have heq : @signDigest = fun signer digest tries =>
      complete signer digest (Ecdsa.sign signer.pair.privateKey.scalar digest tries) := by
    delta signDigest
    funext signer digest tries
    generalize Ecdsa.sign signer.pair.privateKey.scalar digest tries = drawn
    rcases drawn with _ | ⟨r, s⟩
    · rfl
    · dsimp only [complete]
      refine bind_congr fun raw => bind_congr fun rs => ?_
      generalize signer.recoveryId? digest rs.1 rs.2 = found
      cases found <;> rfl
  exact congrFun (congrFun (congrFun heq signer) digest) tries

theorem result_stamp (found : Option Ecdsa.RecoveryId) :
    (signer.stamp σ found).result =
      match found with
      | some id => Signature.make σ.r σ.s (id.toByte + Signature.lowestV)
      | none => .error .recoveryIdNotFound := by
  cases found <;> rfl

/-- The form in which a signer holds its public key plays no part in what it signs. -/
theorem result_signDigest_congr {other : Signer} (h : other.pair.privateKey = signer.pair.privateKey) :
    (other.signDigest digest tries).result = (signer.signDigest digest tries).result := by
  have hpoint : other.pair.publicKey.point = signer.pair.publicKey.point := by
    rw [other.pair.point_eq, signer.pair.point_eq, h]
  have hid : other.recoveryId? digest = signer.recoveryId? digest := by
    funext r s
    unfold recoveryId?
    rw [hpoint]
  rw [signDigest_eq, signDigest_eq, h]
  generalize Ecdsa.sign signer.pair.privateKey.scalar digest tries = drawn
  rcases drawn with _ | ⟨r, s⟩
  · rfl
  · simp only [complete, Reporting.result_bind, result_stamp, hid]

theorem stamp_eq_ok {found : Option Ecdsa.RecoveryId} (h : (signer.stamp τ found).result = .ok σ) :
    ∃ id, found = some id ∧ InRange τ.r ∧ InRange τ.s ∧ (σ.v = 27 ∨ σ.v = 28) ∧
      σ = ⟨τ.r, τ.s, id.toByte + Signature.lowestV⟩ ∧ σ.recoveryByte? = some id.toByte := by
  rw [result_stamp] at h
  rcases found with _ | id
  · cases h
  · obtain ⟨hσ, hr, hs, hv⟩ := Signature.make_eq_ok.1 h
    obtain ⟨hv, hbyte⟩ := Ecdsa.RecoveryId.recoveryByte?_add_lowestV τ.r τ.s hv
    refine ⟨id, rfl, hr, hs, ?_, hσ, ?_⟩
    · rw [hσ]
      exact hv
    · rw [hσ]
      exact hbyte

/-- What the search for a recovery id finds gives back the signer's key. -/
theorem recover_of_recoveryId? {r s : Curve.Scalar} {id : Ecdsa.RecoveryId}
    (h : signer.recoveryId? digest r s = some id) :
    Ecdsa.recover? (Ecdsa.challenge digest) r s id = some signer.pair.publicKey.point := by
  unfold recoveryId? at h
  have hfound := List.find?_some h
  exact eq_of_beq hfound

/-- A signature that a signer returns: in range, canonical, and with the recovery id under which the
signer's own point is recovered. -/
theorem signDigest_eq_ok (h : (signer.signDigest digest tries).result = .ok σ) :
    InRange σ.r ∧ InRange σ.s ∧ (σ.v = 27 ∨ σ.v = 28) ∧ σ.isCanonical = true ∧
      ∃ id r s, σ.recoveryByte? = some (Ecdsa.RecoveryId.toByte id) ∧ σ.scalars = .ok (r, s) ∧
        Ecdsa.recover? (Ecdsa.challenge digest) r s id = some signer.pair.publicKey.point := by
  rw [signDigest_eq] at h
  generalize Ecdsa.sign signer.pair.privateKey.scalar digest tries = drawn at h
  rcases drawn with _ | ⟨r, s⟩
  · simp only [complete, Reporting.result_throw, reduceCtorEq] at h
  · simp only [complete, Outcome.result_bind_eq_ok, Reporting.result_silent] at h
    obtain ⟨raw, hraw, ⟨r, s⟩, hscalars, h⟩ := h
    have hs : InRange raw.s := (Signature.valid_of_make hraw).2.1
    obtain ⟨id, hid, hr', hs', hv, hσ, hbyte⟩ := stamp_eq_ok h
    have hcanonical := Signature.isCanonical_toCanonical hs
    refine ⟨?_, ?_, hv, ?_, id, r, s, hbyte, ?_, recover_of_recoveryId? hid⟩ <;> rw [hσ]
    · exact hr'
    · exact hs'
    · exact hcanonical
    · exact hscalars

end Signer
end Wallet
