import Wallet.Proofs.Ecdsa.Textbook
import Wallet.Proofs.Signature.Agreement
import Wallet.Proofs.Signature.Twins

/-! What a signature says does not change in its canonical form. Twins have opposite `s` and opposite parities, so
they satisfy the equation of ECDSA under the same keys and belong to the same key; of a canonical signature
verification and recovery decide just that. Main statement: `canonical_form_same_meaning`. -/

namespace Wallet

open Curve
open Curve.Point (ofGroup base)
open Curve.Scalar (residue)

namespace Signature

variable {a b σ : Signature} {z : ZMod order} {Q : weierstrass.Point}

/-- The equation of ECDSA between a signature, a digest that is the number `z`, and a key. -/
def Holds (σ : Signature) (z : ZMod order) (Q : weierstrass.Point) : Prop :=
  Ecdsa.Holds Q z σ.r.toNat σ.s.toNat

/-- The key that the nonce point named by a signature gives. -/
def Recovers (σ : Signature) (z : ZMod order) (Q : weierstrass.Point) : Prop :=
  Ecdsa.Recovers z σ.r.toNat σ.s.toNat (σ.v == 28) Q

/-! Twins say the same -/

theorem Twins.cast_s (h : Twins a b) : (b.s.toNat : ZMod order) = -a.s.toNat := by
  have hsum : ((a.s.toNat + b.s.toNat : Nat) : ZMod order) = 0 := by rw [h.s, ZMod.natCast_self]
  rw [Nat.cast_add] at hsum
  exact (neg_eq_of_add_eq_zero_right hsum).symm

theorem Twins.odd (h : Twins a b) (hv : a.v ≠ 0) : (b.v == 28) = !(a.v == 28) := by
  rcases h.v with ⟨ha, -⟩ | ⟨ha, hb⟩ | ⟨ha, hb⟩
  · exact absurd ha hv
  · rw [ha, hb]
    rfl
  · rw [ha, hb]
    rfl

theorem Twins.holds_iff (h : Twins a b) : b.Holds z Q ↔ a.Holds z Q := by
  rw [Holds, Holds, ← h.r, h.cast_s, Ecdsa.holds_neg]

theorem Twins.recovers_iff (h : Twins a b) (hv : a.v ≠ 0) : b.Recovers z Q ↔ a.Recovers z Q := by
  rw [Recovers, Recovers, ← h.r, h.cast_s, h.odd hv, Ecdsa.recovers_neg]

theorem holds_toCanonical (h : σ.Valid) : σ.toCanonical.Holds z Q ↔ σ.Holds z Q :=
  toCanonical_induction (motive := fun τ => τ.Holds z Q ↔ σ.Holds z Q) h Iff.rfl fun _ => Twins.holds_iff

theorem recovers_toCanonical (h : σ.Valid) (hv : σ.v ≠ 0) : σ.toCanonical.Recovers z Q ↔ σ.Recovers z Q :=
  toCanonical_induction (motive := fun τ => τ.Recovers z Q ↔ σ.Recovers z Q) h Iff.rfl
    fun _ htwins => htwins.recovers_iff hv

theorem known_toCanonical (h : σ.Valid) (hv : σ.v ≠ 0) : σ.toCanonical.v ≠ 0 :=
  toCanonical_induction (motive := fun τ => τ.v ≠ 0) h hv fun _ htwins => htwins.known_iff.2 hv

/-! What is computed of a canonical signature -/

variable {hash : DomainHash} {key : PublicKey} {message : Bytes} {digest : Digest}

theorem cast_toNat_ne_zero {w : Word} (h : InRange w) : (w.toNat : ZMod order) ≠ 0 := by
  rw [← Scalar.residue_ofNat, Scalar.residue_ne_zero]
  exact scalar_ne_zero h

theorem residue_challenge (digest : Digest) :
    residue (Ecdsa.challenge digest) = Bytes.toNat digest.toList :=
  Scalar.residue_ofNat _

theorem verify_iff_holds (h : σ.Valid) (hlow : σ.isCanonical = true) (hkey : key.Valid) :
    (Verifier.verify ⟨key, hash⟩ message σ).value = true ↔
      σ.Holds (Bytes.toNat (hash message).toList) (key.point.toGroup hkey.onCurve) := by
  obtain ⟨r, s, v⟩ := σ
  obtain ⟨hr, hs, -⟩ := h
  rw [isCanonical_eq_isLow hs] at hlow
  rw [Verifier.verify, value_verifyMessage hr hs, Ecdsa.verify_iff, and_iff_right hlow, Holds, ← residue_challenge,
    ← Scalar.residue_ofNat, ← Scalar.residue_ofNat, Ecdsa.holds_residue, Point.ofGroup_toGroup]

theorem recoverPublicKey_iff_recovers (h : σ.Valid) (hv : σ.v ≠ 0) (hlow : σ.isCanonical = true)
    (hkey : key.Valid) :
    recoverPublicKey digest σ = .ok key.uncompressed ↔
      σ.Recovers (Bytes.toNat digest.toList) (key.point.toGroup hkey.onCurve) := by
  obtain ⟨r, s, v⟩ := σ
  obtain ⟨hr, hs, hknown⟩ := h
  have hbyte : recoveryByte? ⟨r, s, v⟩ = some (Ecdsa.RecoveryId.ofBits (v == 28) false).toByte := by
    rw [recoveryByte?_mk]
    rcases hknown with hzero | rfl | rfl
    · exact absurd hzero hv
    · decide
    · decide
  rw [isCanonical_eq_isLow hs] at hlow
  rw [recoverPublicKey_eq_ok hkey hr hs hbyte, and_iff_right hlow, Recovers, ← residue_challenge,
    ← Scalar.residue_ofNat, ← Scalar.residue_ofNat,
    Ecdsa.recovers_residue (scalar_ne_zero hr) (scalar_ne_zero hs), Point.ofGroup_toGroup, val_scalar hr]

/-- What is signed with a secret and a nonce is recovered to the public key of the secret, in either form. -/
theorem recoverPublicKey_of_equation (h : σ.Valid) (hv : σ.v ≠ 0) (d : PrivateKey) (k : ZMod order)
    (hpoint : Ecdsa.IsNoncePoint σ.r.toNat (σ.v == 28) (k • base))
    (heq : k * σ.s.toNat = Bytes.toNat digest.toList + σ.r.toNat * d.scalar.val) :
    recoverPublicKey digest σ.toCanonical = .ok ⟨.uncompressed, d.publicPoint⟩ := by
  have hkey : PublicKey.Valid ⟨.uncompressed, d.publicPoint⟩ :=
    PublicKey.valid_of_onCurve d.publicPoint_onCurve d.publicPoint_ne_infinity nofun
  have hQ : d.publicPoint.toGroup hkey.onCurve = residue d.scalar • base := by
    apply Point.ofGroup_injective
    rw [Point.ofGroup_toGroup, PrivateKey.publicPoint, ← Point.ofGroup_base, Point.mul_ofGroup_smul]
  refine (recoverPublicKey_iff_recovers (valid_toCanonical h) (known_toCanonical h hv)
    (isCanonical_toCanonical h.2.1) hkey).2 ((recovers_toCanonical h hv).2 ?_)
  rw [hQ]
  exact Ecdsa.recovers_of_equation (cast_toNat_ne_zero h.1) hpoint heq

/-- Verification of the canonical form decides the equation of the signature itself; and where the indicator is
known, the signature and its canonical form belong to one key or none, recovery from the canonical form finds it,
and it is the key of the secret with which the signature was made. -/
theorem canonical_form_same_meaning (hash : DomainHash) (message : Bytes) (σ : Signature) (h : σ.Valid) :
    let z : ZMod order := Bytes.toNat (hash message).toList
    (∀ (key : PublicKey) (hkey : key.Valid), σ.Holds z (key.point.toGroup hkey.onCurve) ↔
      (Verifier.verify ⟨key, hash⟩ message σ.toCanonical).value = true) ∧
    (σ.v ≠ 0 →
      (∀ Q, σ.Recovers z Q ↔ σ.toCanonical.Recovers z Q) ∧
      (∀ Q Q', σ.Recovers z Q → σ.Recovers z Q' → Q = Q') ∧
      (∀ (key : PublicKey) (hkey : key.Valid), σ.Recovers z (key.point.toGroup hkey.onCurve) ↔
        recoverPublicKey (hash message) σ.toCanonical = .ok key.uncompressed) ∧
      ∀ (d : PrivateKey) (k : ZMod order), Ecdsa.IsNoncePoint σ.r.toNat (σ.v == 28) (k • base) →
        k * σ.s.toNat = z + σ.r.toNat * d.scalar.val →
        recoverPublicKey (hash message) σ.toCanonical = .ok ⟨.uncompressed, d.publicPoint⟩) := by
  intro z
  have hvalid := valid_toCanonical h
  have hlow := isCanonical_toCanonical h.2.1
  refine ⟨fun key hkey => ?_, fun hv => ⟨fun Q => ?_, fun Q Q' => Ecdsa.Recovers.unique, fun key hkey => ?_,
    recoverPublicKey_of_equation h hv⟩⟩
  · rw [verify_iff_holds hvalid hlow hkey, holds_toCanonical h]
  · rw [recovers_toCanonical h hv]
  · rw [recoverPublicKey_iff_recovers hvalid (known_toCanonical h hv) hlow hkey, recovers_toCanonical h hv]

open Transaction (unitPair)

/-- A signature of the digest zero that is not canonical, made with the secret 1 and the nonce −1. -/
def mirrored : Signature :=
  ⟨0x79be667ef9dcbbac55a06295ce870b07029bfcdb2dce28d959f2815b16f81798,
   0x8641998106234453aa5f9d6a3178f4f7b812e00b817a776265dfdd31b93e29a9, 28⟩

theorem mirrored_nonce : Ecdsa.IsNoncePoint mirrored.r.toNat (mirrored.v == 28) ((-1 : ZMod order) • base) := by
  have hpoint : ofGroup ((-1 : ZMod order) • base) = Point.generator.neg := by
    rw [neg_smul, one_smul, ← Point.neg_ofGroup, Point.ofGroup_base]
  rw [← Scalar.residue_ofNat, Ecdsa.isNoncePoint_residue]
  exact ⟨_, _, hpoint, by decide, by decide⟩

theorem mirrored_same_meaning :
    mirrored.Valid ∧ mirrored.isCanonical = false ∧
      recoverPublicKey (Vector.replicate 32 0) mirrored.toCanonical = .ok generatorKey ∧
      (Verifier.verify ⟨generatorKey, fun _ => Vector.replicate 32 0⟩ [] mirrored.toCanonical).value = true := by
  have hvalid : mirrored.Valid := by decide
  obtain ⟨hverify, hrecover⟩ := canonical_form_same_meaning (fun _ => Vector.replicate 32 0) [] mirrored hvalid
  obtain ⟨-, -, hkey, hmade⟩ := hrecover (by decide)
  have hequation : (-1 : ZMod order) * mirrored.s.toNat =
      Bytes.toNat (Vector.replicate 32 (0 : UInt8)).toList + mirrored.r.toNat * unitPair.privateKey.scalar.val := by
    have hz : Bytes.toNat (Vector.replicate 32 (0 : UInt8)).toList = 0 := by decide
    have hd : unitPair.privateKey.scalar.val = 1 := rfl
    have hsum : mirrored.r.toNat + mirrored.s.toNat = order := by decide
    rw [hz, hd, Nat.cast_zero, zero_add, Nat.cast_one, mul_one, neg_one_mul, neg_eq_iff_add_eq_zero, add_comm,
      ← Nat.cast_add, hsum, ZMod.natCast_self]
  have hrecovered := hmade unitPair.privateKey (-1) mirrored_nonce hequation
  rw [← unitPair.point_eq, point_unitPair] at hrecovered
  refine ⟨hvalid, by decide, hrecovered, (hverify _ generatorKey_valid).1 ?_⟩
  exact ((hkey _ generatorKey_valid).2 hrecovered).holds (cast_toNat_ne_zero hvalid.1) (cast_toNat_ne_zero hvalid.2.1)

end Signature

end Wallet
