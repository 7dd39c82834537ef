import Wallet.Proofs.Signature.Agreement
import Wallet.Proofs.Signature.Indicator

/-! A signature cannot be changed in its `s`. All nonce points that are claimed under a key for one message and
one `r` are multiples of one point by the inverses of `s` (`claimedPoint_ofGroup_smul`). If two of them have
`r` for abscissa they are equal or opposite, so that the two `s` are (`eq_or_eq_neg_of_accepts`), and of two
opposite ones one is low. From the distance of the order to the prime of the coordinates upwards an `r` is
the remainder of one abscissa only, `r` itself. Main statement: `passes_unique`. -/

namespace Wallet

open Curve

namespace Ecdsa

open Curve.Point (ofGroup base)
open Curve.Scalar (residue)

variable {z r s s' : Scalar} {key : Point}

theorem claimedPoint_ofGroup_smul (Q : weierstrass.Point) (z r s : Scalar) :
    claimedPoint (ofGroup Q) z r s = ofGroup ((residue s)⁻¹ • (residue z • base + residue r • Q)) := by
  rw [claimedPoint_ofGroup, smul_add, smul_smul, smul_smul, mul_comm (residue z), mul_comm (residue r)]

/-- The only abscissa with a remainder that reaches the distance of the two primes is that remainder. -/
theorem val_eq_of_mod_order {x : Coord} (hr : prime - order ≤ r.val) (hx : x.val % order = r.val) :
    x.val = r.val := by
  have hlt := x.isLt
  rw [mod_order_eq_iff] at hx
  split at hx <;> omega

theorem eq_or_eq_neg_of_accepts (hkey : key.OnCurve) (hr : prime - order ≤ r.val)
    (h : accepts key z r s = true) (h' : accepts key z r s' = true) : s = s' ∨ s = -s' := by
  obtain ⟨Q, rfl⟩ := Point.exists_ofGroup hkey
  obtain ⟨x, y, hclaimed, hx⟩ := accepts_iff.1 h
  obtain ⟨x', y', hclaimed', hx'⟩ := accepts_iff.1 h'
  obtain rfl : x = x' := Fin.ext ((val_eq_of_mod_order hr hx).trans (val_eq_of_mod_order hr hx').symm)
  rw [claimedPoint_ofGroup_smul] at hclaimed hclaimed'
  generalize residue z • base + residue r • Q = T at hclaimed hclaimed'
  have hT : T ≠ 0 := by
    rintro rfl
    rw [smul_zero, Point.ofGroup_eq_infinity.2 rfl] at hclaimed
    cases hclaimed
  -- a multiple of a nonzero point determines its factor
  have hfactor := Point.eq_or_eq_neg_of_abscissa hclaimed hclaimed'
  rwa [← neg_smul, (smul_left_injective _ hT).eq_iff, (smul_left_injective _ hT).eq_iff, ← inv_neg,
    inv_inj, inv_inj, ← Scalar.residue_neg, Scalar.residue_inj, Scalar.residue_inj] at hfactor

/-- Under a key, for one challenge and one `r`, at most one nonzero `s` verifies. -/
theorem verify_unique (hkey : key.OnCurve) (hr : prime - order ≤ r.val) (hs' : s' ≠ 0)
    (h : verify key z r s = true) (h' : verify key z r s' = true) : s = s' := by
  rw [verify, Bool.and_eq_true] at h h'
  refine (eq_or_eq_neg_of_accepts hkey hr h.2 h'.2).resolve_right ?_
  rintro rfl
  have hlow := h.1
  rw [isLow_neg hs', h'.1] at hlow
  cases hlow

end Ecdsa

section Passes

open Signature (InRange)

variable {hash : DomainHash} {key : PublicKey} {message : Bytes} {r s s' : Word}

/-- With some indicator `s` completes `r` to a signature of a message that is accepted under a key, by a
verifier or by a signer that holds the key. -/
def Passes (hash : DomainHash) (key : PublicKey) (message : Bytes) (r s : Word) : Prop :=
  ∃ v σ, Signature.make r s v = .ok σ ∧
    ((Verifier.verify ⟨key, hash⟩ message σ).value = true ∨
      ∃ signer : Signer, signer.pair.publicKey = key ∧ signer.hash = hash ∧
        (signer.verify message σ).value = true)

/-- It makes no difference who accepts. -/
theorem passes_iff :
    Passes hash key message r s ↔
      InRange r ∧ InRange s ∧ Ecdsa.verify key.point (Ecdsa.challenge (hash message)) (Scalar.ofNat r.toNat)
        (Scalar.ofNat s.toNat) = true := by
  constructor
  · rintro ⟨v, σ, hmake, hverify⟩
    obtain ⟨rfl, hr, hs, -⟩ := Signature.make_eq_ok.1 hmake
    refine ⟨hr, hs, ?_⟩
    rw [← value_verifyMessage (v := v) hr hs]
    rcases hverify with hverify | ⟨signer, rfl, rfl, hverify⟩ <;> exact hverify
  · rintro ⟨hr, hs, hverify⟩
    exact ⟨0, _, Signature.make_eq_ok.2 ⟨rfl, hr, hs, .inl rfl⟩, .inl ((value_verifyMessage hr hs).trans hverify)⟩

/-- Under a key, for one message and one `r` that only one abscissa leaves as its remainder, at most one `s` is
accepted. -/
theorem passes_unique (hash : DomainHash) (key : PublicKey) (message : Bytes) (r s s' : Word) (hkey : key.Valid)
    (hr : prime - order ≤ r.toNat) (h : Passes hash key message r s) (h' : Passes hash key message r s') :
    s = s' := by
  obtain ⟨hrange, hs, hverify⟩ := passes_iff.1 h
  obtain ⟨-, hs', hverify'⟩ := passes_iff.1 h'
  rw [← Signature.val_scalar hrange] at hr
  have hequal := Ecdsa.verify_unique hkey.onCurve hr (Signature.scalar_ne_zero hs') hverify hverify'
  apply BitVec.eq_of_toNat_eq
  rw [← Signature.val_scalar hs, ← Signature.val_scalar hs', hequal]

open Transaction (unitSignature unitDigest digest_unitDraft signDigest_unit)
open Signer (unitSigner unitMessage)

theorem unit_passes : Passes DomainHash.keccak generatorKey unitMessage unitSignature.r unitSignature.s := by
  have hdigest : unitSigner.hash unitMessage = unitDigest := digest_unitDraft
  have hsign : (unitSigner.sign unitMessage).result = .ok unitSignature := by
    rw [Signer.sign, hdigest]
    exact signDigest_unit
  have haccepted : verifyMessage DomainHash.keccak generatorKey unitMessage unitSignature = pure true :=
    Signer.verifyMessage_of_sign hsign point_unitPair.symm
  exact ⟨27, unitSignature, Signature.make_eq_ok.2 (by decide), .inl (congrArg Traced.value haccepted)⟩

theorem unit_passes_unique :
    generatorKey.Valid ∧ prime - order ≤ unitSignature.r.toNat ∧
      Passes DomainHash.keccak generatorKey unitMessage unitSignature.r unitSignature.s ∧
      ∀ s, Passes DomainHash.keccak generatorKey unitMessage unitSignature.r s → s = unitSignature.s := by
  have hkey := generatorKey_valid
  have hr : prime - order ≤ unitSignature.r.toNat := by decide
  exact ⟨hkey, hr, unit_passes, fun s h => passes_unique _ _ _ _ s unitSignature.s hkey hr h unit_passes⟩

end Passes
end Wallet
