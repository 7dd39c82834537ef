import Wallet.Key.Pair
import Wallet.Proofs.Curve.Addition
import Wallet.Proofs.Curve.Encoding

/-! The points of keys: they are on the curve, none of them is infinity, and they are read back from
their uncompressed form. The point of a private key is the generator added up so many times, no other private
key has it, and every point but infinity is that of one. -/

namespace Wallet

namespace Curve.Point

theorem head?_encode_uncompressed {p : Point} (h : p ≠ infinity) :
    (p.encode .uncompressed).head? = some uncompressedTag := by
  cases p with
  | infinity => exact absurd rfl h
  | affine x y => rfl

end Curve.Point

namespace PublicKey

variable {key : PublicKey}

theorem uncompressedBytes_congr {other : PublicKey} (h : other.point = key.point) :
    other.uncompressedBytes = key.uncompressedBytes := by
  unfold uncompressedBytes uncompressed
  rw [h]

theorem length_uncompressedBytes (h : key.point ≠ .infinity) :
    key.uncompressedBytes.length = Curve.Form.uncompressed.size :=
  Curve.Point.length_encode h .uncompressed

theorem head?_uncompressedBytes (h : key.point ≠ .infinity) :
    key.uncompressedBytes.head? = some Curve.uncompressedTag :=
  Curve.Point.head?_encode_uncompressed h

theorem ofBytes_encode {p : Curve.Point} (hcurve : p.OnCurve) (hne : p ≠ .infinity) :
    ofBytes (p.encode .uncompressed) = .ok ⟨.uncompressed, p⟩ :=
  ofBytes_eq_ok.2 ⟨valid_of_onCurve hcurve hne nofun, rfl⟩

theorem ofBytes_uncompressedBytes (h : key.Valid) : ofBytes key.uncompressedBytes = .ok key.uncompressed :=
  ofBytes_bytes h.uncompressed

end PublicKey

namespace PrivateKey

theorem scalar_inj {a b : PrivateKey} : a.scalar = b.scalar ↔ a = b := by
  rw [PrivateKey.mk.injEq]

theorem publicPoint_onCurve (key : PrivateKey) : key.publicPoint.OnCurve :=
  Curve.Point.mul_onCurve _ Curve.Point.generator_onCurve

theorem scalar_one_ne_zero : (1 : Curve.Scalar) ≠ 0 := by decide

theorem publicPoint_of_one {key : PrivateKey} (h : key.scalar = 1) : key.publicPoint = .generator := by
  rw [publicPoint, h, Curve.Point.one_mul Curve.Point.generator_onCurve]

theorem publicPoint_ne_infinity (key : PrivateKey) : key.publicPoint ≠ .infinity :=
  Curve.Point.mul_generator_ne_infinity key.nonzero

theorem publicPoint_eq_times (key : PrivateKey) :
    key.publicPoint = Curve.Point.times key.scalar.val .generator :=
  Curve.Point.mul_eq_times Curve.Point.generator_onCurve key.scalar

theorem publicPoint_injective : Function.Injective publicPoint :=
  fun _ _ h => scalar_inj.1 (Curve.Point.mul_generator_injective h)

theorem exists_publicPoint {p : Curve.Point} (hcurve : p.OnCurve) (hne : p ≠ .infinity) :
    ∃ key : PrivateKey, key.publicPoint = p := by
  obtain ⟨k, rfl⟩ := Curve.Point.exists_mul_generator hcurve
  refine ⟨⟨k, ?_⟩, rfl⟩
  rintro rfl
  exact hne (Curve.Point.mul_eq_times Curve.Point.generator_onCurve 0)

end PrivateKey

namespace KeyPair

theorem publicKey_onCurve (pair : KeyPair) : pair.publicKey.point.OnCurve := by
  rw [pair.point_eq]
  exact pair.privateKey.publicPoint_onCurve

theorem publicKey_ne_infinity (pair : KeyPair) : pair.publicKey.point ≠ .infinity := by
  rw [pair.point_eq]
  exact pair.privateKey.publicPoint_ne_infinity

theorem publicKey_valid (pair : KeyPair) (hform : pair.publicKey.form ≠ .compact) : pair.publicKey.Valid :=
  PublicKey.valid_of_onCurve pair.publicKey_onCurve pair.publicKey_ne_infinity hform

end KeyPair

/-- The public key of the private key 1, whose point is the generator. -/
def generatorKey : PublicKey := ⟨.uncompressed, .generator⟩

theorem generatorKey_valid : generatorKey.Valid :=
  PublicKey.valid_of_onCurve Curve.Point.generator_onCurve nofun nofun

end Wallet
