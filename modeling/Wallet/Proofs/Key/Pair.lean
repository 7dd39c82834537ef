import Wallet.Key.Generator
import Wallet.Proofs.Key.Form
import Wallet.Proofs.Signature.Signing

/-! Key pairs are compared by their public keys alone. The point of a public key in a pair is the one of its private
key, which no other private key has, so that equal pairs have the same private key and sign alike
(`beq_iff_privateKey`). Pairs of one private key differ in the form of the public key at most. Main statement:
`comparison_is_sound`. -/

namespace Wallet.KeyPair

/-- The pairs that the library makes: of two keys that belong together, of a private key, and fresh ones. -/
inductive Made : KeyPair → Prop
  | ofKeys {privateKey : PrivateKey} {bs : Bytes} {publicKey : PublicKey} {pair : KeyPair}
      (hread : PublicKey.ofBytes bs = .ok publicKey) (h : KeyPair.ofKeys privateKey publicKey = .ok pair) : Made pair
  | ofPrivate (privateKey : PrivateKey) : Made (.ofPrivate privateKey)
  | generated (g : KeyGenerator) : Made g.generate.value.1

variable {a b pair : KeyPair}

theorem valid_ofPrivate (privateKey : PrivateKey) : (ofPrivate privateKey).publicKey.Valid :=
  publicKey_valid _ nofun

/-- Every way to make a pair gives it a public key that was read or derived. -/
theorem Made.valid (h : Made pair) : pair.publicKey.Valid := by
  cases h with
  | ofKeys hread h =>
    rw [(ofKeys_eq_ok.1 h).2]
    exact PublicKey.valid_of_ofBytes hread
  | ofPrivate privateKey => exact valid_ofPrivate privateKey
  | generated g => exact valid_ofPrivate g.tape.drawKey.1

theorem point_eq_times (pair : KeyPair) :
    pair.publicKey.point = Curve.Point.times pair.privateKey.scalar.val .generator := by
  rw [pair.point_eq, PrivateKey.publicPoint_eq_times]

theorem point_eq_iff : a.publicKey.point = b.publicKey.point ↔ a.privateKey = b.privateKey := by
  rw [a.point_eq, b.point_eq, PrivateKey.publicPoint_injective.eq_iff]

theorem beq_iff_bytes (ha : a.publicKey.Valid) (hb : b.publicKey.Valid) :
    (a == b) = true ↔ a.publicKey.bytes = b.publicKey.bytes := by
  rw [beq_iff]
  constructor
  · exact congrArg PublicKey.bytes
  · intro h
    have hread := PublicKey.ofBytes_bytes ha
    rw [h, PublicKey.ofBytes_bytes hb, Except.ok.injEq] at hread
    exact hread.symm

/-- Equal public keys belong to one private key, and in one form a private key has one public key. -/
theorem beq_iff_privateKey :
    (a == b) = true ↔ a.privateKey = b.privateKey ∧ a.publicKey.form = b.publicKey.form := by
  rw [beq_iff, ← point_eq_iff]
  constructor
  · intro h
    rw [h]
    exact ⟨rfl, rfl⟩
  · rintro ⟨hpoint, hform⟩
    exact (PublicKey.eq_iff_form_eq hpoint).2 hform

theorem eq_of_beq (h : (a == b) = true) : a = b := by
  obtain ⟨hprivate, -⟩ := beq_iff_privateKey.1 h
  have hpublic := beq_iff.1 h
  obtain ⟨privateKey, publicKey, hpoint⟩ := a
  cases hprivate
  cases hpublic
  rfl

/-- The public key of a pair is the generator added up as often as the private key says. Pairs are equal if the bytes of
their public keys are, which is if they have the same private key and the same form of the public key. Equal pairs
sign every digest and message to the same outcome with the same events, and pairs of one private key to the same
outcome. -/
theorem comparison_is_sound (a b : KeyPair) (ha : Made a) (hb : Made b) :
    a.publicKey.point = Curve.Point.times a.privateKey.scalar.val .generator ∧
    b.publicKey.point = Curve.Point.times b.privateKey.scalar.val .generator ∧
    ((a == b) = true ↔ a.publicKey.bytes = b.publicKey.bytes) ∧
    ((a == b) = true ↔ a.privateKey = b.privateKey ∧ a.publicKey.form = b.publicKey.form) ∧
    ((a == b) = true → ∀ hash digest message,
      Signer.signDigest ⟨a, hash⟩ digest = Signer.signDigest ⟨b, hash⟩ digest ∧
      Signer.sign ⟨a, hash⟩ message = Signer.sign ⟨b, hash⟩ message) ∧
    (a.privateKey = b.privateKey → ∀ hash digest message,
      (Signer.signDigest ⟨a, hash⟩ digest).result = (Signer.signDigest ⟨b, hash⟩ digest).result ∧
      (Signer.sign ⟨a, hash⟩ message).result = (Signer.sign ⟨b, hash⟩ message).result) := by
  refine ⟨a.point_eq_times, b.point_eq_times, beq_iff_bytes ha.valid hb.valid, beq_iff_privateKey, ?_, ?_⟩
  · intro h hash digest message
    rw [eq_of_beq h]
    exact ⟨rfl, rfl⟩
  · intro h hash digest message
    exact ⟨Signer.result_signDigest_congr h, Signer.result_signDigest_congr h⟩

/-- The private key 1 with the uncompressed form of its point. -/
def wideOne : KeyPair :=
  ⟨⟨1, PrivateKey.scalar_one_ne_zero⟩, generatorKey, (PrivateKey.publicPoint_of_one rfl).symm⟩

theorem made_wideOne : Made wideOne :=
  .ofKeys (PublicKey.ofBytes_bytes generatorKey_valid) (ofKeys_eq_ok.2 ⟨rfl, rfl⟩)

/-- It is not the pair that is derived from its private key, but signs as that does. -/
theorem wideOne_compared :
    let derived : KeyPair := .ofPrivate wideOne.privateKey
    Made wideOne ∧ Made derived ∧ ¬(wideOne == derived) = true ∧
      ∀ hash message, (Signer.sign ⟨wideOne, hash⟩ message).result = (Signer.sign ⟨derived, hash⟩ message).result := by
  intro derived
  have hderived : Made derived := .ofPrivate wideOne.privateKey
  obtain ⟨-, -, -, hequal, -, hsign⟩ := comparison_is_sound wideOne derived made_wideOne hderived
  refine ⟨made_wideOne, hderived, fun h => ?_, fun hash message => ?_⟩
  · exact absurd (hequal.1 h).2 nofun
  · exact (hsign rfl hash (hash message) message).2

end Wallet.KeyPair
