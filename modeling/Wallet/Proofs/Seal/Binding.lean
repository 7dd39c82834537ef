import Wallet.Proofs.Curve.Addition
import Wallet.Proofs.Seal

/-! To which keys a seal is bound. The embedded point is not under the tag, and of the point that the two
sides share only the abscissa enters the keys. So a seal is bound to its keys up to their sign: the opposite
of the embedded point, or of the recipient's private key, gives the opposite of the shared point and hence
the same keys, and what is opened is the same (`decrypt_opposite_point`, `decrypt_opposite_key`). Every other
point and every other private key gives another abscissa (`agreement_eq_iff_point`, `agreement_eq_iff_key`),
and is refused unless the tag is the same under the keys of both. Main statement:
`bound_up_to_opposites`. -/

namespace Wallet

open Curve

theorem Curve.Coord.toBytes_injective : Function.Injective Coord.toBytes := by
  intro a b h
  have hread := congrArg Coord.ofBytes? h
  rwa [Coord.ofBytes?_toBytes, Coord.ofBytes?_toBytes, Option.some.injEq] at hread

/-- The private key of the opposite point. -/
def PrivateKey.opposite (key : PrivateKey) : PrivateKey where
  scalar := -key.scalar
  nonzero := by
    rw [← Scalar.residue_ne_zero, Scalar.residue_neg, neg_ne_zero, Scalar.residue_ne_zero]
    exact key.nonzero

theorem PublicKey.Valid.exists_ofGroup {key : PublicKey} (h : key.Valid) :
    ∃ P ≠ 0, key.point = Point.ofGroup P := by
  obtain ⟨P, hP⟩ := Point.exists_ofGroup h.onCurve
  refine ⟨P, fun hzero => h.ne_infinity ?_, hP.symm⟩
  rw [← hP, Point.ofGroup_eq_infinity, hzero]

/-- The uncompressed key of the opposite point. -/
def PublicKey.opposite (key : PublicKey) : PublicKey := ⟨.uncompressed, key.point.neg⟩

theorem PublicKey.Valid.opposite {key : PublicKey} (h : key.Valid) : key.opposite.Valid := by
  obtain ⟨P, hP, hpoint⟩ := h.exists_ofGroup
  have hneg : key.opposite.point = Point.ofGroup (-P) := by rw [PublicKey.opposite, hpoint, Point.neg_ofGroup]
  refine PublicKey.valid_of_onCurve ?_ ?_ nofun <;> rw [hneg]
  · exact Point.ofGroup_onCurve _
  · rw [Ne, Point.ofGroup_eq_infinity, neg_eq_zero]
    exact hP

namespace Seal

/-! The shared abscissa -/

/-- What of a shared point enters the keys. -/
def shared : Point → Bytes
  | .infinity => List.replicate 32 0
  | .affine x _ => x.toBytes

theorem agreement_eq_shared (own : PrivateKey) (peer : PublicKey) :
    agreement own peer = shared (Point.mul own.scalar peer.point) := rfl

/-- The keys of a shared abscissa. -/
def keysOf (abscissa : Bytes) : Keys :=
  let material := (Sha256.digest ([0, 0, 0, 1] ++ abscissa)).toList
  ⟨material.take cipherKeySize, (Sha256.digest ((material.drop cipherKeySize).take macKeySize)).toList⟩

theorem deriveKeys_eq (own : PrivateKey) (peer : PublicKey) : deriveKeys own peer = keysOf (agreement own peer) := rfl

theorem shared_neg (p : Point) : shared p.neg = shared p := by
  cases p <;> rfl

/-- Points other than infinity with the same abscissa are equal or opposite. -/
theorem shared_eq_iff {P Q : weierstrass.Point} (hP : P ≠ 0) (hQ : Q ≠ 0) :
    shared (Point.ofGroup P) = shared (Point.ofGroup Q) ↔ P = Q ∨ P = -Q := by
  constructor
  · intro h
    cases hp : Point.ofGroup P with
    | infinity => exact absurd (Point.ofGroup_eq_infinity.1 hp) hP
    | affine x y =>
      cases hq : Point.ofGroup Q with
      | infinity => exact absurd (Point.ofGroup_eq_infinity.1 hq) hQ
      | affine x' y' =>
        rw [hp, hq] at h
        obtain rfl := Coord.toBytes_injective h
        exact Point.eq_or_eq_neg_of_abscissa hp hq
  · rintro (rfl | rfl)
    · rfl
    · rw [← Point.neg_ofGroup, shared_neg]

theorem agreement_ofGroup (own : PrivateKey) {peer : PublicKey} {P : weierstrass.Point}
    (h : peer.point = Point.ofGroup P) :
    agreement own peer = shared (Point.ofGroup (Scalar.residue own.scalar • P)) := by
  rw [agreement_eq_shared, h, Point.mul_ofGroup_smul]

section Agreement

variable {peer embedded : PublicKey}

theorem agreement_eq_iff_point (key : PrivateKey) (hpeer : peer.Valid) (hembedded : embedded.Valid) :
    agreement key embedded = agreement key peer ↔
      embedded.point = peer.point ∨ embedded.point = peer.point.neg := by
  obtain ⟨P, hP, hpoint⟩ := hpeer.exists_ofGroup
  obtain ⟨Q, hQ, hpoint'⟩ := hembedded.exists_ofGroup
  have hkey : Scalar.residue key.scalar ≠ 0 := Scalar.residue_ne_zero.2 key.nonzero
  rw [agreement_ofGroup key hpoint, agreement_ofGroup key hpoint',
    shared_eq_iff (smul_ne_zero hkey hQ) (smul_ne_zero hkey hP), hpoint, hpoint', Point.neg_ofGroup,
    Point.ofGroup_injective.eq_iff, Point.ofGroup_injective.eq_iff, ← smul_neg,
    (smul_right_injective _ hkey).eq_iff, (smul_right_injective _ hkey).eq_iff]

theorem agreement_eq_iff_key (key other : PrivateKey) (hpeer : peer.Valid) :
    agreement other peer = agreement key peer ↔ other = key ∨ other = key.opposite := by
  obtain ⟨P, hP, hpoint⟩ := hpeer.exists_ofGroup
  have hne (key : PrivateKey) : Scalar.residue key.scalar • P ≠ 0 :=
    smul_ne_zero (Scalar.residue_ne_zero.2 key.nonzero) hP
  rw [agreement_ofGroup key hpoint, agreement_ofGroup other hpoint, shared_eq_iff (hne other) (hne key),
    ← neg_smul, (smul_left_injective _ hP).eq_iff, (smul_left_injective _ hP).eq_iff, ← Scalar.residue_neg,
    Scalar.residue_inj, Scalar.residue_inj, ← PrivateKey.scalar_inj, ← PrivateKey.scalar_inj]
  rfl

end Agreement

/-! Opposites open the same -/

theorem deriveKeys_opposite_point (key : PrivateKey) {peer : PublicKey} (h : peer.Valid) :
    deriveKeys key peer.opposite = deriveKeys key peer := by
  rw [deriveKeys_eq, (agreement_eq_iff_point key h h.opposite).2 (.inr rfl), deriveKeys_eq]

theorem deriveKeys_opposite_key (key : PrivateKey) {peer : PublicKey} (h : peer.Valid) :
    deriveKeys key.opposite peer = deriveKeys key peer := by
  rw [deriveKeys_eq, (agreement_eq_iff_key key key.opposite h).2 (.inr rfl), deriveKeys_eq]

/-- What is opened with a private key is opened with the opposite one. -/
theorem decrypt_opposite_key (key : PrivateKey) (blob : Bytes) :
    (decrypt key.opposite blob).result = (decrypt key blob).result := by
  rw [result_decrypt, result_decrypt]
  cases hread : PublicKey.ofBytes (cut blob).embedded with
  | error e => rfl
  | ok sender => simp only [deriveKeys_opposite_key key (PublicKey.valid_of_ofBytes hread)]

theorem cut_embedded {embedded : Bytes} (h : embedded.length = Form.uncompressed.size) (body : Bytes) :
    cut (embedded ++ body) =
      { embedded
        iv := body.take ivSize
        ciphertext := (body.drop ivSize).take ((body.drop ivSize).length - tagSize)
        given := (body.drop ivSize).drop ((body.drop ivSize).length - tagSize) } := by
  simp only [cut, List.take_left' h, List.drop_left' h]

/-- What is opened behind a point is opened behind the opposite one. -/
theorem decrypt_opposite_point (key : PrivateKey) {embedded : PublicKey} (h : embedded.Valid) (body : Bytes) :
    (decrypt key (embedded.opposite.uncompressedBytes ++ body)).result =
      (decrypt key (embedded.uncompressedBytes ++ body)).result := by
  have hlength := PublicKey.length_uncompressedBytes h.ne_infinity
  have hlength' := PublicKey.length_uncompressedBytes h.opposite.ne_infinity
  have hkeys : deriveKeys key embedded.opposite.uncompressed = deriveKeys key embedded.uncompressed :=
    deriveKeys_opposite_point key h
  rw [result_decrypt, result_decrypt, cut_embedded hlength, cut_embedded hlength', List.length_append,
    List.length_append, hlength, hlength', PublicKey.head?_uncompressedBytes h.ne_infinity,
    PublicKey.head?_uncompressedBytes h.opposite.ne_infinity,
    PublicKey.ofBytes_uncompressedBytes h, PublicKey.ofBytes_uncompressedBytes h.opposite]
  simp only [hkeys]

/-! The seal of a text -/

/-- What stands behind the embedded key in a seal that was made with a shared abscissa. -/
def body (abscissa iv ciphertext : Bytes) : Bytes := iv ++ ciphertext ++ tag (keysOf abscissa) iv ciphertext

variable {iv : Bytes}

theorem result_decrypt_body (key : PrivateKey) {embedded : PublicKey} (h : embedded.Valid)
    (hiv : iv.length = ivSize) (abscissa ciphertext : Bytes) :
    (decrypt key (embedded.uncompressedBytes ++ body abscissa iv ciphertext)).result =
      if tag (keysOf (agreement key embedded)) iv ciphertext ≠ tag (keysOf abscissa) iv ciphertext then
        .error .tagMismatch
      else applyStream (deriveKeys key embedded) iv ciphertext := by
  rw [body, ← List.append_assoc, ← List.append_assoc]
  exact result_decrypt_frame key h hiv ciphertext (length_tag _ iv ciphertext)

/-- Whoever computes another abscissa than the one that a seal was made with is refused, unless the tag is the
same under the keys of both. -/
structure Separated (key : PrivateKey) (embedded : PublicKey) (abscissa iv ciphertext : Bytes) : Prop where
  agreement_ne : agreement key embedded ≠ abscissa
  refused_iff : (decrypt key (embedded.uncompressedBytes ++ body abscissa iv ciphertext)).result =
      .error .tagMismatch ↔
    tag (keysOf (agreement key embedded)) iv ciphertext ≠ tag (keysOf abscissa) iv ciphertext

theorem separated (key : PrivateKey) {embedded : PublicKey} (h : embedded.Valid) (hiv : iv.length = ivSize)
    {abscissa : Bytes} (hne : agreement key embedded ≠ abscissa) (ciphertext : Bytes) :
    Separated key embedded abscissa iv ciphertext := by
  refine ⟨hne, ?_⟩
  rw [result_decrypt_body key h hiv]
  split
  · rename_i hdiffer
    exact iff_of_true rfl hdiffer
  · rename_i hequal
    obtain ⟨out, hout, -⟩ := applyStream_twice key embedded hiv ciphertext
    rw [hout]
    exact iff_of_false nofun hequal

/-- The seal of a text is opened by the recipient behind the sender's point and its opposite, and by the
recipient's private key and its opposite. Behind every other point, and by every other private key, it is
refused unless two tags collide. -/
theorem bound_up_to_opposites (sender : PrivateKey) (recipient : KeyPair) (plaintext : Bytes) (tape : Tape) :
    let peer := (KeyPair.ofPrivate sender).publicKey
    let abscissa := agreement recipient.privateKey peer
    let iv := tape.take 16
    ∃ ciphertext,
      encrypt sender recipient.publicKey plaintext tape =
        (.ok (peer.uncompressedBytes ++ body abscissa iv ciphertext), tape.advance 16) ∧
      (∀ embedded : PublicKey, embedded.Valid →
        (embedded.point = peer.point ∨ embedded.point = peer.point.neg →
          (decrypt recipient.privateKey (embedded.uncompressedBytes ++ body abscissa iv ciphertext)).result =
            .ok plaintext) ∧
        (¬(embedded.point = peer.point ∨ embedded.point = peer.point.neg) →
          Separated recipient.privateKey embedded abscissa iv ciphertext)) ∧
      ∀ key : PrivateKey,
        (key = recipient.privateKey ∨ key = recipient.privateKey.opposite →
          (decrypt key (peer.uncompressedBytes ++ body abscissa iv ciphertext)).result = .ok plaintext) ∧
        (¬(key = recipient.privateKey ∨ key = recipient.privateKey.opposite) →
          Separated key peer abscissa iv ciphertext) := by
  intro peer abscissa iv
  have hiv : iv.length = ivSize := tape.length_take ivSize
  have hpeer : peer.Valid := (KeyPair.ofPrivate sender).publicKey_valid nofun
  have hkeys : deriveKeys sender recipient.publicKey = keysOf abscissa := deriveKeys_comm rfl recipient.point_eq
  obtain ⟨ciphertext, -, htake, hcreate⟩ := create_eq_ok sender recipient.publicKey hiv plaintext
  -- whoever computes the sealer's abscissa has the sealer's keys
  have hopens (key : PrivateKey) {embedded : PublicKey} (h : embedded.Valid)
      (hequal : agreement key embedded = abscissa) :
      (decrypt key (embedded.uncompressedBytes ++ body abscissa iv ciphertext)).result = .ok plaintext := by
    rw [result_decrypt_body key h hiv, hequal, if_neg (not_not.2 rfl), deriveKeys_eq, hequal, ← hkeys]
    exact htake
  refine ⟨ciphertext, Prod.ext ?_ rfl, fun embedded hembedded => ?_, fun key => ?_⟩
  · rw [hkeys, List.append_assoc, List.append_assoc, ← List.append_assoc iv] at hcreate
    exact hcreate
  · have hequal := agreement_eq_iff_point recipient.privateKey hpeer hembedded
    exact ⟨fun h => hopens _ hembedded (hequal.2 h), fun h => separated _ hembedded hiv (mt hequal.1 h) ciphertext⟩
  · have hequal := agreement_eq_iff_key recipient.privateKey key hpeer
    exact ⟨fun h => hopens _ hpeer (hequal.2 h), fun h => separated _ hpeer hiv (mt hequal.1 h) ciphertext⟩

section Unit

def one : PrivateKey := ⟨1, PrivateKey.scalar_one_ne_zero⟩

def twoPair : KeyPair := .ofPrivate ⟨2, by decide⟩

def secretText : Bytes := [0x73, 0x65, 0x63, 0x72, 0x65, 0x74]

def countingTape : Tape := .ofBytes [0, 1, 2, 3, 4, 5, 6, 7, 8, 9, 10, 11, 12, 13, 14, 15]

theorem point_one : (KeyPair.ofPrivate one).publicKey.point = generatorKey.point :=
  (KeyPair.ofPrivate one).point_eq.trans (PrivateKey.publicPoint_of_one rfl)

theorem uncompressedBytes_one :
    (KeyPair.ofPrivate one).publicKey.uncompressedBytes = generatorKey.uncompressedBytes :=
  PublicKey.uncompressedBytes_congr point_one

theorem unit_bound_up_to_opposites :
    generatorKey.opposite.Valid ∧
      ∃ rest, (encrypt one twoPair.publicKey secretText countingTape).1 =
          .ok (generatorKey.uncompressedBytes ++ rest) ∧
        (decrypt twoPair.privateKey (generatorKey.opposite.uncompressedBytes ++ rest)).result = .ok secretText := by
  have hvalid := generatorKey_valid.opposite
  have hopposite : generatorKey.opposite.point = (KeyPair.ofPrivate one).publicKey.point ∨
      generatorKey.opposite.point = (KeyPair.ofPrivate one).publicKey.point.neg := by
    right
    rw [point_one, PublicKey.opposite]
  obtain ⟨ciphertext, hencrypt, hpoints, -⟩ := bound_up_to_opposites one twoPair secretText countingTape
  refine ⟨hvalid, body _ _ ciphertext, ?_, (hpoints generatorKey.opposite hvalid).1 hopposite⟩
  rw [hencrypt, uncompressedBytes_one]

/-- A seal from the key 1 to the key 2 that the recipient also opens behind another point, the opposite of the
generator, and that another private key opens too, the opposite of 2. -/
theorem opened_by_other_keys :
    ∃ rest, (encrypt one twoPair.publicKey secretText countingTape).1 =
        .ok (generatorKey.uncompressedBytes ++ rest) ∧
      (generatorKey.opposite.Valid ∧ generatorKey.opposite.uncompressedBytes ≠ generatorKey.uncompressedBytes ∧
        (decrypt twoPair.privateKey (generatorKey.opposite.uncompressedBytes ++ rest)).result = .ok secretText) ∧
      twoPair.privateKey.opposite ≠ twoPair.privateKey ∧
      (decrypt twoPair.privateKey.opposite (generatorKey.uncompressedBytes ++ rest)).result = .ok secretText := by
  have hiv : (countingTape.take ivSize).length = ivSize := Tape.length_take _ ivSize
  obtain ⟨blob, hcreate, hcarries⟩ := create_carries one twoPair hiv secretText
  have hembedded : blob.take 65 = generatorKey.uncompressedBytes := by
    rw [hcarries.embedded_eq, ← uncompressedBytes_one]
  have hblob : blob = generatorKey.uncompressedBytes ++ blob.drop 65 := by
    rw [← hembedded, List.take_append_drop]
  have hopens := hcarries.opens
  rw [hblob] at hopens
  refine ⟨blob.drop 65, ?_, ⟨generatorKey_valid.opposite, by decide, ?_⟩, by decide, ?_⟩
  · rw [← hblob]
    exact hcreate
  · rw [decrypt_opposite_point _ generatorKey_valid, hopens]
  · rw [decrypt_opposite_key, hopens]

end Unit

end Seal
end Wallet
