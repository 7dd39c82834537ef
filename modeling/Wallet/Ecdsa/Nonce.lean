import Wallet.Curve.Field
import Wallet.Hash.Hmac

/-! The nonce of a signature, determined by the secret and the digest alone: a generator built on
keyed tags yields candidates of 32 bytes, and the first that is a nonzero scalar is taken. -/

namespace Wallet.Ecdsa

/-- The generator of candidates. Both halves are tags, and each new tag depends on both. -/
structure NonceSource where
  key : Bytes
  value : Bytes

namespace NonceSource

/-- A new key from the old one, the value, a marker and further bytes; then a new value. -/
def stir (g : NonceSource) (marker : UInt8) (extra : Bytes) : NonceSource :=
  let key := (Hmac.tag g.key (g.value ++ marker :: extra)).toList
  ⟨key, (Hmac.tag key g.value).toList⟩

def seed (secret digest : Bytes) : NonceSource :=
  let blank : NonceSource := ⟨List.replicate 32 0x00, List.replicate 32 0x01⟩
  (blank.stir 0x00 (secret ++ digest)).stir 0x01 (secret ++ digest)

/-- The value behind the current one: the next candidate. -/
def next (g : NonceSource) : NonceSource := ⟨g.key, (Hmac.tag g.key g.value).toList⟩

/-- The first nonzero scalar among so many candidates. -/
def search : Nat → NonceSource → Option Curve.Scalar
  | 0, _ => none
  | tries + 1, g =>
    let g := g.next
    let n := Bytes.toNat g.value
    if h : 0 < n ∧ n < Curve.order then some ⟨n, h.2⟩ else search tries (g.stir 0x00 [])

end NonceSource

/-- Candidates looked at before signing is given up, if no other number is given. All but one in `2 ^ 127` are
scalars. -/
def nonceTries : Nat := 64

def nonce? (secret : Curve.Scalar) (digest : Digest) (tries : Nat := nonceTries) : Option Curve.Scalar :=
  (NonceSource.seed secret.toBytes digest.toList).search tries

end Wallet.Ecdsa
