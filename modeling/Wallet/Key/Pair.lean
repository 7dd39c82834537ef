import Wallet.Key.Private
import Wallet.Key.Public

/-! Key pairs: a private key and a public key of its point, in any form. -/

namespace Wallet

structure KeyPair where
  privateKey : PrivateKey
  publicKey : PublicKey
  point_eq : publicKey.point = privateKey.publicPoint

namespace KeyPair

/-- The pair of two keys that belong together; the public one is kept as given. -/
def ofKeys (privateKey : PrivateKey) (publicKey : PublicKey) : Except KeyError KeyPair :=
  if h : publicKey.point = privateKey.publicPoint then .ok ⟨privateKey, publicKey, h⟩ else .error .mismatch

/-- The pair of a private key and its compressed public key. -/
def ofPrivate (privateKey : PrivateKey) : KeyPair :=
  ⟨privateKey, ⟨.compressed, privateKey.publicPoint⟩, rfl⟩

/-- Pairs are compared by their public keys. -/
instance : BEq KeyPair := ⟨fun a b => a.publicKey == b.publicKey⟩

def debug (pair : KeyPair) : String := s!"KeyPair(pub={pair.publicKey.hex})"

end KeyPair
end Wallet
