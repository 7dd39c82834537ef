import Wallet.Key.Public
import Wallet.Signature.Basic

/-! The public key behind a signature whose indicator is known. -/

namespace Wallet

/-- The key under which `σ` holds for the digest, uncompressed. -/
def recoverPublicKey (digest : Digest) (σ : Signature) : Except SignatureError PublicKey := do
  let some byte := σ.recoveryByte? | throw (.invalidV σ.v)
  let some id := Ecdsa.RecoveryId.ofByte? byte | throw (.invalidV σ.v)
  let (r, s) ← σ.scalars
  let some point := Ecdsa.recover? (Ecdsa.challenge digest) r s id | throw .recoveryFailed
  (PublicKey.ofBytes (point.encode .uncompressed)).mapError .key

end Wallet
