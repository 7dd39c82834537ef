import Wallet.Event
import Wallet.Key.Pair
import Wallet.Signature.Recovery

/-! Signing and verification of messages under a domain hash. A signer holds a whole key pair, since
it finds the indicator of a signature by trying which candidate is its own public key. Verification
never fails: a signature that is not canonical is false like a wrong one, and is reported. -/

namespace Wallet

/-- Whether a signature is canonical and holds for a message under a key. -/
def verifyMessage (hash : DomainHash) (key : PublicKey) (message : Bytes) (σ : Signature) : Traced Bool := do
  if !σ.isCanonical then
    Traced.emit (.nonCanonicalSignature σ.s)
    return false
  match σ.scalars with
  | .error _ => return false
  | .ok (r, s) => return Ecdsa.verify key.point (Ecdsa.challenge (hash message)) r s

structure Signer where
  pair : KeyPair
  hash : DomainHash := DomainHash.keccak

namespace Signer

/-- Recovery ids that are tried. -/
def candidates : Nat := Ecdsa.RecoveryId.all.length

/-- The recovery id at which `r` and `s` give back the signer's key. -/
def recoveryId? (signer : Signer) (digest : Digest) (r s : Curve.Scalar) : Option Ecdsa.RecoveryId :=
  Ecdsa.RecoveryId.all.find? fun id =>
    Ecdsa.recover? (Ecdsa.challenge digest) r s id == some signer.pair.publicKey.point

/-- Signs a digest. The signature is canonical and knows its recovery id; the two ids of a nonce
point with an abscissa above the order have no indicator and are refused. -/
def signDigest (signer : Signer) (digest : Digest) (tries : Nat := Ecdsa.nonceTries) :
    Reporting SignatureError Signature := do
  let some (r, s) := Ecdsa.sign signer.pair.privateKey.scalar digest tries | throw .signingFailed
  let raw ← Reporting.silent (Signature.ofScalars r s 0)
  let canonical := raw.toCanonical
  let (r, s) ← Reporting.silent canonical.scalars
  match signer.recoveryId? digest r s with
  | some id =>
    Reporting.emit (.recoveryIdSelected id.toByte)
    Reporting.silent (Signature.make canonical.r canonical.s (id.toByte + Signature.lowestV))
  | none =>
    Reporting.emit (.recoveryIdMissing signer.pair.publicKey)
    throw .recoveryIdNotFound

def sign (signer : Signer) (message : Bytes) : Reporting SignatureError Signature :=
  signer.signDigest (signer.hash message)

def verify (signer : Signer) (message : Bytes) (σ : Signature) : Traced Bool :=
  verifyMessage signer.hash signer.pair.publicKey message σ

end Signer

/-- Checks signatures against a public key. -/
structure Verifier where
  key : PublicKey
  hash : DomainHash := DomainHash.keccak

def Verifier.verify (verifier : Verifier) (message : Bytes) (σ : Signature) : Traced Bool :=
  verifyMessage verifier.hash verifier.key message σ

end Wallet
