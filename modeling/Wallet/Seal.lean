import Wallet.Cipher.Counter
import Wallet.Event
import Wallet.Hash.Hmac
import Wallet.Key.Pair
import Wallet.Tape

/-! Sealed messages from one key to another: the sender's uncompressed public key, an initial
counter, the encrypted text and a tag over the counter and that text. The keys of cipher and tag come
from the point that either side can compute. Opening fails closed: the tag is checked first. -/

namespace Wallet

inductive SealError
  | tooShort (available required : Nat)
  | invalidSender
  | tagMismatch
  | cipherSetup
  deriving DecidableEq, Repr

def SealError.message : SealError → String
  | .tooShort available required =>
    s!"ciphertext too short: {available} bytes available, at least {required} required"
  | .invalidSender => "embedded public key is not a valid uncompressed secp256k1 point"
  | .tagMismatch => "authentication failed: wrong key or corrupted ciphertext"
  | .cipherSetup => "cipher initialization failed"

namespace Seal

def cipherKeySize : Nat := 16

/-- Bytes of the shared secret's hash that enter the key of the tag. -/
def macKeySize : Nat := 16

def ivSize : Nat := 16
def tagSize : Nat := 32

/-- By how much a seal is longer than its text. -/
def overhead : Nat := Curve.Form.uncompressed.size + ivSize + tagSize

structure Keys where
  cipher : Bytes
  mac : Bytes
  deriving DecidableEq, Repr

/-- The abscissa that the two keys share. -/
def agreement (own : PrivateKey) (peer : PublicKey) : Bytes :=
  match Curve.Point.mul own.scalar peer.point with
  | .infinity => List.replicate 32 0
  | .affine x _ => x.toBytes

/-- One half of the hash of the shared secret is the cipher key, the hash of the other the tag key. -/
def deriveKeys (own : PrivateKey) (peer : PublicKey) : Keys :=
  let material := (Sha256.digest ([0, 0, 0, 1] ++ agreement own peer)).toList
  ⟨material.take cipherKeySize, (Sha256.digest ((material.drop cipherKeySize).take macKeySize)).toList⟩

/-- Puts the key stream on a text, or takes it off. -/
def applyStream (keys : Keys) (iv text : Bytes) : Except SealError Bytes :=
  if h : keys.cipher.length = 16 ∧ iv.length = 16 then
    .ok (Counter.apply (keys.cipher.toVector h.1) (iv.toVector h.2) text)
  else .error .cipherSetup

def tag (keys : Keys) (iv ciphertext : Bytes) : Bytes := (Hmac.tag keys.mac (iv ++ ciphertext)).toList

/-- The seal of a text under a given initial counter. -/
def create (sender : PrivateKey) (recipient : PublicKey) (iv plaintext : Bytes) : Except SealError Bytes := do
  let keys := deriveKeys sender recipient
  let ciphertext ← applyStream keys iv plaintext
  return sender.publicPoint.encode .uncompressed ++ iv ++ ciphertext ++ tag keys iv ciphertext

/-- Seals with the next bytes of the tape as initial counter. -/
def encrypt (sender : PrivateKey) (recipient : PublicKey) (plaintext : Bytes) (tape : Tape) :
    Except SealError Bytes × Tape :=
  (create sender recipient (tape.take ivSize) plaintext, tape.advance ivSize)

/-- Seals under a key drawn behind the initial counter, which is then forgotten. -/
def encryptEphemeral (recipient : PublicKey) (plaintext : Bytes) (tape : Tape) :
    Except SealError Bytes × Tape :=
  let (sender, rest) := (tape.advance ivSize).drawKey
  (create sender recipient (tape.take ivSize) plaintext, rest)

def decrypt (recipient : PrivateKey) (blob : Bytes) : Reporting SealError Bytes := do
  if blob.length < overhead then throw (.tooShort blob.length overhead)
  let embedded := blob.take Curve.Form.uncompressed.size
  let body := blob.drop Curve.Form.uncompressed.size
  let iv := body.take ivSize
  let body := body.drop ivSize
  let ciphertext := body.take (body.length - tagSize)
  let given := body.drop (body.length - tagSize)
  if embedded.head? ≠ some Curve.uncompressedTag then throw .invalidSender
  let sender ← Reporting.silent ((PublicKey.ofBytes embedded).mapError fun _ => .invalidSender)
  let keys := deriveKeys recipient sender
  if tag keys iv ciphertext ≠ given then
    Reporting.emit (.tagMismatch blob.length)
    throw .tagMismatch
  Reporting.silent (applyStream keys iv ciphertext)

end Seal
end Wallet
