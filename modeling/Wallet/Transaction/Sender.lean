import Wallet.Signature.Recovery
import Wallet.Transaction.Basic

/-! The sender of a transaction is whoever its signature recovers to. -/

namespace Wallet.Transaction

def recoverSender (tx : Transaction) : Except TransactionError Address := do
  let some σ := tx.signature | throw .missingSignature
  let key ← (recoverPublicKey (Keccak.digest256 tx.signingPayload) σ).mapError .signature
  return Address.ofPublicKey key

/-- Checks that a transaction is signed, canonical, and sent by `expected`, in this order. -/
def verify (tx : Transaction) (expected : Address) : Except TransactionError Unit := do
  let some σ := tx.signature | throw .missingSignature
  if !σ.isCanonical then throw .nonCanonicalSignature
  let recovered ← tx.recoverSender
  if recovered ≠ expected then throw (.senderMismatch expected recovered)

end Wallet.Transaction
