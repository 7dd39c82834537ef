import Wallet.Address
import Wallet.Rlp.Item
import Wallet.Signature.Basic

/-! What can be wrong with a transaction. -/

namespace Wallet

inductive TransactionError
  | rlp (error : Rlp.Error)
  | signature (error : SignatureError)
  | address (error : AddressError)
  | key (error : KeyError)
  | invalidV (v : Word)
  | chainIdOverflow (v : Word)
  | missingSignature
  | nonCanonicalSignature
  | senderMismatch (expected recovered : Address)
  deriving DecidableEq, Repr

def TransactionError.message : TransactionError → String
  | .rlp e => s!"malformed transaction encoding: {e.message}"
  | .signature e => e.message
  | .address e => e.message
  | .key e => e.message
  | .invalidV v => s!"invalid v value: {v.decimal}"
  | .chainIdOverflow v => s!"chain id encoded in v = {v.decimal} does not fit in 64 bits"
  | .missingSignature => "transaction is unsigned"
  | .nonCanonicalSignature => "signature is not canonical (s > N/2)"
  | .senderMismatch expected recovered => s!"sender mismatch: expected {expected.hex}, recovered {recovered.hex}"

end Wallet
