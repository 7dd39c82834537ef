import Wallet.Text.Decimal
import Wallet.Text.Hex

/-! What can be wrong with a key. Why a scalar is refused is not told. -/

namespace Wallet

inductive KeyError
  | privateLength (actual : Nat)
  | privateRange
  | publicLength (actual : Nat)
  | notOnCurve
  | hex (error : Hex.Error)
  | decimal (error : Decimal.Error)
  | mismatch
  deriving DecidableEq, Repr

def KeyError.message : KeyError → String
  | .privateLength n => s!"invalid private key length: expected 32 bytes, got {n}"
  | .privateRange => "invalid private key: not a scalar in [1, N-1]"
  | .publicLength n => s!"invalid public key length: expected 33 or 65 bytes, got {n}"
  | .notOnCurve => "invalid public key: not a point on secp256k1"
  | .hex e => s!"invalid key encoding: {e.message}"
  | .decimal e => s!"invalid key encoding: {e.message}"
  | .mismatch => "key pair validation failed: public key does not match private key"

end Wallet
