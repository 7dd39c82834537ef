import Wallet.Transaction.Error

/-! The number `v` of a signed transaction: the indicator itself under the legacy scheme, and under
replay protection the chain id twice, plus 35, plus the recovery id. -/

namespace Wallet.ReplayProtection

/-- The least `v` that holds a chain id. -/
def chainOffset : UInt64 := 35

/-- The `v` of an indicator and a chain id. -/
def fold (v : UInt8) : Option UInt64 → Word
  | none => BitVec.ofNat 256 v.toNat
  | some chainId =>
    BitVec.ofNat 256 chainId.toNat * 2 + BitVec.ofNat 256 chainOffset.toNat
      + BitVec.ofNat 256 (v.toNat - Signature.lowestV.toNat)

/-- The chain id and the indicator that a `v` is made of. -/
def split (v : Word) : Except TransactionError (Option UInt64 × UInt8) :=
  if v = 27 ∨ v = 28 then .ok (none, UInt8.ofNat v.toNat)
  else if v.toNat < chainOffset.toNat then .error (.invalidV v)
  else
    let offset := v - BitVec.ofNat 256 chainOffset.toNat
    let chainId := offset >>> 1
    if chainId.toNat < UInt64.size then
      .ok (some (UInt64.ofNat chainId.toNat), Signature.lowestV + UInt8.ofNat (offset &&& 1).toNat)
    else .error (.chainIdOverflow v)

end Wallet.ReplayProtection
