import Wallet.Hash.Sha256

/-! Keyed tags over SHA-256: the key is brought to the width of a block and enters an inner and an
outer hash under two different masks. -/

namespace Wallet.Hmac

/-- The key as one block: zeros after it, and its hash in its place if it is longer than a block. -/
def blockKey (key : Bytes) : Bytes :=
  let short := if key.length ≤ 64 then key else (Sha256.digest key).toList
  short ++ List.replicate (64 - short.length) 0

def tag (key message : Bytes) : Digest :=
  let block := blockKey key
  let inner := Sha256.digest (block.map (· ^^^ 0x36) ++ message)
  Sha256.digest (block.map (· ^^^ 0x5c) ++ inner.toList)

end Wallet.Hmac
