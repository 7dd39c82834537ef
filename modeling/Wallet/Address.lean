import Wallet.Hash.Domain
import Wallet.Key.Public
import Wallet.Rlp.Decoder
import Wallet.Rlp.Encoder

/-! Account addresses: the last 20 bytes of the domain hash of a public key's coordinates. Their
text is hex in lower case; either case and an optional mark are read. -/

namespace Wallet

inductive AddressError
  | length (actual : Nat)
  | hex (error : Hex.Error)
  deriving DecidableEq, Repr

def AddressError.message : AddressError → String
  | .length n => s!"invalid address length: expected 20 bytes, got {n}"
  | .hex e => s!"invalid address hex: {e.message}"

structure Address where
  bytes : Vector UInt8 20
  deriving DecidableEq, Repr

namespace Address

/-- Bytes of an address. -/
def size : Nat := 20

instance : Inhabited Address := ⟨⟨Vector.replicate 20 0⟩⟩

def toList (a : Address) : Bytes := a.bytes.toList

/-- Addresses are ordered as their bytes are, the first ones counting most. -/
instance : Ord Address := ⟨fun a b => compare a.toList b.toList⟩

def ofBytes (bs : Bytes) : Except AddressError Address :=
  if h : bs.length = 20 then .ok ⟨bs.toVector h⟩ else .error (.length bs.length)

def ofHex (text : String) : Except AddressError Address := do
  ofBytes (← (Hex.parse text).mapError .hex)

/-- The address of a key under a hash; the form of the key plays no part. -/
def ofPublicKey (key : PublicKey) (hash : DomainHash := DomainHash.keccak) : Address :=
  ⟨(hash (key.uncompressedBytes.drop 1)).drop 12⟩

def hex (a : Address) : String := Hex.encode a.toList

instance : ToString Address := ⟨hex⟩

/-- Any form of hex is read, the printed one among them. -/
def parse (text : String) : Except AddressError Address := ofHex text

def debug (a : Address) : String := s!"Address({a.hex})"

instance : Rlp.Encodable Address := ⟨fun a => Rlp.encodeString a.toList⟩
instance : Rlp.Decodable Address := ⟨Address.mk <$> Rlp.Decoder.array 20⟩

end Address
end Wallet
