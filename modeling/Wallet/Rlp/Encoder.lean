import Wallet.Rlp.Item
import Wallet.Word

/-! Writing items. A number is written as the string of its big-endian bytes without leading zeros,
so zero is the empty string; a list is the concatenation of its items behind a header. -/

namespace Wallet.Rlp

/-- The lead byte of a payload of `length` bytes, and its length field if it has one. -/
def header (length : Nat) (short long : UInt8) : Bytes :=
  if length < longFrom then [short + UInt8.ofNat length]
  else
    let field := (Bytes.ofNat 8 length).dropWhile (· == 0)
    (long + UInt8.ofNat field.length) :: field

def encodeString (payload : Bytes) : Bytes :=
  if isBare payload then payload else header payload.length shortString longString ++ payload

/-- A list whose items are already written. -/
def encodeList (payload : Bytes) : Bytes := header payload.length shortList longList ++ payload

/-- A number given by its big-endian bytes. -/
def encodeDigits (digits : Bytes) : Bytes := encodeString (digits.dropWhile (· == 0))

/-- A value that is written as one item. -/
class Encodable (α : Type) where
  encode : α → Bytes

export Encodable (encode)

instance : Encodable Bytes := ⟨encodeString⟩
instance : Encodable String := ⟨fun s => encodeString (Text.utf8 s)⟩
instance : Encodable UInt8 := ⟨fun n => encodeDigits (Bytes.ofNat 1 n.toNat)⟩
instance : Encodable UInt16 := ⟨fun n => encodeDigits (Bytes.ofNat 2 n.toNat)⟩
instance : Encodable UInt32 := ⟨fun n => encodeDigits (Bytes.ofNat 4 n.toNat)⟩
instance : Encodable UInt64 := ⟨fun n => encodeDigits (Bytes.ofNat 8 n.toNat)⟩
instance : Encodable Word := ⟨fun n => encodeDigits n.toBytes⟩

/-- Items written so far. -/
structure Encoder where
  output : Bytes
  deriving DecidableEq, Repr

namespace Encoder

def empty : Encoder := ⟨[]⟩

def size (e : Encoder) : Nat := e.output.length

def isEmpty (e : Encoder) : Bool := e.output.isEmpty

/-- Bytes that are already written items. -/
def writeRaw (e : Encoder) (items : Bytes) : Encoder := ⟨e.output ++ items⟩

def write {α : Type} [Encodable α] (e : Encoder) (a : α) : Encoder := e.writeRaw (encode a)

def writeList (e : Encoder) (payload : Bytes) : Encoder := e.writeRaw (encodeList payload)

/-- A list of the items that `items` writes into an encoder of their own. -/
def writeListWith (e : Encoder) (items : Encoder → Encoder) : Encoder := e.writeList (items empty).output

end Encoder
end Wallet.Rlp
