import Wallet.Text.Quoted

/-! Bytes as hex text: written in lower case, read in either case, with or without a leading `0x`.
A text is refused first for an odd number of bytes, then for its leftmost byte that is no digit. -/

namespace Wallet.Hex

inductive Error
  | oddLength
  | invalidByte (byte : UInt8) (index : Nat)
  deriving DecidableEq, Repr

def Error.message : Error → String
  | .oddLength => "Odd number of digits"
  | .invalidByte b i => s!"Invalid character {Text.quoted b} at position {i}"

/-- Two lower case digits a byte. -/
def encode (bs : Bytes) : String :=
  String.ofList (bs.flatMap fun b => [Text.hexDigit (b.toNat / 16), Text.hexDigit (b.toNat % 16)])

/-- The value of a digit of either case. -/
def value? (b : UInt8) : Option UInt8 :=
  if 0x30 ≤ b ∧ b ≤ 0x39 then some (b - 0x30)
  else if 0x41 ≤ b ∧ b ≤ 0x46 then some (b - 0x37)
  else if 0x61 ≤ b ∧ b ≤ 0x66 then some (b - 0x57)
  else none

/-- The leftmost byte that is no digit, with its index counted from `start`. -/
def firstInvalid? (start : Nat) : Bytes → Option (UInt8 × Nat)
  | [] => none
  | b :: rest => if (value? b).isSome then firstInvalid? (start + 1) rest else some (b, start)

/-- The bytes that pairs of digits write. -/
def pairs : Bytes → Bytes
  | hi :: lo :: rest => ((value? hi).getD 0 * 16 + (value? lo).getD 0) :: pairs rest
  | _ => []

def decode (digits : Bytes) : Except Error Bytes :=
  if digits.length % 2 = 1 then .error .oddLength
  else match firstInvalid? 0 digits with
    | some (b, i) => .error (.invalidByte b i)
    | none => .ok (pairs digits)

/-- What is left of a text after one leading `0x` or `0X`. -/
def stripMark : Bytes → Bytes
  | 0x30 :: 0x78 :: rest => rest
  | 0x30 :: 0x58 :: rest => rest
  | text => text

/-- The bytes that a text with an optional mark writes. -/
def parse (text : String) : Except Error Bytes := decode (stripMark (Text.utf8 text))

end Wallet.Hex
