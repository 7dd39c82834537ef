import Wallet.Bytes

/-! A byte named in a message: the character with that code, between quotes. Control characters, the
quote, the backslash and the invisible ones are escaped. -/

namespace Wallet.Text

/-- The bytes of a text in UTF-8. -/
def utf8 (s : String) : Bytes := s.toUTF8.data.toList

/-- The text whose UTF-8 form is `bs`. -/
def ofUtf8? (bs : Bytes) : Option String := String.fromUTF8? ⟨bs.toArray⟩

/-- The lower case digit of a value below 16. -/
def hexDigit (n : Nat) : Char := if n < 10 then Char.ofNat (48 + n) else Char.ofNat (87 + n)

/-- The hex digits of a byte, without a leading zero. -/
def shortHex (b : UInt8) : String :=
  if b < 16 then String.singleton (hexDigit b.toNat)
  else String.ofList [hexDigit (b.toNat / 16), hexDigit (b.toNat % 16)]

/-- The two hex digits of a byte. -/
def fullHex (b : UInt8) : String := String.ofList [hexDigit (b.toNat / 16), hexDigit (b.toNat % 16)]

/-- Characters of one byte that show nothing when printed: the controls, the no-break space and the
soft hyphen. -/
def isInvisible (b : UInt8) : Bool := b < 0x20 || (0x7f ≤ b && b ≤ 0xa0) || b == 0xad

def escaped (b : UInt8) : String :=
  match b with
  | 0x00 => "\\0"
  | 0x09 => "\\t"
  | 0x0a => "\\n"
  | 0x0d => "\\r"
  | 0x27 => "\\'"
  | 0x5c => "\\\\"
  | _ => if isInvisible b then "\\u\x7b" ++ shortHex b ++ "\x7d" else String.singleton (Char.ofNat b.toNat)

def quoted (b : UInt8) : String := "'" ++ escaped b ++ "'"

end Wallet.Text
