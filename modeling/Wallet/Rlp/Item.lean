import Wallet.Text.Quoted

/-! Items of the recursive length encoding: the six classes of a lead byte, and what can be wrong
with an item that is read. A lead byte below `0x80` is a string by itself; up to `0xbf` it announces
a string, from `0xc0` a list; a payload of 56 bytes or more has a length field of its own. -/

namespace Wallet.Rlp

/-- Lead byte of the empty string. -/
def shortString : UInt8 := 0x80

/-- Lead bytes of long strings are this plus the width of the length field. -/
def longString : UInt8 := 0xb7

/-- Lead byte of the empty list. -/
def shortList : UInt8 := 0xc0

/-- Lead bytes of long lists are this plus the width of the length field. -/
def longList : UInt8 := 0xf7

/-- Shorter payloads have their length in the lead byte. -/
def longFrom : Nat := 56

inductive ItemKind
  | singleByte
  | empty
  | shortString
  | longString
  | shortList
  | longList
  deriving DecidableEq, Repr

namespace ItemKind

def classify (lead : UInt8) : ItemKind :=
  if lead < 0x80 then .singleByte
  else if lead = 0x80 then .empty
  else if lead ≤ 0xb7 then .shortString
  else if lead ≤ 0xbf then .longString
  else if lead ≤ 0xf7 then .shortList
  else .longList

def isList : ItemKind → Bool
  | .shortList | .longList => true
  | _ => false

end ItemKind

/-- A string of one byte that needs no header. -/
def isBare : Bytes → Bool
  | [b] => b < shortString
  | _ => false

/-- The ways in which an item can be readable and still not be the one encoding of its value. -/
inductive Fault
  | prefixedByte
  | lengthLeadingZero
  | longFormTooShort
  | integerLeadingZero
  deriving DecidableEq, Repr

def Fault.message : Fault → String
  | .prefixedByte => "single byte below 0x80 with a prefix"
  | .lengthLeadingZero => "length field with a leading zero"
  | .longFormTooShort => "long form for a payload under 56 bytes"
  | .integerLeadingZero => "integer with a leading zero byte"

inductive Error
  | endOfInput (available requested : Nat)
  | foundList (lead : UInt8)
  | foundString (lead : UInt8)
  | tooWide (width capacity : Nat)
  | lengthTooWide (width : Nat)
  | wrongLength (expected actual : Nat)
  | trailingBytes (count : Nat)
  | invalidText
  | nonCanonical (fault : Fault)
  deriving DecidableEq, Repr

def Error.message : Error → String
  | .endOfInput available requested =>
    s!"end of input reached: {available} bytes available, {requested} requested"
  | .foundList lead => s!"expected a string item, found list prefix 0x{Text.fullHex lead}"
  | .foundString lead => s!"expected a list item, found string prefix 0x{Text.fullHex lead}"
  | .tooWide width capacity => s!"payload of {width} bytes does not fit a {capacity}-byte integer"
  | .lengthTooWide width => s!"length field of {width} bytes exceeds the addressable range"
  | .wrongLength expected actual => s!"expected a {expected}-byte string, found {actual} bytes"
  | .trailingBytes count => s!"{count} trailing bytes after the last item"
  | .invalidText => "string item is not valid UTF-8"
  | .nonCanonical fault => s!"non-canonical encoding: {fault.message}"

end Wallet.Rlp
