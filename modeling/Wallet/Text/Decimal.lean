import Wallet.Text.Quoted
import Wallet.Word

/-! Decimal text of a word, read from left to right: the first byte that is no digit, or the first
digit that leads past 256 bits, decides which of the two failures is reported. No digits write zero. -/

namespace Wallet.Decimal

inductive Error
  | invalidCharacter
  | tooLarge
  deriving DecidableEq, Repr

def Error.message : Error → String
  | .invalidCharacter => "InvalidCharacter"
  | .tooLarge => "InvalidLength"

/-- One more digit on the right of a word. -/
def append (w : Word) (digit : UInt8) : Except Error Word :=
  if digit < 0x30 ∨ 0x39 < digit then .error .invalidCharacter
  else
    let n := w.toNat * 10 + (digit - 0x30).toNat
    if n < Word.count then .ok (BitVec.ofNat 256 n) else .error .tooLarge

def parse (text : String) : Except Error Word := (Text.utf8 text).foldlM append 0

end Wallet.Decimal
