import Wallet.Bytes

/-! Words of 256 bits: amounts, gas, counters and the components of a signature. -/

namespace Wallet

abbrev Word := BitVec 256

namespace Word

/-- How many words there are. -/
def count : Nat := 1 <<< 256

/-- The low 256 bits of the number that a run of bytes writes. -/
def ofBytes (bs : Bytes) : Word := BitVec.ofNat 256 bs.toNat

/-- The 32 bytes of a word, most significant first. -/
def toBytes (w : Word) : Bytes := Bytes.ofNat 32 w.toNat

def decimal (w : Word) : String := toString w.toNat

@[simp]
theorem length_toBytes (w : Word) : w.toBytes.length = 32 := by simp [toBytes]

end Word
end Wallet
