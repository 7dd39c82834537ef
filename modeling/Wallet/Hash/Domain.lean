import Wallet.Hash.Keccak

/-! The hash under everything that is signed or addressed. It is a parameter of signing, of
verification and of addresses; Keccak-256 is the one in use. -/

namespace Wallet

abbrev DomainHash := Bytes → Digest

namespace DomainHash

/-- Bytes in a digest. -/
def size : Nat := 32

def keccak : DomainHash := Keccak.digest256

/-- The hash of several parts one after the other. -/
def ofParts (hash : DomainHash) (parts : List Bytes) : Digest := hash parts.flatten

end DomainHash
end Wallet
