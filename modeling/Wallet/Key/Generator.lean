import Wallet.Event
import Wallet.Key.Pair
import Wallet.Tape

/-! Fresh key pairs from a tape, and what is derived from keys. Only the hash under the addresses is
a matter of choice. -/

namespace Wallet

structure KeyGenerator where
  tape : Tape
  hash : DomainHash := DomainHash.keccak

namespace KeyGenerator

/-- A pair of a fresh private key and its compressed public key, which is reported. -/
def generate (g : KeyGenerator) : Traced (KeyPair × KeyGenerator) := do
  let (key, tape) := g.tape.drawKey
  let pair := KeyPair.ofPrivate key
  Traced.emit (.generatedKeyPair pair.publicKey)
  return (pair, { g with tape })

def derivePublicKey (_ : KeyGenerator) (key : PrivateKey) : PublicKey := (KeyPair.ofPrivate key).publicKey

def address (g : KeyGenerator) (key : PublicKey) : Address := Address.ofPublicKey key g.hash

end KeyGenerator
end Wallet
