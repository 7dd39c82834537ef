import Wallet.Address
import Wallet.Number.Basic

/-! Keys and addresses in documents of a self-describing format: both are texts there, and read back
from a text only. -/

namespace Wallet

/-- A value of such a format, told apart as far as reading a text needs. -/
inductive Document
  | null
  | boolean (b : Bool)
  | number (n : Number)
  | text (s : String)
  | sequence
  | map
  deriving DecidableEq, Repr

namespace Document

/-- What a value is called where another kind was expected. -/
def kind : Document → String
  | null => "null"
  | boolean b => s!"boolean \x60{b}\x60"
  | number n => n.kind
  | text s => s!"string {s.quote}"
  | sequence => "sequence"
  | map => "map"

inductive Error
  | expectedText (found : Document)
  | key (error : KeyError)
  | address (error : AddressError)
  deriving DecidableEq, Repr

def Error.message : Error → String
  | .expectedText found => s!"invalid type: {found.kind}, expected a string"
  | .key e => e.message
  | .address e => e.message

def asText : Document → Except Error String
  | text s => .ok s
  | found => .error (.expectedText found)

end Document

def PublicKey.toDocument (key : PublicKey) : Document := .text key.hex

def PublicKey.ofDocument (d : Document) : Except Document.Error PublicKey := do
  (PublicKey.ofHex (← d.asText)).mapError .key

def Address.toDocument (a : Address) : Document := .text a.hex

def Address.ofDocument (d : Document) : Except Document.Error Address := do
  (Address.ofHex (← d.asText)).mapError .address

end Wallet
