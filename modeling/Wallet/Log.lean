/-! Where events go: the layout of the log, and the one subscriber of a process. -/

namespace Wallet.Log

inductive Format
  | pretty
  | json
  deriving DecidableEq, Repr

/-- The layout that a text names in any case, `pretty` for all texts but one. No character outside
ASCII has one of the four letters of `json` as its lower case form. -/
def Format.ofText (text : String) : Format := if text.map Char.toLower = "json" then .json else .pretty

def Format.name : Format → String
  | .pretty => "Pretty"
  | .json => "Json"

structure Subscriber where
  level : String
  format : Format
  deriving DecidableEq, Repr

/-- The subscriber in place after one more is offered, and whether it is the new one. -/
def install (current : Option Subscriber) (offered : Subscriber) : Option Subscriber × Bool :=
  match current with
  | none => (some offered, true)
  | some subscriber => (some subscriber, false)

end Wallet.Log
