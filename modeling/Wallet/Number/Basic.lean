import Wallet.Number.Numeral
import Wallet.Number.Shortest

/-! Numbers of a document: integers that 64 bits hold, signed or not, and binary64 numbers for all others. -/

namespace Wallet

inductive Number
  | integer (n : Int)
  | floating (negative : Bool) (size : Binary64)
  deriving DecidableEq, Repr

namespace Number

/-- A significand with the digits behind it that 64 bits have room for, and how many are left over. The first
digit without room ends it. -/
def fill (significand : Nat) : List Nat → Nat × Nat
  | [] => (significand, 0)
  | d :: ds =>
    if significand * 10 + d < UInt64.size then fill (significand * 10 + d) ds else (significand, ds.length + 1)

/-- The number that a numeral writes, if it is in range. It is an integer if it has neither point nor power of
ten, is no minus zero and lies from -2^63 up to 2^64 - 1. -/
def ofNumeral? (n : Numeral) : Option Number :=
  let (whole, beyond) := fill 0 n.whole
  if n.isWhole ∧ beyond = 0 ∧ (n.negative = false ∨ 0 < whole ∧ whole ≤ 1 <<< 63) then
    some (.integer (if n.negative then -whole else whole))
  else
    let fraction := n.fraction.getD []
    let (significand, left) := fill whole fraction
    let exponent : Int := n.exponent.getD 0 + beyond - (fraction.length - left : Nat)
    (Binary64.scaled? significand exponent).map (.floating n.negative)

/-- Digits with a point. Between 10^-5 and 10^16 the point stands in its place, with a digit on either side;
elsewhere it follows the first digit, if there are more, and a signed power of ten makes up for it. -/
def written (d : Binary64.Digits) : String :=
  let ds := (toString d.value).toList
  let lead : Int := d.exponent + ds.length - 1
  if -5 ≤ lead ∧ lead ≤ 15 then
    if 0 ≤ d.exponent then String.ofList (ds ++ List.replicate d.exponent.natAbs '0') ++ ".0"
    else if 0 ≤ lead then
      String.ofList (ds.take (lead.natAbs + 1)) ++ "." ++ String.ofList (ds.drop (lead.natAbs + 1))
    else "0." ++ String.ofList (List.replicate (lead.natAbs - 1) '0' ++ ds)
  else
    let point := if ds.length = 1 then "" else "."
    let sign := if lead < 0 then "-" else "+"
    String.ofList (ds.take 1) ++ point ++ String.ofList (ds.drop 1) ++ s!"e{sign}{lead.natAbs}"

/-- What a number is called where another kind of value was expected. Zero keeps its sign. -/
def kind : Number → String
  | integer n => s!"integer \x60{n}\x60"
  | floating negative size =>
    let sign := if negative then "-" else ""
    s!"floating point \x60{sign}{written size.shortest}\x60"

end Wallet.Number
