/-! Numbers of 53 significant bits, counted in the least of them, 2^-1074: every one is a whole count, and
rounding is the only step that loses anything. -/

namespace Wallet

/-- A binary64 number that is not negative, in units of 2^-1074. Counts of 2^2098 and more are out of range. -/
structure Binary64 where
  units : Nat
  deriving DecidableEq, Repr

namespace Binary64

/-- The integer nearest to a quotient, of two as near the even one. -/
def nearest (num den : Nat) : Nat :=
  let q := num / den
  let twice := 2 * (num % den)
  if den < twice ∨ (den = twice ∧ q % 2 = 1) then q + 1 else q

/-- The number nearest to a quotient of units. Its last bit is worth a unit, or more where the quotient
has over 53 bits before the point. -/
def ofUnits (num den : Nat) : Binary64 :=
  let step := 1 <<< ((num / den).log2 - 52)
  ⟨step * nearest num (den * step)⟩

/-- The units in one. -/
def one : Nat := 1 <<< 1074

def ofNat (n : Nat) : Binary64 := ofUnits (n * one) 1

instance : Mul Binary64 := ⟨fun x y => ofUnits (x.units * y.units) one⟩

instance : Div Binary64 := ⟨fun x y => ofUnits (x.units * one) y.units⟩

def inRange (x : Binary64) : Bool := decide (x.units < 1 <<< 2098)

def tenPower (n : Nat) : Binary64 := ofNat (Nat.pow 10 n)

/-- Divided by 10^308 so many times, or until nothing is left. -/
def shrink : Nat → Binary64 → Binary64
  | 0, x => x
  | times + 1, x => if x.units = 0 then x else shrink times (x / tenPower 308)

/-- A significand times a power of ten, if it is in range. Each step rounds: the significand, then the
product, or the quotients by 10^308 for as long as the power needs them and the one by what remains. -/
def scaled? (significand : Nat) (exponent : Int) : Option Binary64 :=
  let x := ofNat significand
  let places := exponent.natAbs
  if significand = 0 then some x
  else if exponent < 0 then some (shrink (places / 308) x / tenPower (places % 308))
  else if 308 < places then none
  else
    let y := x * tenPower places
    if y.inRange then some y else none

end Wallet.Binary64
