import Wallet.Number.Binary64

/-! The fewest decimal digits that read back as a binary64 number. On a coarser decimal grid fewer digits are
left, so they are the point of the coarsest grid that has one. -/

namespace Wallet.Binary64

/-- The decimal value · 10^exponent. -/
structure Digits where
  value : Nat
  exponent : Int
  deriving DecidableEq, Repr

/-- A step of the grid of 10^exponent, as a quotient of units. -/
def gridStep (exponent : Int) : Nat × Nat :=
  if exponent < 0 then (one, Nat.pow 10 exponent.natAbs) else (Nat.pow 10 exponent.natAbs * one, 1)

/-- The neighbour on a grid that reads back: of two the nearer, of two as near the even one. -/
def onGrid (x : Binary64) (exponent : Int) : Option Digits :=
  let (num, den) := gridStep exponent
  let below := x.units * den / num
  let readsBack (n : Nat) : Bool := ofUnits (n * num) den == x
  let toBelow := 2 * x.units * den
  let middle := (2 * below + 1) * num
  let preferred := if toBelow < middle ∨ (toBelow = middle ∧ below % 2 = 0) then below else below + 1
  ([preferred, 2 * below + 1 - preferred].find? readsBack).map (⟨·, exponent⟩)

/-- The grids run from 10^308, the last with a point in range besides zero, to 10^-324, finer than a unit, so
that one of them has a neighbour that reads back. The last resort is the number itself, each unit being 5^1074 · 10^-1074. -/
def shortest (x : Binary64) : Digits :=
  if x.units = 0 then ⟨0, 0⟩
  else ((List.range 633).findSome? fun (i : Nat) => x.onGrid (308 - i)).getD ⟨x.units * Nat.pow 5 1074, -1074⟩

end Wallet.Binary64
