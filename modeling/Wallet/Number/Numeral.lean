/-! Numbers as they are written: a sign, digits, a point with more digits, a power of ten. -/

namespace Wallet

/-- The parts of a written number. What may be left out is there only if it was written, so that `1`, `1.0`
and `1e0` stay apart. -/
structure Numeral where
  negative : Bool
  whole : List Nat
  fraction : Option (List Nat)
  exponent : Option Int
  deriving DecidableEq, Repr

namespace Numeral

def isWhole (n : Numeral) : Bool := n.fraction.isNone && n.exponent.isNone

/-- The digits in front and what follows them, if there is one at least. -/
def digits? (cs : List Char) : Option (List Nat × List Char) :=
  match cs.takeWhile Char.isDigit with
  | [] => none
  | ds => some (ds.map fun c => c.toNat - 0x30, cs.dropWhile Char.isDigit)

def fraction? : List Char → Option (Option (List Nat) × List Char)
  | '.' :: cs => (digits? cs).map fun (ds, rest) => (some ds, rest)
  | cs => some (none, cs)

def natural (ds : List Nat) : Nat := ds.foldl (fun n d => n * 10 + d) 0

/-- A power of ten with its sign; none stands for plus. -/
def power? : List Char → Option (Option Int × List Char)
  | '+' :: cs => (digits? cs).map fun (ds, rest) => (some (natural ds), rest)
  | '-' :: cs => (digits? cs).map fun (ds, rest) => (some (-natural ds), rest)
  | cs => (digits? cs).map fun (ds, rest) => (some (natural ds), rest)

def exponent? : List Char → Option (Option Int × List Char)
  | 'e' :: cs => power? cs
  | 'E' :: cs => power? cs
  | cs => some (none, cs)

/-- A number without its sign. No zero stands in front of other digits, and nothing follows. -/
def unsigned? (negative : Bool) (cs : List Char) : Option Numeral := do
  let (whole, cs) ← digits? cs
  let (fraction, cs) ← fraction? cs
  let (exponent, cs) ← exponent? cs
  if cs.isEmpty ∧ (whole.length = 1 ∨ whole.head? ≠ some 0) then some ⟨negative, whole, fraction, exponent⟩
  else none

def parse? (text : String) : Option Numeral :=
  match text.toList with
  | '-' :: cs => unsigned? true cs
  | cs => unsigned? false cs

end Wallet.Numeral
