import Mathlib.FieldTheory.Finite.Basic
import Wallet.Proofs.Curve.Prime

/-! Numbers below a modulus as residues: the operations on them are those of the ring of residues, and
equal residues are equal numbers. Where the modulus is prime the power that serves as an inverse is
one, zero included. -/

namespace Wallet.Curve.Residue

variable {m : Nat}

theorem cast_inj {a b : Fin m} : (a.val : ZMod m) = b.val ↔ a = b := by
  refine ⟨fun h => ?_, fun h => by rw [h]⟩
  have hval := (ZMod.natCast_eq_natCast_iff' a.val b.val m).1 h
  rw [Nat.mod_eq_of_lt a.isLt, Nat.mod_eq_of_lt b.isLt] at hval
  exact Fin.ext hval

theorem cast_add (a b : Fin m) : ((a + b).val : ZMod m) = a.val + b.val := by
  rw [Fin.val_add, ZMod.natCast_mod, Nat.cast_add]

theorem cast_mul (a b : Fin m) : ((a * b).val : ZMod m) = a.val * b.val := by
  rw [Fin.val_mul, ZMod.natCast_mod, Nat.cast_mul]

theorem cast_sub (a b : Fin m) : ((a - b).val : ZMod m) = a.val - b.val := by
  rw [Fin.val_sub, ZMod.natCast_mod, Nat.cast_add, Nat.cast_sub b.isLt.le, ZMod.natCast_self]
  ring

theorem cast_neg (a : Fin m) : ((-a).val : ZMod m) = -a.val := by
  rw [Fin.val_neg', ZMod.natCast_mod, Nat.cast_sub a.isLt.le, ZMod.natCast_self, zero_sub]

/-- The power to `p - 2` is the inverse. -/
theorem pow_sub_two {p : Nat} [Fact p.Prime] (hp : 2 < p) (a : ZMod p) : a ^ (p - 2) = a⁻¹ := by
  by_cases ha : a = 0
  · rw [ha, inv_zero, zero_pow (by omega)]
  · have hpow := ZMod.pow_card_sub_one_eq_one (p := p) ha
    have hsucc : p - 1 = p - 2 + 1 := by omega
    rw [hsucc, pow_succ] at hpow
    exact eq_inv_of_mul_eq_one_left hpow

end Wallet.Curve.Residue
