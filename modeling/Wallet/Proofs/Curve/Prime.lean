import Mathlib.Data.List.Prime
import Mathlib.NumberTheory.LucasPrimality
import Mathlib.Tactic.NormNum.Prime
import Wallet.Curve.Field

/-! The remainders that `powerMod` computes are those of powers (`cast_powerMod`). With it the prime of
the coordinates is shown to be one, and the order of the group too: a base of order `p - 1` modulo `p`
makes `p` a prime, and the order is read off the factors of `p - 1`, which are shown to be primes in the
same way, down to primes of a few digits (`prime_of_certified`). -/

namespace Wallet.Curve

/-- Over the low `n` bits of the exponent, from an accumulator that the higher ones have left. -/
theorem cast_foldr_range (m a e : Nat) :
    ∀ n acc : Nat,
      (((List.range n).foldr
        (fun i acc => if e.testBit i then acc * acc % m * a % m else acc * acc % m) acc : Nat) : ZMod m) =
        (acc : ZMod m) ^ 2 ^ n * (a : ZMod m) ^ (e % 2 ^ n) := by
  intro n
  induction n with
  | zero =>
    intro acc
    simp [Nat.mod_one]
  | succ n ih =>
    intro acc
    have hmod : e % 2 ^ (n + 1) = e % 2 ^ n + 2 ^ n * (e / 2 ^ n % 2) := by
      rw [pow_succ, Nat.mod_mul]
    rw [List.range_succ, List.foldr_append, ih, hmod, List.foldr_cons, List.foldr_nil,
      Nat.testBit_eq_decide_div_mod_eq]
    rcases Nat.mod_two_eq_zero_or_one (e / 2 ^ n) with hbit | hbit
    · simp only [hbit, zero_ne_one, decide_false, Bool.false_eq_true, if_false, ZMod.natCast_mod,
        Nat.cast_mul]
      ring
    · simp only [hbit, decide_true, if_true, ZMod.natCast_mod, Nat.cast_mul]
      ring

theorem cast_powerMod {m a e : Nat} (he : e < 2 ^ 256) : (powerMod m a e : ZMod m) = (a : ZMod m) ^ e := by
  have h := cast_foldr_range m a e 256 1
  rw [Nat.cast_one, one_pow, one_mul, Nat.mod_eq_of_lt he] at h
  exact h

/-- The base `a` has order `p - 1` modulo `p`, as far as its powers at the divisors of `p - 1` tell. -/
def IsRoot (p a : Nat) (factors : List Nat) : Prop :=
  (1 < p ∧ p < 2 ^ 256) ∧ factors.prod = p - 1 ∧ powerMod p a (p - 1) % p = 1 ∧
    ∀ q ∈ factors, powerMod p a ((p - 1) / q) % p ≠ 1

instance (p a : Nat) (factors : List Nat) : Decidable (IsRoot p a factors) :=
  inferInstanceAs (Decidable (_ ∧ _))

theorem prime_of_root {p : Nat} (a : Nat) (factors : List Nat) (h : IsRoot p a factors)
    (hprime : ∀ q ∈ factors, q.Prime) : p.Prime := by
  obtain ⟨hp, hprod, hone, hroot⟩ := h
  have hcast : ∀ e, e < 2 ^ 256 → (powerMod p a e % p = 1 ↔ (a : ZMod p) ^ e = 1) := by
    intro e he
    have h := ZMod.natCast_eq_natCast_iff' (powerMod p a e) 1 p
    rw [Nat.cast_one, Nat.mod_eq_of_lt hp.1, cast_powerMod he] at h
    exact h.symm
  apply lucas_primality p (a : ZMod p)
  · exact (hcast _ (by omega)).1 hone
  · intro q hq hdvd h
    have hmem : q ∈ factors :=
      mem_list_primes_of_dvd_prod hq.prime (fun r hr => (hprime r hr).prime) (hprod ▸ hdvd)
    have hlt : (p - 1) / q < 2 ^ 256 := (Nat.div_le_self _ _).trans_lt (by omega)
    exact hroot q hmem ((hcast _ hlt).2 h)

/-- A number with a base and with the prime factors of the number less 1. -/
structure Certificate where
  number : Nat
  base : Nat
  factors : List Nat

/-- Every row of a table has a root, and its factors are numbers of a given list or of rows further down. -/
def Certified (small : List Nat) : List Certificate → Prop
  | [] => True
  | row :: rows =>
    IsRoot row.number row.base row.factors ∧
      (∀ q ∈ row.factors, q ∈ small ∨ q ∈ rows.map (·.number)) ∧ Certified small rows

instance decidableCertified (small : List Nat) : (rows : List Certificate) → Decidable (Certified small rows)
  | [] => .isTrue trivial
  | _ :: rows =>
    have := decidableCertified small rows
    inferInstanceAs (Decidable (_ ∧ _ ∧ _))

theorem prime_of_certified {small : List Nat} (hsmall : ∀ q ∈ small, q.Prime) {rows : List Certificate}
    (h : Certified small rows) : ∀ p ∈ rows.map (·.number), p.Prime := by
  induction rows with
  | nil => exact nofun
  | cons row rows ih =>
    obtain ⟨hroot, hfactors, hrows⟩ := h
    refine List.forall_mem_cons.2 ⟨prime_of_root row.base row.factors hroot fun q hq => ?_, ih hrows⟩
    rcases hfactors q hq with hmem | hmem
    · exact hsmall q hmem
    · exact ih hrows q hmem

def smallFactors : List Nat :=
  [2, 3, 5, 7, 11, 17, 29, 31, 41, 59, 109, 149, 293, 461, 631, 1627, 2621, 2657, 4051, 4423, 5323, 7723,
   13441, 16699, 24809, 28181, 41201, 85831, 96557, 120233, 305873, 1627771, 4681609, 7240687, 13331831,
   44706919, 107590001]

theorem prime_of_mem_smallFactors : ∀ q ∈ smallFactors, q.Prime := by
  unfold smallFactors
  norm_num

/-- The certificates of the coordinate prime and of the order, each followed by those of its factors. -/
def certificates : List Certificate :=
  [⟨prime, 3, [205115282021455665897114700593932402728804164701536103180137503955397371, 2, 3, 7,
     13441]⟩,
   ⟨205115282021455665897114700593932402728804164701536103180137503955397371, 10,
     [255515944373312847190720520512484175977, 132896956044521568488119, 2, 3, 5, 29, 29, 31, 7723]⟩,
   ⟨255515944373312847190720520512484175977, 3, [2, 2, 2, 7, 7, 11, 1627, 2657, 4423, 41201, 96557,
     7240687, 107590001]⟩,
   ⟨132896956044521568488119, 6, [22149492674086928081353, 2, 3]⟩,
   ⟨22149492674086928081353, 5, [173378833005251801, 2, 2, 2, 3, 5323]⟩,
   ⟨173378833005251801, 6, [2, 2, 2, 5, 5, 2621, 24809, 13331831]⟩,
   ⟨order, 7, [107361793816595537, 174723607534414371449, 341948486974166000522343609283189, 2, 2, 2, 2,
     2, 2, 3, 149, 631]⟩,
   ⟨107361793816595537, 3, [2, 2, 2, 2, 16699, 85831, 4681609]⟩,
   ⟨174723607534414371449, 3, [2, 2, 2, 17, 59, 4051, 120233, 44706919]⟩,
   ⟨341948486974166000522343609283189, 2, [29047611873442575647497758179, 2, 2, 3, 3, 3, 109]⟩,
   ⟨29047611873442575647497758179, 2, [297159362677, 545358713, 2, 293, 305873]⟩,
   ⟨297159362677, 2, [2, 2, 3, 3, 11, 461, 1627771]⟩,
   ⟨545358713, 5, [2, 2, 2, 41, 59, 28181]⟩]

theorem certificates_certified : Certified smallFactors certificates := by
  decide +kernel

theorem prime_prime : prime.Prime :=
  prime_of_certified prime_of_mem_smallFactors certificates_certified prime (by simp [certificates])

theorem prime_order : order.Prime :=
  prime_of_certified prime_of_mem_smallFactors certificates_certified order (by simp [certificates])

instance : Fact prime.Prime := ⟨prime_prime⟩
instance : Fact order.Prime := ⟨prime_order⟩

end Wallet.Curve
