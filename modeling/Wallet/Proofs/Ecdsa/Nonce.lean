import Mathlib.Order.Nat
import Wallet.Ecdsa.Basic

/-! What the bound on the search for a nonce means. The generator gives candidates without end, each after the one
before it was refused (`candidate`), and a search finds the first of them that is a nonzero scalar if it lies within
the bound (`search_eq_some_iff`). So with a larger bound nothing else is found once something is (`search_of_le`), and
there is no pair of scalars only if all candidates within the bound are refused, or if a scalar of the pair is zero
(`sign_eq_none_iff`). -/

namespace Wallet.Ecdsa

open Curve

namespace NonceSource

variable {g : NonceSource} {k : Scalar} {i tries more : Nat}

/-- The generator after so many refusals. -/
def refuse (g : NonceSource) : Nat → NonceSource
  | 0 => g
  | i + 1 => (g.next.stir 0x00 []).refuse i

/-- The candidates, counted from 0. No proof has to compute one. -/
@[irreducible] def candidate (g : NonceSource) (i : Nat) : Nat := Bytes.toNat (g.refuse i).next.value

theorem candidate_zero (g : NonceSource) : g.candidate 0 = Bytes.toNat g.next.value := by
  rw [candidate, refuse]

theorem candidate_succ (g : NonceSource) (i : Nat) : g.candidate (i + 1) = (g.next.stir 0x00 []).candidate i := by
  rw [candidate, candidate, refuse]

/-- Whether a candidate is taken. -/
def IsTaken (n : Nat) : Prop := 0 < n ∧ n < order

instance (n : Nat) : Decidable (IsTaken n) := inferInstanceAs (Decidable (_ ∧ _))

/-- The first candidate that is taken. -/
structure IsFirst (g : NonceSource) (i : Nat) (k : Scalar) : Prop where
  candidate_eq : g.candidate i = k.val
  taken : IsTaken (g.candidate i)
  refused : ∀ j < i, ¬IsTaken (g.candidate j)

theorem IsFirst.zero (h : g.candidate 0 = k.val) (hk : k ≠ 0) : IsFirst g 0 k := by
  refine ⟨h, ?_, nofun⟩
  rw [h]
  exact ⟨Nat.pos_of_ne_zero (Fin.val_ne_zero_iff.2 hk), k.isLt⟩

theorem isFirst_succ (h : ¬IsTaken (g.candidate 0)) :
    IsFirst g (i + 1) k ↔ IsFirst (g.next.stir 0x00 []) i k := by
  constructor
  · rintro ⟨heq, htaken, hrefused⟩
    rw [candidate_succ] at heq htaken
    refine ⟨heq, htaken, fun j hj => ?_⟩
    rw [← candidate_succ]
    exact hrefused (j + 1) (Nat.succ_lt_succ hj)
  · rintro ⟨heq, htaken, hrefused⟩
    rw [← candidate_succ] at heq htaken
    refine ⟨heq, htaken, fun j hj => ?_⟩
    cases j with
    | zero => exact h
    | succ j =>
      rw [candidate_succ]
      exact hrefused j (Nat.lt_of_succ_lt_succ hj)

theorem exists_isFirst (h : IsTaken (g.candidate i)) : ∃ j ≤ i, ∃ k, IsFirst g j k := by
  have hex : ∃ j, IsTaken (g.candidate j) := ⟨i, h⟩
  have htaken := Nat.find_spec hex
  exact ⟨Nat.find hex, Nat.find_min' hex h, ⟨_, htaken.2⟩, rfl, htaken, fun j hj => Nat.find_min hex hj⟩

theorem search_succ (tries : Nat) (g : NonceSource) :
    search (tries + 1) g =
      if h : IsTaken (g.candidate 0) then some ⟨g.candidate 0, h.2⟩
      else search tries (g.next.stir 0x00 []) := by
  simp only [search, candidate_zero]
  rfl

theorem search_eq_some_iff : g.search tries = some k ↔ ∃ i < tries, IsFirst g i k := by
  induction tries generalizing g with
  | zero => exact ⟨nofun, nofun⟩
  | succ tries ih =>
    rw [search_succ]
    split
    · rename_i htaken
      constructor
      · intro h
        obtain rfl := Option.some.inj h
        exact ⟨0, Nat.succ_pos tries, rfl, htaken, nofun⟩
      · rintro ⟨i, -, hfirst⟩
        cases i with
        | zero => exact congrArg some (Fin.ext hfirst.candidate_eq)
        | succ i => exact absurd htaken (hfirst.refused 0 (Nat.succ_pos i))
    · rename_i hrefused
      rw [ih]
      constructor
      · rintro ⟨i, hi, hfirst⟩
        exact ⟨i + 1, Nat.succ_lt_succ hi, (isFirst_succ hrefused).2 hfirst⟩
      · rintro ⟨i, hi, hfirst⟩
        cases i with
        | zero => exact absurd hfirst.taken hrefused
        | succ i => exact ⟨i, Nat.lt_of_succ_lt_succ hi, (isFirst_succ hrefused).1 hfirst⟩

theorem search_eq_none_iff : g.search tries = none ↔ ∀ i < tries, ¬IsTaken (g.candidate i) := by
  constructor
  · intro h i hi htaken
    obtain ⟨j, hj, k, hfirst⟩ := exists_isFirst htaken
    rw [search_eq_some_iff.2 ⟨j, hj.trans_lt hi, hfirst⟩] at h
    cases h
  · intro h
    cases hs : g.search tries with
    | none => rfl
    | some k =>
      obtain ⟨i, hi, hfirst⟩ := search_eq_some_iff.1 hs
      exact absurd hfirst.taken (h i hi)

/-- A larger bound finds the same. -/
theorem search_of_le (h : g.search tries = some k) (hle : tries ≤ more) : g.search more = some k := by
  obtain ⟨i, hi, hfirst⟩ := search_eq_some_iff.1 h
  exact search_eq_some_iff.2 ⟨i, hi.trans_le hle, hfirst⟩

end NonceSource

variable {secret z nonce : Scalar} {digest : Digest} {i tries more : Nat}

/-- The candidates for the nonce of a signature. -/
def candidate (secret : Scalar) (digest : Digest) (i : Nat) : Nat :=
  (NonceSource.seed secret.toBytes digest.toList).candidate i

theorem nonce?_eq_none_iff :
    nonce? secret digest tries = none ↔ ∀ i < tries, ¬NonceSource.IsTaken (candidate secret digest i) :=
  NonceSource.search_eq_none_iff

theorem nonce?_of_le (h : NonceSource.IsTaken (candidate secret digest i)) (hi : i < tries) (hle : tries ≤ more) :
    nonce? secret digest more = nonce? secret digest tries := by
  obtain ⟨k, hk⟩ := Option.ne_none_iff_exists'.1 fun hnone => nonce?_eq_none_iff.1 hnone i hi h
  rw [hk]
  exact NonceSource.search_of_le hk hle

/-- Once a candidate is taken within the bound, the bound plays no part in what is signed. -/
theorem sign_of_le (h : NonceSource.IsTaken (candidate secret digest i)) (hi : i < tries) (hle : tries ≤ more) :
    sign secret digest more = sign secret digest tries := by
  rw [sign, sign, nonce?_of_le h hi hle]

theorem signWith_eq_none_iff :
    signWith secret z nonce = none ↔
      abscissa (Point.mul nonce .generator) = 0 ∨
        nonce.inverse * (z + abscissa (Point.mul nonce .generator) * secret) = 0 := by
  simp only [signWith, ite_eq_left_iff, reduceCtorEq, imp_false, not_not]

/-- There is no pair if no candidate is taken, or if one of the two scalars at the nonce is zero. -/
theorem sign_eq_none_iff :
    sign secret digest tries = none ↔
      (∀ i < tries, ¬NonceSource.IsTaken (candidate secret digest i)) ∨
        ∃ nonce, nonce? secret digest tries = some nonce ∧
          (abscissa (Point.mul nonce .generator) = 0 ∨
            nonce.inverse * (challenge digest + abscissa (Point.mul nonce .generator) * secret) = 0) := by
  rw [← nonce?_eq_none_iff, sign]
  cases nonce? secret digest tries with
  | none => simp
  | some nonce => simp [signWith_eq_none_iff]

end Wallet.Ecdsa
