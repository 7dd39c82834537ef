import Mathlib.Tactic.Ring
import Mathlib.Tactic.Tauto
import Wallet.Proofs.Outcome
import Wallet.Transaction.ReplayProtection

/-! The `v` of a signed transaction against the chain id and the indicator in it. Folding never
overflows a word, and splitting succeeds on exactly what folding gives for the indicators 27 and 28.
Main statement: `split_inverse_fold`. -/

namespace Wallet.ReplayProtection

/-- The `v` under replay protection as a number; nothing is cut off. -/
theorem toNat_fold_some (v : UInt8) (chainId : UInt64) :
    (fold v (some chainId)).toNat = 2 * chainId.toNat + 35 + (v.toNat - 27) := by
  have hc := chainId.toNat_lt
  have hv := v.toNat_lt
  have hoff : chainOffset.toNat = 35 := rfl
  have hlow : Signature.lowestV.toNat = 27 := rfl
  have htwo : (2 : Word).toNat = 2 := rfl
  simp only [fold, hoff, hlow, htwo, BitVec.toNat_add, BitVec.toNat_mul, BitVec.toNat_ofNat]
  omega

theorem toNat_fold (v : UInt8) (chainId : Option UInt64) :
    (fold v chainId).toNat =
      match chainId with
      | none => v.toNat
      | some c => 2 * c.toNat + 35 + (v.toNat - 27) := by
  cases chainId with
  | none =>
    have hv := v.toNat_lt
    rw [fold, BitVec.toNat_ofNat]
    exact Nat.mod_eq_of_lt (by omega)
  | some c => exact toNat_fold_some v c

theorem split_of_lt {w : Word} (h27 : w ≠ 27) (h28 : w ≠ 28) (h : w.toNat < 35) :
    split w = .error (.invalidV w) := by
  have hoff : chainOffset.toNat = 35 := rfl
  rw [split, if_neg (not_or.2 ⟨h27, h28⟩), if_pos (by omega)]

/-- From 35 up, the chain id is half of what is above 35, and the indicator is the bit that is left. -/
theorem split_of_ge {w : Word} (h : 35 ≤ w.toNat) :
    split w =
      if (w.toNat - 35) / 2 < UInt64.size then
        .ok (some (UInt64.ofNat ((w.toNat - 35) / 2)), 27 + UInt8.ofNat ((w.toNat - 35) % 2))
      else .error (.chainIdOverflow w) := by
  have hoff : chainOffset.toNat = 35 := rfl
  have hw := w.isLt
  have hne : ¬(w = 27 ∨ w = 28) := by
    rintro (rfl | rfl) <;> simp at h
  have hsub : (w - BitVec.ofNat 256 35).toNat = w.toNat - 35 := by
    rw [BitVec.toNat_sub, BitVec.toNat_ofNat]
    omega
  have hbit : (w - BitVec.ofNat 256 35 &&& 1).toNat = (w.toNat - 35) % 2 := by
    rw [BitVec.toNat_and, hsub]
    exact Nat.and_one_is_mod _
  rw [split, if_neg hne, hoff, if_neg (by omega)]
  simp only [BitVec.toNat_ushiftRight, hsub, hbit, Nat.shiftRight_one]
  rfl

/-- The chain id and the indicator are read back from exactly their own `v`. -/
theorem split_eq_ok {w : Word} {chainId : Option UInt64} {v : UInt8} :
    split w = .ok (chainId, v) ↔ (v = 27 ∨ v = 28) ∧ w = fold v chainId := by
  refine ⟨fun h => ?_, fun h => ?_⟩
  · by_cases hlegacy : w = 27 ∨ w = 28
    · rw [split, if_pos hlegacy] at h
      obtain rfl | rfl := hlegacy <;> cases h <;> decide
    · rw [not_or] at hlegacy
      rcases Nat.lt_or_ge w.toNat 35 with hlt | hge
      · rw [split_of_lt hlegacy.1 hlegacy.2 hlt] at h
        cases h
      · rw [split_of_ge hge] at h
        split at h
        · rename_i hsize
          have hchain : (UInt64.ofNat ((w.toNat - 35) / 2)).toNat = (w.toNat - 35) / 2 :=
            UInt64.toNat_ofNat_of_lt' hsize
          cases h
          rcases Nat.mod_two_eq_zero_or_one (w.toNat - 35) with hbit | hbit
          · rw [hbit]
            refine ⟨Or.inl rfl, BitVec.eq_of_toNat_eq ?_⟩
            rw [toNat_fold_some, hchain]
            change w.toNat = 2 * ((w.toNat - 35) / 2) + 35 + (27 - 27)
            omega
          · rw [hbit]
            refine ⟨Or.inr rfl, BitVec.eq_of_toNat_eq ?_⟩
            rw [toNat_fold_some, hchain]
            change w.toNat = 2 * ((w.toNat - 35) / 2) + 35 + (28 - 27)
            omega
        · cases h
  · obtain ⟨hv, rfl⟩ := h
    cases chainId with
    | none => obtain rfl | rfl := hv <;> decide
    | some c =>
      have hc := c.toNat_lt
      have hval := toNat_fold_some v c
      have hbit : v.toNat - 27 < 2 ∧ v = 27 + UInt8.ofNat (v.toNat - 27) := by
        obtain rfl | rfl := hv <;> decide
      have hdiv : ((fold v (some c)).toNat - 35) / 2 = c.toNat := by omega
      have hmod : ((fold v (some c)).toNat - 35) % 2 = v.toNat - 27 := by omega
      rw [split_of_ge (by omega), hdiv, hmod, if_pos hc, UInt64.ofNat_toNat, ← hbit.2]

/-- The chain id in a `v`, if it is one that has a chain id. -/
def chainIdOf (v : Word) : Option UInt64 :=
  if v.toNat < 35 then none else some (UInt64.ofNat ((v.toNat - 35) / 2))

/-- The indicator in a `v`. -/
def indicatorOf (v : Word) : UInt8 :=
  if v.toNat < 35 then UInt8.ofNat v.toNat else 27 + UInt8.ofNat ((v.toNat - 35) % 2)

theorem indicatorOf_cases {v : Word} (h : ¬(v.toNat < 35 ∧ v ≠ 27 ∧ v ≠ 28)) :
    indicatorOf v = 27 ∨ indicatorOf v = 28 := by
  unfold indicatorOf
  split
  · rename_i hlt
    by_cases h27 : v = 27
    · exact .inl (by rw [h27]; rfl)
    · exact .inr (by rw [show v = 28 by tauto]; rfl)
  · rcases Nat.mod_two_eq_zero_or_one (v.toNat - 35) with hbit | hbit <;> rw [hbit]
    · exact .inl rfl
    · exact .inr rfl

theorem split_eq (v : Word) :
    split v =
      if v.toNat < 35 ∧ v ≠ 27 ∧ v ≠ 28 then .error (.invalidV v)
      else if 35 ≤ v.toNat ∧ 2 ^ 64 ≤ (v.toNat - 35) / 2 then .error (.chainIdOverflow v)
      else .ok (chainIdOf v, indicatorOf v) := by
  unfold chainIdOf indicatorOf
  rcases Nat.lt_or_ge v.toNat 35 with hlt | hge
  · by_cases hlegacy : v = 27 ∨ v = 28
    · rw [if_neg (by tauto), if_neg (by omega), if_pos hlt, if_pos hlt, split, if_pos hlegacy]
    · rw [not_or] at hlegacy
      rw [if_pos ⟨hlt, hlegacy⟩, split_of_lt hlegacy.1 hlegacy.2 hlt]
  · have hnot : ¬v.toNat < 35 := by omega
    rw [if_neg (by tauto), if_neg hnot, if_neg hnot, split_of_ge hge]
    rcases Nat.lt_or_ge ((v.toNat - 35) / 2) UInt64.size with hchain | hchain
    · rw [if_pos hchain, if_neg fun h => Nat.not_lt.2 h.2 hchain]
    · rw [if_neg (Nat.not_lt.2 hchain), if_pos ⟨hge, hchain⟩]

/-- The numbers that are split into nothing lie below 35, except for 27 and 28, or past what the largest
chain id gives. -/
theorem split_eq_error {w : Word} {e : TransactionError} :
    split w = .error e ↔
      (w.toNat < 35 ∧ w ≠ 27 ∧ w ≠ 28 ∧ e = .invalidV w) ∨ (2 ^ 65 + 35 ≤ w.toNat ∧ e = .chainIdOverflow w) := by
  have hhigh : 35 ≤ w.toNat ∧ 2 ^ 64 ≤ (w.toNat - 35) / 2 ↔ 2 ^ 65 + 35 ≤ w.toNat := by omega
  have hapart : 2 ^ 65 + 35 ≤ w.toNat → ¬w.toNat < 35 := by omega
  rw [split_eq]
  simp only [hhigh]
  split_ifs with hsmall hlarge
  · rw [Except.error.injEq, eq_comm]
    tauto
  · rw [Except.error.injEq, eq_comm]
    tauto
  · refine iff_of_false nofun ?_
    tauto

/-- Folding a chain id and an indicator of 27 or 28 loses nothing, and splitting gives them back. Of all words
27, 28 and those from 35 to below 2⁶⁵ + 35 are split, into parts that fold to them again; the others are refused
as too small or as too large. -/
theorem split_inverse_fold :
    (∀ (v : UInt8) (chainId : Option UInt64), v = 27 ∨ v = 28 →
      (fold v chainId).toNat =
        (match chainId with
          | none => v.toNat
          | some c => 2 * c.toNat + 35 + (v.toNat - 27)) ∧
      split (fold v chainId) = .ok (chainId, v)) ∧
    ∀ w : Word,
      ((∃ parts, split w = .ok parts) ↔ w = 27 ∨ w = 28 ∨ (35 ≤ w.toNat ∧ w.toNat < 2 ^ 65 + 35)) ∧
      (∀ chainId v, split w = .ok (chainId, v) → fold v chainId = w) ∧
      ∀ e, split w = .error e ↔
        (w.toNat < 35 ∧ w ≠ 27 ∧ w ≠ 28 ∧ e = .invalidV w) ∨
          (2 ^ 65 + 35 ≤ w.toNat ∧ e = .chainIdOverflow w) := by
  refine ⟨fun v chainId hv => ⟨toNat_fold v chainId, split_eq_ok.2 ⟨hv, rfl⟩⟩, fun w => ⟨?_, ?_, ?_⟩⟩
  · have h27 : w = 27 ↔ w.toNat = 27 := BitVec.toNat_inj.symm
    have h28 : w = 28 ↔ w.toNat = 28 := BitVec.toNat_inj.symm
    simp only [Outcome.exists_eq_ok_iff, ne_eq, split_eq_error]
    rw [h27, h28]
    constructor
    · intro h
      have hlow := h (.invalidV w)
      have hhigh := h (.chainIdOverflow w)
      simp at hlow hhigh
      omega
    · rintro h e (⟨hlt, hne, hne', -⟩ | ⟨hge, -⟩) <;> omega
  · intro chainId v h
    exact (split_eq_ok.1 h).2.symm
  · intro e
    exact split_eq_error

end Wallet.ReplayProtection
