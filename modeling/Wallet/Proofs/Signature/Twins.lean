import Wallet.Proofs.Signature.Signing

/-! Signatures come in twins, which share `r`, whose `s` add up to the order and whose indicators are opposite
(`Twins`). The order is odd, so one of the two is canonical, and the canonical form is the same for both. Main
statement: `canonical_form`. -/

namespace Wallet.Signature

variable {a b c : Signature}

/-- Signatures with nonce points that are opposite. An unknown indicator has no opposite. -/
structure Twins (a b : Signature) : Prop where
  r : a.r = b.r
  s : a.s.toNat + b.s.toNat = Curve.order
  v : a.v = 0 ∧ b.v = 0 ∨ a.v = 27 ∧ b.v = 28 ∨ a.v = 28 ∧ b.v = 27

theorem twin_r (a : Signature) : a.twin.r = a.r := by
  -- by cases: the other components must not be compared
  cases a
  rfl

theorem twins_twin (h : a.Valid) : Twins a a.twin := by
  refine ⟨(twin_r a).symm, ?_, ?_⟩
  · have hlt := h.2.1.2
    rw [toNat_twin_s h.2.1]
    omega
  · have hflipped : ∀ v : UInt8, v = 0 ∨ v = 27 ∨ v = 28 →
        v = 0 ∧ flipped v = 0 ∨ v = 27 ∧ flipped v = 28 ∨ v = 28 ∧ flipped v = 27 := by
      rintro v (rfl | rfl | rfl) <;> decide
    exact hflipped a.v h.2.2

namespace Twins

theorem symm (h : Twins a b) : Twins b a := by
  refine ⟨h.r.symm, (Nat.add_comm _ _).trans h.s, ?_⟩
  have hv := h.v
  tauto

theorem indicator (h : Twins a b) : b.v = flipped a.v := by
  rcases h.v with ⟨ha, hb⟩ | ⟨ha, hb⟩ | ⟨ha, hb⟩ <;> rw [ha, hb] <;> rfl

/-- A signature has one twin. -/
theorem unique (hb : Twins a b) (hc : Twins a c) : b = c := by
  obtain ⟨r, s, v⟩ := b
  obtain ⟨r', s', v'⟩ := c
  have hs : s = s' := BitVec.eq_of_toNat_eq (Nat.add_left_cancel (hb.s.trans hc.s.symm))
  rw [Signature.mk.injEq]
  exact ⟨hb.r.symm.trans hc.r, hs, hb.indicator.trans hc.indicator.symm⟩

theorem valid (h : Twins a b) (ha : a.Valid) : b.Valid := by
  obtain ⟨hr, ⟨hs0, hs⟩, -⟩ := ha
  have hpos : 0 < a.s.toNat := Nat.pos_of_ne_zero fun hzero => hs0 (BitVec.eq_of_toNat_eq hzero)
  have hsum := h.s
  refine ⟨h.r ▸ hr, ⟨?_, by omega⟩, ?_⟩
  · intro hzero
    rw [hzero] at hsum
    exact Nat.ne_of_lt hs hsum
  · have hv := h.v
    tauto

/-- Exactly one of twins is canonical. -/
theorem isCanonical_iff_not (h : Twins a b) : a.isCanonical = true ↔ ¬b.isCanonical = true := by
  have hodd : Curve.order = 2 * Curve.halfOrder + 1 := by decide
  have hsum := h.s
  rw [isCanonical_iff, isCanonical_iff]
  omega

theorem indicator_ne (h : Twins a b) : b.v ≠ a.v ↔ a.v ≠ 0 := by
  rcases h.v with ⟨ha, hb⟩ | ⟨ha, hb⟩ | ⟨ha, hb⟩ <;> rw [ha, hb] <;> decide

theorem known_iff (h : Twins a b) : b.v ≠ 0 ↔ a.v ≠ 0 := by
  rcases h.v with ⟨ha, hb⟩ | ⟨ha, hb⟩ | ⟨ha, hb⟩ <;> rw [ha, hb] <;> decide

theorem s_ne (h : Twins a b) : b.s ≠ a.s := by
  intro hs
  have hsum := h.s
  have hodd : Curve.order % 2 = 1 := by decide
  rw [hs] at hsum
  omega

end Twins

/-- The canonical form of a signature is the one of it and its twin that is canonical. -/
theorem toCanonical_cases (h : a.Valid) :
    (a.isCanonical = true ∧ a.toCanonical = a) ∨ (¬a.isCanonical = true ∧ Twins a a.toCanonical) := by
  unfold toCanonical
  split
  · exact .inl ⟨‹_›, rfl⟩
  · exact .inr ⟨‹_›, twins_twin h⟩

/-- What holds of a signature and of its twin holds of the canonical form. -/
theorem toCanonical_induction {motive : Signature → Prop} (h : a.Valid) (self : motive a)
    (twin : ∀ b, Twins a b → motive b) : motive a.toCanonical := by
  rcases toCanonical_cases h with ⟨-, heq⟩ | ⟨-, htwins⟩
  · rwa [heq]
  · exact twin _ htwins

theorem valid_toCanonical (h : a.Valid) : a.toCanonical.Valid :=
  toCanonical_induction h h fun _ htwins => htwins.valid h

theorem r_toCanonical (h : a.Valid) : a.toCanonical.r = a.r :=
  toCanonical_induction (motive := fun b => b.r = a.r) h rfl fun _ htwins => htwins.r.symm

/-- The indicator changes with `s`, where it is known. -/
theorem indicator_toCanonical (h : a.Valid) :
    a.toCanonical.v ≠ a.v ↔ a.toCanonical.s ≠ a.s ∧ a.v ≠ 0 := by
  refine toCanonical_induction (motive := fun b => b.v ≠ a.v ↔ b.s ≠ a.s ∧ a.v ≠ 0) h ?_ fun b htwins => ?_
  · tauto
  · rw [htwins.indicator_ne]
    exact (and_iff_right htwins.s_ne).symm

theorem toCanonical_of_isCanonical (h : a.isCanonical = true) : a.toCanonical = a := if_pos h

/-- Twins have one canonical form. -/
theorem Twins.toCanonical_eq (h : Twins a b) (ha : a.Valid) : a.toCanonical = b.toCanonical := by
  have hopposite := h.isCanonical_iff_not
  rcases toCanonical_cases ha with ⟨hlow, ha'⟩ | ⟨hhigh, ha'⟩ <;>
    rcases toCanonical_cases (h.valid ha) with ⟨hlow', hb'⟩ | ⟨hhigh', hb'⟩
  · exact absurd hlow' (hopposite.1 hlow)
  · rw [ha']
    exact h.symm.unique hb'
  · rw [hb']
    exact ha'.unique h
  · exact absurd (hopposite.2 hhigh') hhigh

theorem toCanonical_eq_iff (ha : a.Valid) (hb : b.Valid) :
    a.toCanonical = b.toCanonical ↔ b = a ∨ Twins a b := by
  constructor
  · intro heq
    rcases toCanonical_cases ha with ⟨-, ha'⟩ | ⟨-, ha'⟩ <;>
      rcases toCanonical_cases hb with ⟨-, hb'⟩ | ⟨-, hb'⟩
    · exact .inl (hb'.symm.trans (heq.symm.trans ha'))
    · rw [← heq, ha'] at hb'
      exact .inr hb'.symm
    · rw [heq, hb'] at ha'
      exact .inr ha'
    · rw [← heq] at hb'
      exact .inl (hb'.symm.unique ha'.symm)
  · rintro (rfl | h)
    · rfl
    · exact h.toCanonical_eq ha

/-- Of a signature and its twin exactly one is canonical. The canonical form is a signature with the same `r` and a
low `s`, which is the order less the `s` of a signature that is not canonical; it is its own canonical form; the
indicator changes with `s` where it is known; and two signatures have one canonical form just when they are twins
or the same. -/
theorem canonical_form (a : Signature) (h : a.Valid) :
    Twins a a.twin ∧
      (∀ b, Twins a b → (a.isCanonical = true ↔ ¬b.isCanonical = true)) ∧
      (¬a.isCanonical = true → a.s.toNat ≤ Curve.order ∧ a.toCanonical.s.toNat = Curve.order - a.s.toNat) ∧
      a.toCanonical.r = a.r ∧ a.toCanonical.s.toNat ≤ Curve.order / 2 ∧ a.toCanonical.Valid ∧
      a.toCanonical.toCanonical = a.toCanonical ∧
      (a.toCanonical.v ≠ a.v ↔ a.toCanonical.s ≠ a.s ∧ a.v ≠ 0) ∧
      ∀ b : Signature, b.Valid → (a.toCanonical = b.toCanonical ↔ b = a ∨ Twins a b) := by
  have hlow := isCanonical_toCanonical h.2.1
  refine ⟨twins_twin h, fun b => Twins.isCanonical_iff_not, fun hhigh => ?_, r_toCanonical h, isCanonical_iff.1 hlow,
    valid_toCanonical h, toCanonical_of_isCanonical hlow, indicator_toCanonical h, fun b => toCanonical_eq_iff h⟩
  have htwins := (toCanonical_cases h).resolve_left fun hcanonical => hhigh hcanonical.1
  have hsum := htwins.2.s
  omega

/-- The least `s` and its twin, the greatest. -/
theorem extreme_twins_canonical_form :
    (⟨1, BitVec.ofNat 256 (Curve.order - 1), 27⟩ : Signature).Valid ∧
      (⟨1, BitVec.ofNat 256 (Curve.order - 1), 27⟩ : Signature).toCanonical = ⟨1, 1, 28⟩ := by
  have hvalid : (⟨1, BitVec.ofNat 256 (Curve.order - 1), 27⟩ : Signature).Valid := by decide
  have hcanonical : (⟨1, 1, 28⟩ : Signature).toCanonical = ⟨1, 1, 28⟩ := toCanonical_of_isCanonical (by decide)
  obtain ⟨-, -, -, -, -, -, -, -, heq⟩ := canonical_form _ hvalid
  refine ⟨hvalid, ((heq ⟨1, 1, 28⟩ (by decide)).2 (.inr ⟨rfl, ?_, by decide⟩)).trans hcanonical⟩
  decide

end Wallet.Signature
