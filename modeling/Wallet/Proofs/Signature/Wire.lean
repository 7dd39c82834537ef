import Wallet.Proofs.BigEndian
import Wallet.Proofs.Signature.Range

/-! Signatures as bytes: the compact form of two halves, and the recoverable form, in which an indicator follows. Both
readings accept exactly what the writings give back, up to the two spellings of the indicator (`ofBytes_eq_ok`,
`ofRecoverable_eq_ok`). Main statement: `wire_forms`. -/

namespace Wallet.Signature

/-- Whether half of a compact form writes a number from 1 to the order less 1. -/
def IsScalar (half : Bytes) : Prop := 1 ≤ half.toNat ∧ half.toNat ≤ Curve.order - 1

instance (half : Bytes) : Decidable (IsScalar half) := inferInstanceAs (Decidable (_ ∧ _))

/-- The spellings of an indicator that is known. -/
def spellings : List UInt8 := [0, 1, 27, 28]

/-- The indicator that a spelling stands for. -/
def normalized (last : UInt8) : UInt8 := if last = 0 ∨ last = 27 then 27 else 28

/-- What is wrong with 64 bytes that are no compact form: `r` is looked at first. -/
def RangeFailure (bs : Bytes) (e : SignatureError) : Prop :=
  ¬IsScalar (bs.take 32) ∧ e = .outOfRange .r ∨
    IsScalar (bs.take 32) ∧ ¬IsScalar (bs.drop 32) ∧ e = .outOfRange .s

variable {bs half : Bytes} {last : UInt8} {σ : Signature} {e : SignatureError}

/-! The compact form -/

theorem inRange_ofBytes (h : half.length ≤ 32) : InRange (Word.ofBytes half) ↔ IsScalar half := by
  have hpos : Word.ofBytes half ≠ 0 ↔ 1 ≤ half.toNat := by
    rw [Nat.one_le_iff_ne_zero, ← Word.toNat_ofBytes h]
    exact BitVec.toNat_ne_iff_ne.symm
  have horder : 0 < Curve.order := by decide
  rw [InRange, IsScalar, hpos, Word.toNat_ofBytes h, Nat.le_sub_one_iff_lt horder]

theorem length_bytes (σ : Signature) : σ.bytes.length = 64 := by
  rw [bytes, List.length_append, Word.length_toBytes, Word.length_toBytes]

theorem take_bytes (σ : Signature) : σ.bytes.take 32 = σ.r.toBytes := List.take_left' σ.r.length_toBytes

theorem drop_bytes (σ : Signature) : σ.bytes.drop 32 = σ.s.toBytes := List.drop_left' σ.r.length_toBytes

theorem ofBytes_of_length_ne (h : bs.length ≠ 64) : ofBytes bs = .error (.wrongLength 64 bs.length) := if_pos h

theorem ofBytes_of_length (h : bs.length = 64) :
    ofBytes bs = make (Word.ofBytes (bs.take 32)) (Word.ofBytes (bs.drop 32)) 0 := if_neg (not_not.2 h)

theorem length_of_ofBytes (h : ofBytes bs = .ok σ) : bs.length = 64 := by
  by_contra hlength
  rw [ofBytes_of_length_ne hlength] at h
  cases h

/-- What is accepted is what a signature without an indicator is written as. -/
theorem ofBytes_eq_ok : ofBytes bs = .ok σ ↔ σ.Valid ∧ σ.v = 0 ∧ σ.bytes = bs := by
  constructor
  · intro h
    have hlength := length_of_ofBytes h
    have hr : (bs.take 32).length = 32 := List.length_take_of_le (by omega)
    have hs : (bs.drop 32).length = 32 := by rw [List.length_drop, hlength]
    rw [ofBytes_of_length hlength] at h
    obtain ⟨rfl, -⟩ := make_eq_ok.1 h
    refine ⟨valid_of_make h, rfl, ?_⟩
    simp only [bytes, Word.toBytes_ofBytes hr, Word.toBytes_ofBytes hs, List.take_append_drop]
  · rintro ⟨⟨hr, hs, -⟩, hv, rfl⟩
    rw [ofBytes_of_length σ.length_bytes, take_bytes, drop_bytes, Word.ofBytes_toBytes, Word.ofBytes_toBytes]
    exact make_eq_ok.2 ⟨by rw [← hv], hr, hs, .inl rfl⟩

theorem ofBytes_bytes (hr : InRange σ.r) (hs : InRange σ.s) : ofBytes σ.bytes = .ok { σ with v := 0 } :=
  ofBytes_eq_ok.2 ⟨⟨hr, hs, .inl rfl⟩, rfl, rfl⟩

theorem ofBytes_eq (h : bs.length = 64) :
    ofBytes bs =
      if ¬IsScalar (bs.take 32) then .error (.outOfRange .r)
      else if ¬IsScalar (bs.drop 32) then .error (.outOfRange .s)
      else .ok ⟨Word.ofBytes (bs.take 32), Word.ofBytes (bs.drop 32), 0⟩ := by
  have hr : (bs.take 32).length ≤ 32 := List.length_take_le 32 bs
  have hs : (bs.drop 32).length ≤ 32 := by rw [List.length_drop, h]
  have hv : ¬((0 : UInt8) ≠ 0 ∧ (0 : UInt8) ≠ lowestV ∧ (0 : UInt8) ≠ lowestV + 1) := by decide
  rw [ofBytes_of_length h, make, if_neg hv]
  simp only [inRange_ofBytes hr, inRange_ofBytes hs]

theorem exists_ofBytes :
    (∃ σ, ofBytes bs = .ok σ) ↔ bs.length = 64 ∧ IsScalar (bs.take 32) ∧ IsScalar (bs.drop 32) := by
  constructor
  · rintro ⟨σ, h⟩
    obtain ⟨⟨hr, hs, -⟩, -, rfl⟩ := ofBytes_eq_ok.1 h
    refine ⟨σ.length_bytes, ?_, ?_⟩
    · rwa [take_bytes, ← inRange_ofBytes σ.r.length_toBytes.le, Word.ofBytes_toBytes]
    · rwa [drop_bytes, ← inRange_ofBytes σ.s.length_toBytes.le, Word.ofBytes_toBytes]
  · rintro ⟨hlength, hr, hs⟩
    exact ⟨_, by rw [ofBytes_eq hlength, if_neg (not_not.2 hr), if_neg (not_not.2 hs)]⟩

theorem ofBytes_eq_error :
    ofBytes bs = .error e ↔
      bs.length ≠ 64 ∧ e = .wrongLength 64 bs.length ∨ bs.length = 64 ∧ RangeFailure bs e := by
  by_cases hlength : bs.length = 64
  · rw [ofBytes_eq hlength, RangeFailure]
    by_cases hr : IsScalar (bs.take 32) <;> by_cases hs : IsScalar (bs.drop 32) <;> simp [hlength, hr, hs, eq_comm]
  · rw [ofBytes_of_length_ne hlength]
    simp [hlength, eq_comm]

/-! The recoverable form -/

theorem indicator?_eq (last : UInt8) :
    indicator? last = if last ∈ spellings then some (normalized last) else none := by
  simp only [indicator?, spellings, normalized, lowestV, List.mem_cons, List.not_mem_nil, or_false]
  split
  · rename_i h
    obtain rfl | rfl := h <;> rfl
  · split
    · rename_i h
      obtain rfl | rfl := h <;> rfl
    · rename_i hlow hhigh
      rw [if_neg (by tauto)]

theorem ofRecoverable_of_length_ne (h : bs.length ≠ 65) : ofRecoverable bs = .error (.wrongLength 65 bs.length) :=
  if_pos h

theorem exists_last (h : bs.length = 65) : ∃ last, bs[64]? = some last :=
  ⟨bs[64], List.getElem?_eq_getElem (by omega)⟩

theorem ofRecoverable_eq (hlength : bs.length = 65) (hlast : bs[64]? = some last) :
    ofRecoverable bs =
      if last ∈ spellings then (ofBytes (bs.take 64)).map fun σ => { σ with v := normalized last }
      else .error (.invalidV last) := by
  have hlast : bs.getD size 0 = last := by rw [List.getD_eq_getElem?_getD, size, hlast, Option.getD_some]
  simp only [ofRecoverable, recoverableSize, hlength, ne_eq, not_true_eq_false, if_false, hlast, indicator?_eq]
  by_cases hspelling : last ∈ spellings
  · simp only [if_pos hspelling, size]
  · simp only [if_neg hspelling]

/-- What is accepted is read like the compact form in front of the indicator. -/
theorem ofRecoverable_eq_ok :
    ofRecoverable bs = .ok σ ↔
      bs.length = 65 ∧ ∃ last ∈ spellings, bs[64]? = some last ∧
        ∃ τ, ofBytes (bs.take 64) = .ok τ ∧ σ = { τ with v := normalized last } := by
  by_cases hlength : bs.length = 65
  · obtain ⟨last, hlast⟩ := exists_last hlength
    rw [ofRecoverable_eq hlength hlast]
    simp only [hlength, hlast, Option.some.injEq, true_and, and_left_comm, exists_eq_left']
    by_cases hspelling : last ∈ spellings
    · cases ofBytes (bs.take 64) <;> simp [hspelling, Except.map, eq_comm]
    · simp [hspelling]
  · rw [ofRecoverable_of_length_ne hlength]
    simp [hlength]

theorem exists_ofRecoverable :
    (∃ σ, ofRecoverable bs = .ok σ) ↔
      bs.length = 65 ∧ (∃ last ∈ spellings, bs[64]? = some last) ∧ ∃ σ, ofBytes (bs.take 64) = .ok σ := by
  constructor
  · rintro ⟨σ, h⟩
    obtain ⟨hlength, last, hspelling, hlast, τ, hτ, -⟩ := ofRecoverable_eq_ok.1 h
    exact ⟨hlength, ⟨last, hspelling, hlast⟩, τ, hτ⟩
  · rintro ⟨hlength, ⟨last, hspelling, hlast⟩, τ, hτ⟩
    exact ⟨_, ofRecoverable_eq_ok.2 ⟨hlength, last, hspelling, hlast, τ, hτ, rfl⟩⟩

theorem normalized_ne_zero (last : UInt8) : normalized last ≠ 0 := by
  unfold normalized
  split <;> decide

theorem recoverableBytes?_of_ofRecoverable (h : ofRecoverable bs = .ok σ) :
    ∃ last, bs[64]? = some last ∧ σ.recoverableBytes? = some (bs.take 64 ++ [normalized last]) := by
  obtain ⟨-, last, -, hlast, τ, hτ, rfl⟩ := ofRecoverable_eq_ok.1 h
  refine ⟨last, hlast, ?_⟩
  rw [recoverableBytes?, if_neg (normalized_ne_zero last), ← (ofBytes_eq_ok.1 hτ).2.2]
  rfl

theorem recoverableBytes?_eq_none : σ.recoverableBytes? = none ↔ σ.v = 0 := by
  unfold recoverableBytes?
  split <;> simp [*]

theorem ofRecoverable_recoverableBytes? (hσ : σ.Valid) (h : σ.recoverableBytes? = some bs) :
    ofRecoverable bs = .ok σ := by
  obtain ⟨hr, hs, hv⟩ := hσ
  have hknown : σ.v ≠ 0 := fun hzero => by
    rw [recoverableBytes?_eq_none.2 hzero] at h
    cases h
  rw [recoverableBytes?, if_neg hknown, Option.some.injEq] at h
  subst h
  -- an indicator that is known is one of its own spellings
  have hnormal : σ.v ∈ spellings ∧ normalized σ.v = σ.v := by
    obtain hzero | hv | hv := hv
    · exact absurd hzero hknown
    all_goals
      rw [hv]
      decide
  refine ofRecoverable_eq_ok.2 ⟨?_, σ.v, hnormal.1, ?_, { σ with v := 0 }, ?_, ?_⟩
  · rw [List.length_append, length_bytes, List.length_singleton]
  · rw [List.getElem?_append_right σ.length_bytes.le, length_bytes]
    rfl
  · rw [List.take_left' σ.length_bytes, ofBytes_bytes hr hs]
  · rw [hnormal.2]

theorem ofRecoverable_eq_error :
    ofRecoverable bs = .error e ↔
      bs.length ≠ 65 ∧ e = .wrongLength 65 bs.length ∨
      bs.length = 65 ∧ ∃ last, bs[64]? = some last ∧
        (last ∉ spellings ∧ e = .invalidV last ∨ last ∈ spellings ∧ RangeFailure (bs.take 64) e) := by
  by_cases hlength : bs.length = 65
  · obtain ⟨last, hlast⟩ := exists_last hlength
    have hhalf : (bs.take 64).length = 64 := List.length_take_of_le (by omega)
    have hrange : ofBytes (bs.take 64) = .error e ↔ RangeFailure (bs.take 64) e := by
      rw [ofBytes_eq_error]
      simp only [hhalf, ne_eq, not_true_eq_false, false_and, false_or, true_and]
    rw [ofRecoverable_eq hlength hlast, ← hrange]
    simp only [hlength, hlast, ne_eq, not_true_eq_false, false_and, false_or, true_and, Option.some.injEq,
      exists_eq_left']
    by_cases hspelling : last ∈ spellings
    · cases ofBytes (bs.take 64) <;> simp [hspelling, Except.map]
    · simp [hspelling, eq_comm]
  · rw [ofRecoverable_of_length_ne hlength]
    simp [hlength, eq_comm]

/-- The bytes that are accepted in either form, what they are written as again, the signatures that are read back from
their forms, and the failures in their order. -/
theorem wire_forms :
    (∀ bs, (∃ σ, ofBytes bs = .ok σ) ↔ bs.length = 64 ∧ IsScalar (bs.take 32) ∧ IsScalar (bs.drop 32)) ∧
    (∀ bs σ, ofBytes bs = .ok σ → σ.bytes = bs ∧ σ.v = 0) ∧
    (∀ bs, (∃ σ, ofRecoverable bs = .ok σ) ↔
      bs.length = 65 ∧ (∃ last ∈ spellings, bs[64]? = some last) ∧ ∃ σ, ofBytes (bs.take 64) = .ok σ) ∧
    (∀ bs σ, ofRecoverable bs = .ok σ →
      ∃ last, bs[64]? = some last ∧ σ.recoverableBytes? = some (bs.take 64 ++ [normalized last])) ∧
    (∀ σ : Signature, σ.Valid →
      ofBytes σ.bytes = .ok { σ with v := 0 } ∧ (σ.recoverableBytes? = none ↔ σ.v = 0) ∧
      ∀ bs, σ.recoverableBytes? = some bs → ofRecoverable bs = .ok σ) ∧
    (∀ bs e, ofBytes bs = .error e ↔
      bs.length ≠ 64 ∧ e = .wrongLength 64 bs.length ∨ bs.length = 64 ∧ RangeFailure bs e) ∧
    ∀ bs e, ofRecoverable bs = .error e ↔
      bs.length ≠ 65 ∧ e = .wrongLength 65 bs.length ∨
      bs.length = 65 ∧ ∃ last, bs[64]? = some last ∧
        (last ∉ spellings ∧ e = .invalidV last ∨ last ∈ spellings ∧ RangeFailure (bs.take 64) e) := by
  refine ⟨fun _ => exists_ofBytes, fun _ _ h => ?_, fun _ => exists_ofRecoverable,
    fun _ _ => recoverableBytes?_of_ofRecoverable, fun σ hvalid => ?_, fun _ _ => ofBytes_eq_error,
    fun _ _ => ofRecoverable_eq_error⟩
  · obtain ⟨-, hv, hbytes⟩ := ofBytes_eq_ok.1 h
    exact ⟨hbytes, hv⟩
  · have ⟨hr, hs, _⟩ := hvalid
    exact ⟨ofBytes_bytes hr hs, recoverableBytes?_eq_none, fun _ => ofRecoverable_recoverableBytes? hvalid⟩

def smallSignature : Signature := ⟨5, 6, 28⟩

/-- The indicator 28 spelled as 1 is read as 28, and as 2 not at all. -/
theorem small_wire_forms :
    smallSignature.Valid ∧ ofBytes smallSignature.bytes = .ok ⟨5, 6, 0⟩ ∧
    ofRecoverable (smallSignature.bytes ++ [28]) = .ok smallSignature ∧
    (∃ σ, ofRecoverable (smallSignature.bytes ++ [1]) = .ok σ ∧
      σ.recoverableBytes? = some (smallSignature.bytes ++ [28])) ∧
    ofRecoverable (smallSignature.bytes ++ [2]) = .error (.invalidV 2) := by
  have hvalid : smallSignature.Valid := by decide
  obtain ⟨-, -, haccepts, hwrites, hreads, -, hfails⟩ := wire_forms
  obtain ⟨hcompact, -, hrecoverable⟩ := hreads smallSignature hvalid
  refine ⟨hvalid, hcompact, hrecoverable _ rfl, ?_, ?_⟩
  · have htake : (smallSignature.bytes ++ [1]).take 64 = smallSignature.bytes := rfl
    obtain ⟨σ, hσ⟩ := (haccepts (smallSignature.bytes ++ [1])).2 ⟨rfl, ⟨1, by decide, rfl⟩, _, htake ▸ hcompact⟩
    obtain ⟨last, hlast, hbytes⟩ := hwrites _ σ hσ
    cases hlast
    exact ⟨σ, hσ, hbytes⟩
  · exact (hfails _ _).2 (.inr ⟨rfl, 2, rfl, .inl ⟨by decide, rfl⟩⟩)

end Wallet.Signature
