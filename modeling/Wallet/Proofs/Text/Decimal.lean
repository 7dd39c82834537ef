import Wallet.Proofs.BigEndian
import Wallet.Proofs.Outcome
import Wallet.Proofs.Text.Digits
import Wallet.Text.Decimal

/-! Decimal texts. The texts that are read as a word are the runs of decimal digits that write its number
(`parse_eq_ok`): a word has room for a number as soon as it has room for the number of more digits, so the reading
does not stop before the end. -/

namespace Wallet.Decimal

open Text

variable {c : Char} {b : UInt8} {ds : List Char} {d : Bytes} {w v : Word} {text : String}

theorem le_numberFrom (n : Nat) (ds : List Char) : n ≤ numberFrom 10 n ds := by
  unfold numberFrom
  induction ds generalizing n with
  | nil => exact le_rfl
  | cons c ds ih =>
    rw [List.foldl_cons]
    exact le_trans (by omega) (ih _)

theorem isDigit_byte (h : c.toNat < 128) : ¬(byte c < 0x30 ∨ 0x39 < byte c) ↔ digitValue c < 10 := by
  refine forall_ascii h ?_
  decide +kernel

theorem toNat_byte_sub (h : digitValue c < 10) : (byte c - 0x30).toNat = digitValue c := by
  have hascii : c.toNat < 128 := toNat_lt_of_digit (h.trans (by decide))
  revert h
  refine forall_ascii hascii ?_
  decide +kernel

theorem append_byte (h : digitValue c < 10) :
    append w (byte c) = .ok v ↔ w.toNat * 10 + digitValue c = v.toNat := by
  have hdigit := (isDigit_byte (toNat_lt_of_digit (h.trans (by decide)))).2 h
  rw [append, if_neg hdigit, toNat_byte_sub h]
  dsimp only
  constructor
  · intro hv
    split at hv
    · rename_i hlt
      cases hv
      exact (Nat.mod_eq_of_lt hlt).symm
    · cases hv
  · intro hv
    have hlt : w.toNat * 10 + digitValue c < Word.count := hv ▸ v.isLt
    rw [if_pos hlt, hv, BitVec.ofNat_toNat, BitVec.setWidth_eq]

theorem exists_digit_of_append (h : append w b = .ok v) : ∃ c, digitValue c < 10 ∧ byte c = b := by
  have hdigit : ¬(b < 0x30 ∨ 0x39 < b) := by
    intro hnone
    rw [append, if_pos hnone] at h
    cases h
  have hascii : ∀ b' ∈ [b], b'.toNat < 128 := by
    rw [List.forall_mem_singleton]
    have hle : b.toNat ≤ 57 := UInt8.le_iff_toNat_le.1 (UInt8.not_lt.1 fun hlt => hdigit (.inr hlt))
    exact Nat.lt_of_le_of_lt hle (by decide)
  obtain ⟨cs, hcs, hbytes⟩ := exists_ascii hascii
  obtain ⟨c, rfl, rfl⟩ := List.map_eq_singleton_iff.1 hbytes
  exact ⟨c, (isDigit_byte (hcs c List.mem_cons_self)).1 hdigit, rfl⟩

/-- Behind a word, the digits are read that write with it a number for which a word has room. -/
theorem foldlM_append_eq_ok :
    d.foldlM append w = .ok v ↔ ∃ ds, IsNumeral 10 ds ∧ ds.map byte = d ∧ numberFrom 10 w.toNat ds = v.toNat := by
  induction d generalizing w with
  | nil =>
    rw [List.foldlM_nil, Outcome.pure_eq_ok]
    constructor
    · rintro rfl
      exact ⟨[], nofun, rfl, rfl⟩
    · rintro ⟨ds, -, hbytes, hnumber⟩
      rw [List.map_eq_nil_iff.1 hbytes] at hnumber
      exact BitVec.eq_of_toNat_eq hnumber
  | cons b d ih =>
    rw [List.foldlM_cons, Outcome.bind_eq_ok]
    constructor
    · rintro ⟨w', happend, hrest⟩
      obtain ⟨c, hc, rfl⟩ := exists_digit_of_append happend
      obtain ⟨ds, hds, rfl, hnumber⟩ := ih.1 hrest
      rw [← (append_byte hc).1 happend] at hnumber
      exact ⟨c :: ds, List.forall_mem_cons.2 ⟨hc, hds⟩, rfl, hnumber⟩
    · rintro ⟨ds, hds, hbytes, hnumber⟩
      obtain ⟨c, ds, rfl, rfl, rfl⟩ := List.map_eq_cons_iff.1 hbytes
      obtain ⟨hc, hds⟩ := List.forall_mem_cons.1 hds
      -- the number of the first digits is not above the number of all
      have hle : w.toNat * 10 + digitValue c ≤ v.toNat := hnumber ▸ le_numberFrom _ ds
      have hval : (BitVec.ofNat 256 (w.toNat * 10 + digitValue c)).toNat = w.toNat * 10 + digitValue c :=
        Nat.mod_eq_of_lt (hle.trans_lt v.isLt)
      refine ⟨_, (append_byte hc).2 hval.symm, ih.2 ⟨ds, hds, rfl, ?_⟩⟩
      rw [hval]
      exact hnumber

theorem parse_eq_ok :
    parse text = .ok w ↔ ∃ ds, IsNumeral 10 ds ∧ text = String.ofList ds ∧ number 10 ds = w.toNat := by
  unfold parse
  rw [foldlM_append_eq_ok]
  constructor
  · rintro ⟨ds, hds, hbytes, hnumber⟩
    refine ⟨ds, hds, ?_, hnumber⟩
    rw [← utf8_inj, utf8_ofList (hds.isAscii (by decide)), hbytes]
  · rintro ⟨ds, hds, rfl, hnumber⟩
    exact ⟨ds, hds, (utf8_ofList (hds.isAscii (by decide))).symm, hnumber⟩

end Wallet.Decimal
