import Wallet.Proofs.BigEndian
import Wallet.Rlp.Decoder
import Wallet.Rlp.Encoder

/-! Headers: the lead byte and the length field that are written before a payload, against the reads
that take them apart. Each read is inverted once (`take_eq_ok`, `longLength_eq_ok`), and the two forms
of a header follow for strings and lists alike (`shortPayload_eq_ok`, `longPayload_eq_ok`). -/

namespace Wallet.Rlp

namespace ItemKind

/-- The first and the last lead byte of a class. -/
def bounds : ItemKind → Nat × Nat
  | .singleByte => (0x00, 0x7f)
  | .empty => (0x80, 0x80)
  | .shortString => (0x81, 0xb7)
  | .longString => (0xb8, 0xbf)
  | .shortList => (0xc0, 0xf7)
  | .longList => (0xf8, 0xff)

theorem classify_eq_iff {lead : UInt8} {kind : ItemKind} :
    classify lead = kind ↔ kind.bounds.1 ≤ lead.toNat ∧ lead.toNat ≤ kind.bounds.2 := by
  have hlt := lead.toNat_lt
  unfold classify
  simp only [UInt8.lt_iff_toNat_lt, UInt8.le_iff_toNat_le, ← UInt8.toNat_inj, UInt8.reduceToNat]
  split_ifs <;> cases kind <;> simp [bounds] <;> omega

end ItemKind

/-- The length field of a long header. -/
def lengthField (length : Nat) : Bytes := Bytes.strip (Bytes.ofNat 8 length)

theorem length_lengthField_le (length : Nat) : (lengthField length).length ≤ 8 :=
  Bytes.length_strip_ofNat_le 8 length

theorem toNat_lengthField {length : Nat} (h : length < UInt64.size) :
    Bytes.toNat (lengthField length) = length := by
  rw [lengthField, Bytes.toNat_strip, Bytes.toNat_ofNat h]

theorem length_lengthField_pos {length : Nat} (h : length < UInt64.size) (hpos : 0 < length) :
    0 < (lengthField length).length := by
  rw [List.length_pos_iff]
  intro hnil
  have := toNat_lengthField h
  rw [hnil, Bytes.toNat_nil] at this
  omega

theorem header_short {length : Nat} (h : length < longFrom) (short long : UInt8) :
    header length short long = [short + UInt8.ofNat length] := if_pos h

theorem header_long {length : Nat} (h : longFrom ≤ length) (short long : UInt8) :
    header length short long =
      (long + UInt8.ofNat (lengthField length).length) :: lengthField length := if_neg (by omega)

namespace Decoder

theorem take_eq_ok {n : UInt64} {s t p : Bytes} :
    take n s = .ok p t ↔ s = p ++ t ∧ p.length = n.toNat := by
  unfold take
  simp only [List.length_take]
  split
  · refine ⟨nofun, ?_⟩
    intro h
    obtain ⟨rfl, hp⟩ := h
    rw [List.length_append] at *
    omega
  · simp only [EStateM.Result.ok.injEq]
    constructor
    · intro h
      obtain ⟨rfl, rfl⟩ := h
      exact ⟨(List.take_append_drop _ _).symm, by rw [List.length_take]; omega⟩
    · intro h
      obtain ⟨rfl, hp⟩ := h
      rw [← hp]
      exact ⟨List.take_left, List.drop_left⟩

theorem joined_concat (init : Bytes) (b : UInt8) :
    joined (init ++ [b]) = joined init <<< 8 ||| b.toUInt64 := by
  simp [joined]

/-- Up to eight bytes are shifted together without loss. -/
theorem toNat_joined {bs : Bytes} (h : bs.length ≤ 8) : (joined bs).toNat = Bytes.toNat bs := by
  induction bs using List.reverseRecOn with
  | nil => rfl
  | append_singleton init b ih =>
    rw [List.length_append, List.length_singleton] at h
    have hlt : Bytes.toNat init < 256 ^ 7 :=
      (Bytes.toNat_lt init).trans_le (Nat.pow_le_pow_right (by decide) (by omega))
    have hor := Nat.two_pow_add_eq_or_of_lt b.toNat_lt (Bytes.toNat init)
    rw [joined_concat, Bytes.toNat_concat, UInt64.toNat_or, UInt64.toNat_shiftLeft, ih (by omega),
      UInt8.toNat_toUInt64, Nat.shiftLeft_eq, show (8 : UInt64).toNat % 64 = 8 from rfl,
      Nat.mod_eq_of_lt (by omega), Nat.mul_comm, ← hor]

theorem longLength_eq_ok {w : UInt8} {n : UInt64} {s t : Bytes} :
    longLength w s = .ok n t ↔
      longFrom ≤ n.toNat ∧ w.toNat = (lengthField n.toNat).length ∧ s = lengthField n.toNat ++ t := by
  simp only [longLength, bind_eq_ok, rejectIf_eq_ok, pure_eq_ok, take_eq_ok]
  constructor
  · intro h
    obtain ⟨_, _, ⟨hw, rfl⟩, field, _, ⟨rfl, hlen⟩, _, _, ⟨hzero, rfl⟩, _, _, ⟨hlong, rfl⟩, rfl, rfl⟩ := h
    rw [UInt8.lt_iff_toNat_lt, show (8 : UInt8).toNat = 8 from rfl] at hw
    rw [UInt8.toNat_toUInt64] at hlen
    have hfield : lengthField (joined field).toNat = field := by
      rw [toNat_joined (by omega)]
      exact Bytes.strip_ofNat_toNat hzero (by omega)
    rw [hfield]
    exact ⟨by omega, hlen.symm, rfl⟩
  · intro h
    obtain ⟨hlong, hw, rfl⟩ := h
    have hle := length_lengthField_le n.toNat
    have hn : joined (lengthField n.toNat) = n := by
      rw [← UInt64.toNat_inj, toNat_joined hle, toNat_lengthField n.toNat_lt]
    refine ⟨(), _, ⟨?_, rfl⟩, lengthField n.toNat, t, ⟨rfl, ?_⟩, (), t, ⟨Bytes.head?_strip _, rfl⟩, (), t,
      ⟨?_, rfl⟩, hn, rfl⟩
    · rw [UInt8.lt_iff_toNat_lt, hw]
      exact hle.not_gt
    · rw [UInt8.toNat_toUInt64, hw]
    · rw [hn]
      omega

/-- A payload behind a lead byte that holds its length. -/
theorem shortPayload_eq_ok {lead base long : UInt8} {s t p : Bytes} (hlow : base.toNat ≤ lead.toNat)
    (hhigh : lead.toNat < base.toNat + longFrom) :
    take (lead - base).toUInt64 s = .ok p t ↔
      p.length < longFrom ∧ lead :: s = header p.length base long ++ p ++ t := by
  have hlt := lead.toNat_lt
  have hlead : p.length < longFrom →
      (lead = base + UInt8.ofNat p.length ↔ p.length = (lead - base).toNat) := by
    intro hp
    rw [longFrom] at hp
    rw [← UInt8.toNat_inj, UInt8.toNat_add, UInt8.toNat_ofNat', UInt8.toNat_sub]
    omega
  rw [take_eq_ok, UInt8.toNat_toUInt64]
  constructor
  · intro h
    obtain ⟨rfl, hp⟩ := h
    have hp' : p.length < longFrom := by
      rw [hp, UInt8.toNat_sub]
      omega
    exact ⟨hp', by rw [header_short hp', ← (hlead hp').2 hp]; rfl⟩
  · intro h
    obtain ⟨hp, hs⟩ := h
    rw [header_short hp, List.append_assoc, List.singleton_append, List.cons.injEq] at hs
    exact ⟨hs.2, (hlead hp).1 hs.1⟩

/-- A payload behind a lead byte and a length field. -/
theorem longPayload_eq_ok (short : UInt8) {lead base : UInt8} {s t p : Bytes} :
    (longLength (lead - base) >>= take) s = .ok p t ↔
      longFrom ≤ p.length ∧ p.length < UInt64.size ∧ lead :: s = header p.length short base ++ p ++ t := by
  have hlt := lead.toNat_lt
  have hlead (n : Nat) : (lead - base).toNat = (lengthField n).length ↔
      lead = base + UInt8.ofNat (lengthField n).length := by
    have hbase := base.toNat_lt
    have hlen := length_lengthField_le n
    rw [← UInt8.toNat_inj (a := lead), UInt8.toNat_add, UInt8.toNat_ofNat', UInt8.toNat_sub]
    omega
  simp only [bind_eq_ok, longLength_eq_ok, take_eq_ok]
  constructor
  · intro h
    obtain ⟨n, _, ⟨hlong, hw, rfl⟩, rfl, hp⟩ := h
    rw [← hp] at hlong hw ⊢
    refine ⟨hlong, hp ▸ n.toNat_lt, ?_⟩
    rw [header_long hlong, ← (hlead _).1 hw, List.cons_append, List.cons_append, List.append_assoc]
  · intro h
    obtain ⟨hlong, hsize, hs⟩ := h
    rw [header_long hlong, List.cons_append, List.cons_append, List.append_assoc, List.cons.injEq] at hs
    have hn : (UInt64.ofNat p.length).toNat = p.length := UInt64.toNat_ofNat_of_lt' hsize
    refine ⟨UInt64.ofNat p.length, p ++ t, ?_, rfl, hn.symm⟩
    rw [hn]
    exact ⟨hlong, (hlead _).2 hs.1, hs.2⟩

end Decoder
end Wallet.Rlp
