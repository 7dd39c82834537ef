import Wallet.Proofs.Key.Notation
import Wallet.Tape

/-! Where on the source the bytes of a tape come from. A tape that has drawn `n` bytes of a source reads on from
there (`Reads`), so that what it gives next is the segment at that place, and drawing moves the place by as
much. A private key is drawn from the first block whose number is one (`drawKey_eq`): the blocks before it
are passed over, and the tape stops right behind it. Behind the bytes that were given every block is a key, so that
drawing comes to an end within as many blocks as these bytes fill, and one more (`drawWithin_blocks`). -/

namespace Wallet

/-- So many bytes of a source from a place on: those that were given, and then 1 for ever. -/
def segment (source : Bytes) (start length : Nat) : Bytes :=
  List.ofFn fun i : Fin length => source.getD (start + i) 1

/-- Whether a block writes a number from 1 to the order less 1. -/
def IsKey (block : Bytes) : Prop := 0 < block.toNat ∧ block.toNat < Curve.order

namespace Tape

variable {tape : Tape} {source : Bytes}

/-! Places -/

@[simp]
theorem drawn_advance (tape : Tape) (n : Nat) : (tape.advance n).drawn = tape.drawn + n := rfl

@[simp]
theorem advance_advance (tape : Tape) (m n : Nat) : (tape.advance m).advance n = tape.advance (m + n) := by
  simp only [advance, List.drop_drop, Nat.add_assoc]

/-- What is left of the source is what the tape has not yet drawn. -/
def Reads (tape : Tape) (source : Bytes) : Prop := tape.unread = source.drop tape.drawn

theorem reads_ofBytes (source : Bytes) : (ofBytes source).Reads source := rfl

theorem Reads.advance (h : tape.Reads source) (n : Nat) : (tape.advance n).Reads source := by
  rw [Reads, Tape.advance, h, List.drop_drop]

/-- The tape is the one of the source, moved to its place. -/
theorem Reads.eq_advance (h : tape.Reads source) : tape = (ofBytes source).advance tape.drawn := by
  rw [Tape.advance, ofBytes, ← show tape.unread = source.drop tape.drawn from h, Nat.zero_add]

theorem Reads.take_eq (h : tape.Reads source) (n : Nat) : tape.take n = segment source tape.drawn n := by
  simp only [take, segment, show tape.unread = source.drop tape.drawn from h, List.getD_eq_getElem?_getD,
    List.getElem?_drop]

/-! Drawing a key -/

theorem key?_eq_some_iff {key : PrivateKey} :
    tape.key? = some key ↔ 0 < (tape.take 32).toNat ∧ key.scalar.val = (tape.take 32).toNat := by
  rw [← PrivateKey.ofBytes_eq_ok_iff (tape.length_take 32), key?]
  cases PrivateKey.ofBytes (tape.take 32) with
  | error e => simp only [Except.toOption, reduceCtorEq]
  | ok found => rw [Except.toOption, Option.some.injEq, Except.ok.injEq]

theorem key?_eq_none_iff : tape.key? = none ↔ ¬IsKey (tape.take 32) := by
  rw [← not_iff_not, not_not, ← Ne, Option.ne_none_iff_exists']
  simp only [key?_eq_some_iff]
  constructor
  · rintro ⟨key, hpos, hval⟩
    exact ⟨hpos, hval ▸ key.scalar.isLt⟩
  · rintro ⟨hpos, hlt⟩
    obtain ⟨key, hkey⟩ := PrivateKey.ofNat_eq_ok hpos.ne' hlt
    exact ⟨key, PrivateKey.ofNat_eq_ok_iff.1 hkey⟩

theorem drawKey_of_some {key : PrivateKey} (h : tape.key? = some key) :
    tape.drawKey = (key, tape.advance 32) := by
  rw [drawKey]
  split
  · rename_i found hfound
    rw [h] at hfound
    cases hfound
    rfl
  · rename_i hnone
    rw [h] at hnone
    cases hnone

theorem drawKey_of_none (h : tape.key? = none) : tape.drawKey = (tape.advance 32).drawKey := by
  conv_lhs => rw [drawKey]
  split
  · rename_i found hfound
    rw [h] at hfound
    cases hfound
  · rfl

/-- The key that is drawn stands in the first block that is one. -/
theorem drawKey_eq (tape : Tape) :
    ∃ rejected, (∀ j < rejected, (tape.advance (32 * j)).key? = none) ∧
      (tape.advance (32 * rejected)).key? = some tape.drawKey.1 ∧
      tape.drawKey.2 = tape.advance (32 * (rejected + 1)) := by
  induction tape using Tape.drawKey.induct with
  | case1 tape key hkey =>
    refine ⟨0, nofun, ?_, ?_⟩
    · rw [drawKey_of_some hkey]
      exact hkey
    · rw [drawKey_of_some hkey]
  | case2 tape hnone ih =>
    obtain ⟨rejected, hrejected, hkey, hrest⟩ := ih
    simp only [advance_advance] at hrejected hkey hrest
    refine ⟨rejected + 1, fun j hj => ?_, ?_, ?_⟩
    · cases j with
      | zero => exact hnone
      | succ j =>
        rw [show 32 * (j + 1) = 32 + 32 * j by omega]
        exact hrejected j (by omega)
    · rw [drawKey_of_none hnone, show 32 * (rejected + 1) = 32 + 32 * rejected by omega]
      exact hkey
    · rw [drawKey_of_none hnone, hrest, show 32 * (rejected + 1 + 1) = 32 + 32 * (rejected + 1) by omega]

/-! How many blocks are drawn -/

/-- The blocks that the unread bytes fill, the last one perhaps in part. -/
def blocks (tape : Tape) : Nat := (tape.unread.length + 31) / 32

theorem unread_advance_blocks (tape : Tape) : (tape.advance (32 * tape.blocks)).unread = [] := by
  rw [advance, List.drop_eq_nil_iff, blocks]
  omega

/-- Behind the unread bytes no block is refused. -/
theorem le_blocks {rejected : Nat} (h : ∀ j < rejected, (tape.advance (32 * j)).key? = none) :
    rejected ≤ tape.blocks := by
  by_contra hlt
  exact unread_ne_nil _ (h tape.blocks (Nat.lt_of_not_le hlt)) tape.unread_advance_blocks

/-- Drawing that is given up after so many blocks. -/
def drawWithin : Nat → Tape → Option (PrivateKey × Tape)
  | 0, _ => none
  | tries + 1, tape =>
    match tape.key? with
    | some key => some (key, tape.advance 32)
    | none => drawWithin tries (tape.advance 32)

/-- Drawing is given up only if the bytes that it takes are more than the blocks that it may take. -/
theorem drawWithin_eq (tries : Nat) (tape : Tape) :
    tape.drawWithin tries =
      if tape.drawn + 32 * tries < tape.drawKey.2.drawn then none else some tape.drawKey := by
  induction tries generalizing tape with
  | zero =>
    obtain ⟨rejected, -, -, hrest⟩ := tape.drawKey_eq
    have hdrawn : tape.drawKey.2.drawn = tape.drawn + 32 * (rejected + 1) := by rw [hrest, drawn_advance]
    rw [drawWithin, if_pos (by omega)]
  | succ tries ih =>
    cases hkey : tape.key? with
    | some key =>
      rw [drawKey_of_some hkey, drawn_advance, if_neg (by omega)]
      simp only [drawWithin, hkey]
    | none =>
      have hplace : tape.drawn + 32 + 32 * tries = tape.drawn + 32 * (tries + 1) := by omega
      rw [drawKey_of_none hkey, ← hplace, ← drawn_advance, ← ih]
      simp only [drawWithin, hkey]

/-- Drawing takes no more than the blocks that the unread bytes fill, and one more. -/
theorem drawn_drawKey_le (tape : Tape) : tape.drawKey.2.drawn ≤ tape.drawn + 32 * (tape.blocks + 1) := by
  obtain ⟨rejected, hrejected, -, hrest⟩ := tape.drawKey_eq
  have hle := le_blocks hrejected
  rw [hrest, drawn_advance]
  omega

theorem drawWithin_blocks (tape : Tape) : tape.drawWithin (tape.blocks + 1) = some tape.drawKey := by
  rw [drawWithin_eq, if_neg (Nat.not_lt.2 tape.drawn_drawKey_le)]

theorem Reads.blocks_eq (h : tape.Reads source) : tape.blocks = (source.length - tape.drawn + 31) / 32 := by
  rw [blocks, show tape.unread = source.drop tape.drawn from h, List.length_drop]

/-- A key that is drawn from a source: the number of the first block that writes one. -/
theorem Reads.drawKey_eq (h : tape.Reads source) :
    ∃ rejected, (∀ j < rejected, ¬IsKey (segment source (tape.drawn + 32 * j) 32)) ∧
      IsKey (segment source (tape.drawn + 32 * rejected) 32) ∧
      tape.drawKey.1.scalar.val = (segment source (tape.drawn + 32 * rejected) 32).toNat ∧
      tape.drawKey.2.drawn = tape.drawn + 32 * (rejected + 1) ∧ tape.drawKey.2.Reads source := by
  obtain ⟨rejected, hrejected, hkey, hrest⟩ := tape.drawKey_eq
  have hblock (j : Nat) : (tape.advance (32 * j)).take 32 = segment source (tape.drawn + 32 * j) 32 :=
    (h.advance (32 * j)).take_eq 32
  obtain ⟨hpos, hval⟩ := key?_eq_some_iff.1 hkey
  rw [hblock] at hpos hval
  refine ⟨rejected, fun j hj => ?_, ⟨hpos, hval ▸ tape.drawKey.1.scalar.isLt⟩, hval, ?_, ?_⟩
  · rw [← hblock]
    exact key?_eq_none_iff.1 (hrejected j hj)
  · rw [hrest, drawn_advance]
  · rw [hrest]
    exact h.advance _

end Tape
end Wallet
