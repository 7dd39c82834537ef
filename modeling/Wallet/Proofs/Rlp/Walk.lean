import Wallet.Proofs.Rlp.Typed
import Wallet.Rlp.Walk

/-! The walk over nested items accepts the encodings of trees and nothing else, and yields the trees.
A run lemma says what the walk does on the encoding of a tree, whatever stands behind it and around
it (`resume_encodeAll`); read backwards, a walk that ends well leaves every open level a sequence of
encodings (`levels_encoded`). Tokens are brackets, so they determine the trees (`tokensAll_inj`). -/

namespace Wallet.Rlp

open ItemKind (classify)

namespace Walk

variable {rest p t : Bytes} {enclosing : List Bytes} {seen : List Token}

theorem resume_nil : resume [] [] seen = ⟨seen.reverse, none⟩ := by
  rw [resume]

theorem resume_close (outer : Bytes) :
    resume [] (outer :: enclosing) seen = resume outer enclosing (.closeList :: seen) := by
  rw [resume]

theorem resume_list (h : Decoder.list rest = .ok p t) :
    resume rest enclosing seen = resume p (t :: enclosing) (.openList :: seen) := by
  cases rest with
  | nil => cases h
  | cons lead tail =>
    rw [resume, if_pos (isList_of_list_eq_ok h)]
    split
    · have heq := h.symm.trans ‹_›
      cases heq
      rfl
    · have heq := h.symm.trans ‹_›
      cases heq

theorem resume_string (h : Decoder.bytes rest = .ok p t) :
    resume rest enclosing seen = resume t enclosing (.string p :: seen) := by
  cases rest with
  | nil => cases h
  | cons lead tail =>
    rw [resume, if_neg (by simp [not_isList_of_bytes_eq_ok h])]
    split
    · have heq := h.symm.trans ‹_›
      cases heq
      rfl
    · have heq := h.symm.trans ‹_›
      cases heq

mutual

/-- The walk passes over the encoding of a tree and yields its tokens. -/
theorem resume_encode (item : Tree) (rest : Bytes) (enclosing : List Bytes) (seen : List Token)
    (h : item.encode.length < UInt64.size) :
    resume (item.encode ++ rest) enclosing seen = resume rest enclosing (item.tokens.reverse ++ seen) := by
  match item with
  | .string payload =>
    rw [Tree.encode] at h ⊢
    rw [resume_string (Decoder.bytes_eq_ok.2 ⟨rfl, (length_le_encodeString payload).trans_lt h⟩)]
    rfl
  | .list items =>
    rw [Tree.encode] at h ⊢
    have hlt := (length_lt_encodeList (Tree.encodeAll items)).trans h
    rw [resume_list (Decoder.list_eq_ok.2 ⟨rfl, hlt⟩), ← List.append_nil (Tree.encodeAll items),
      resume_encodeAll items [] _ _ hlt, resume_close, Tree.tokens]
    simp

theorem resume_encodeAll (items : List Tree) (rest : Bytes) (enclosing : List Bytes) (seen : List Token)
    (h : (Tree.encodeAll items).length < UInt64.size) :
    resume (Tree.encodeAll items ++ rest) enclosing seen =
      resume rest enclosing ((Tree.tokensAll items).reverse ++ seen) := by
  match items with
  | [] => rfl
  | item :: items =>
    rw [Tree.encodeAll, List.length_append] at h
    rw [Tree.encodeAll, List.append_assoc, resume_encode item _ _ _ (by omega),
      resume_encodeAll items _ _ _ (by omega), Tree.tokensAll]
    simp

end

/-- A walk that ends without failure leaves nothing but encodings, in the rest and in each of the
enclosing lists. -/
theorem levels_encoded (h : (resume rest enclosing seen).failure = none) :
    ∀ level ∈ rest :: enclosing, ∃ items, level = Tree.encodeAll items := by
  fun_induction resume rest enclosing seen with
  | case1 seen => simpa using ⟨[], rfl⟩
  | case2 seen outer enclosing ih =>
    intro level hmem
    obtain rfl | hmem := List.mem_cons.1 hmem
    · exact ⟨[], rfl⟩
    · exact ih h level hmem
  | case3 seen lead tail enclosing hlist payload rest hread ih =>
    intro level hmem
    have hlevels := ih h
    obtain rfl | hmem := List.mem_cons.1 hmem
    · obtain ⟨items, hitems⟩ := hlevels payload (by simp)
      obtain ⟨others, hothers⟩ := hlevels rest (by simp)
      refine ⟨.list items :: others, ?_⟩
      rw [(Decoder.list_eq_ok.1 hread).1, hitems, hothers, Tree.encodeAll, Tree.encode]
    · exact hlevels level (by simp [hmem])
  | case4 => cases h
  | case5 seen lead tail enclosing hlist payload rest hread ih =>
    intro level hmem
    have hlevels := ih h
    obtain rfl | hmem := List.mem_cons.1 hmem
    · obtain ⟨others, hothers⟩ := hlevels rest (by simp)
      refine ⟨.string payload :: others, ?_⟩
      rw [(Decoder.bytes_eq_ok.1 hread).1, hothers, Tree.encodeAll, Tree.encode]
    · exact hlevels level (by simp [hmem])
  | case6 => cases h

/-- A walk yields at most two tokens for a byte, and one for a list that is open already. -/
theorem length_tokens_le (rest : Bytes) (enclosing : List Bytes) (seen : List Token) :
    (resume rest enclosing seen).tokens.length ≤ seen.length + work rest enclosing := by
  fun_induction resume rest enclosing seen with
  | case1 seen => simp
  | case2 seen outer enclosing ih =>
    simp only [List.length_cons, work, List.length_nil] at ih ⊢
    omega
  | case3 seen lead tail enclosing hlist payload rest hread ih =>
    have hlt := length_lt_encodeList payload
    have hlen := congrArg List.length (Decoder.list_eq_ok.1 hread).1
    rw [List.length_append] at hlen
    simp only [List.length_cons, work, work_eq rest, work_eq (lead :: tail)] at ih hlen ⊢
    omega
  | case4 => simp
  | case5 seen lead tail enclosing hlist payload rest hread ih =>
    have hpos := List.length_pos_iff.2 (encodeString_ne_nil payload)
    have hlen := congrArg List.length (Decoder.bytes_eq_ok.1 hread).1
    rw [List.length_append] at hlen
    simp only [List.length_cons, work_eq rest, work_eq (lead :: tail)] at ih hlen ⊢
    omega
  | case6 => simp

end Walk

mutual

/-- Tokens are brackets: what follows the tokens of a tree does not change which tree it is. -/
theorem tokens_append_inj {a b : Tree} {r r' : List Token} (h : a.tokens ++ r = b.tokens ++ r') :
    a = b ∧ r = r' := by
  match a, b with
  | .string p, .string q =>
    simp only [Tree.tokens, List.singleton_append, List.cons.injEq, Token.string.injEq] at h
    exact ⟨congrArg _ h.1, h.2⟩
  | .string p, .list items => simp [Tree.tokens] at h
  | .list items, .string q => simp [Tree.tokens] at h
  | .list items, .list others =>
    simp only [Tree.tokens, List.cons_append, List.append_assoc, List.cons.injEq,
      true_and] at h
    obtain ⟨hitems, hr⟩ := tokensAll_append_inj h
    exact ⟨congrArg _ hitems, hr⟩

theorem tokensAll_append_inj {as bs : List Tree} {r r' : List Token}
    (h : Tree.tokensAll as ++ .closeList :: r = Tree.tokensAll bs ++ .closeList :: r') :
    as = bs ∧ r = r' := by
  match as, bs with
  | [], [] => simpa [Tree.tokensAll] using h
  | [], .string q :: bs => simp [Tree.tokensAll, Tree.tokens] at h
  | [], .list others :: bs => simp [Tree.tokensAll, Tree.tokens] at h
  | .string p :: as, [] => simp [Tree.tokensAll, Tree.tokens] at h
  | .list items :: as, [] => simp [Tree.tokensAll, Tree.tokens] at h
  | a :: as, b :: bs =>
    simp only [Tree.tokensAll, List.append_assoc] at h
    obtain ⟨hhead, htail⟩ := tokens_append_inj h
    obtain ⟨hrest, hr⟩ := tokensAll_append_inj htail
    exact ⟨by rw [hhead, hrest], hr⟩

end

theorem tokensAll_inj {as bs : List Tree} (h : Tree.tokensAll as = Tree.tokensAll bs) : as = bs :=
  (tokensAll_append_inj (congrArg (· ++ [Token.closeList]) h)).1

theorem walk_encodeAll {items : List Tree} (h : (Tree.encodeAll items).length < UInt64.size) :
    walk (Tree.encodeAll items) = ⟨Tree.tokensAll items, none⟩ := by
  have hrun := Walk.resume_encodeAll items [] [] [] h
  rw [List.append_nil, List.append_nil] at hrun
  rw [walk, hrun, Walk.resume_nil, List.reverse_reverse]

theorem encodeAll_inj {items others : List Tree} (h : (Tree.encodeAll items).length < UInt64.size)
    (heq : Tree.encodeAll items = Tree.encodeAll others) : items = others := by
  have hwalk := walk_encodeAll h
  rw [heq, walk_encodeAll (heq ▸ h)] at hwalk
  exact (tokensAll_inj (congrArg Walk.tokens hwalk)).symm

/-- The walk ends after two tokens for each byte at most. It ends without failure on the encodings of
sequences of trees alone, and then its tokens are those of the one sequence that is encoded. -/
theorem walk_accepts_encodings (data : Bytes) (hsize : data.length < UInt64.size) :
    (walk data).tokens.length ≤ 2 * data.length ∧
    ((walk data).failure = none ↔ ∃ items, data = Tree.encodeAll items) ∧
    ∀ items, data = Tree.encodeAll items →
      (walk data).tokens = Tree.tokensAll items ∧
      (∀ others, (walk data).tokens = Tree.tokensAll others → others = items) ∧
      ∀ others, data = Tree.encodeAll others → others = items := by
  refine ⟨?_, ⟨fun h => ?_, fun h => ?_⟩, fun items hitems => ?_⟩
  · have hbound := Walk.length_tokens_le data [] []
    simpa [walk, Walk.work] using hbound
  · exact Walk.levels_encoded h data (by simp)
  · obtain ⟨items, rfl⟩ := h
    rw [walk_encodeAll hsize]
  · subst hitems
    rw [walk_encodeAll hsize]
    refine ⟨rfl, fun others hothers => (tokensAll_inj hothers).symm, fun others hothers => ?_⟩
    exact (encodeAll_inj hsize hothers).symm

/-- The sequence of `[[], ""]` and a bare byte. -/
theorem walk_accepts_nested :
    (walk [0xc2, 0xc0, 0x80, 0x07]).failure = none ∧
    (walk [0xc2, 0xc0, 0x80, 0x07]).tokens =
      [.openList, .openList, .closeList, .string [], .closeList, .string [0x07]] := by
  have h := walk_accepts_encodings [0xc2, 0xc0, 0x80, 0x07] (by decide)
  have henc : [0xc2, 0xc0, 0x80, 0x07] =
      Tree.encodeAll [.list [.list [], .string []], .string [0x07]] := by decide
  exact ⟨h.2.1.2 ⟨_, henc⟩, (h.2.2 _ henc).1⟩

end Wallet.Rlp
