import Wallet.Key.Public
import Wallet.Proofs.BigEndian
import Wallet.Proofs.Curve.Lift

/-! The forms of a point as bytes. What is read is a form and a point of the curve whose bytes in that form are the
ones that were read, and all of these are read (`Point.decode?_eq_some`): the tag tells the form and the parity,
which tells the two points of an abscissa apart. So a public key and its bytes determine each other
(`PublicKey.ofBytes_eq_ok`). -/

namespace Wallet

namespace Curve

theorem Coord.ofBytes?_toBytes (a : Coord) : Coord.ofBytes? a.toBytes = some a := by
  have hwide : prime < 256 ^ 32 := by decide
  have hval : Bytes.toNat a.toBytes = a.val := by
    rw [toBytes, Bytes.toNat_ofNat (a.isLt.trans hwide)]
  unfold ofBytes?
  simp only [hval, a.isLt, dif_pos, Fin.eta]

theorem Coord.length_toBytes (a : Coord) : a.toBytes.length = 32 := Bytes.length_ofNat 32 a.val

/-- A coordinate in 32 bytes is read from no other 32 bytes. -/
theorem Coord.toBytes_of_ofBytes? {bs : Bytes} {a : Coord} (hlength : bs.length = 32)
    (h : Coord.ofBytes? bs = some a) : a.toBytes = bs := by
  obtain ⟨hlt, ha⟩ := Option.dite_none_right_eq_some.1 h
  cases ha
  rw [toBytes, ← hlength, Bytes.ofNat_toNat]

namespace Point

variable {bs xs ys : Bytes} {odd : Bool} {form : Form} {p : Point}

theorem ofCoordinates?_eq_some :
    ofCoordinates? xs ys = some p ↔
      ∃ x y, Coord.ofBytes? xs = some x ∧ Coord.ofBytes? ys = some y ∧ (affine x y).OnCurve ∧ affine x y = p := by
  simp only [ofCoordinates?, Option.bind_eq_bind, Option.bind_eq_some_iff, Option.ite_none_right_eq_some,
    Option.some.injEq]
  constructor
  · rintro ⟨x, hx, y, hy, h⟩
    exact ⟨x, y, hx, hy, h⟩
  · rintro ⟨x, y, hx, hy, h⟩
    exact ⟨x, hx, y, hy, h⟩

theorem ofAbscissa?_eq_some :
    ofAbscissa? bs odd = some p ↔
      ∃ x y, Coord.ofBytes? bs = some x ∧ (affine x y).OnCurve ∧ y.isOdd = odd ∧ affine x y = p := by
  simp only [ofAbscissa?, Option.bind_eq_bind, Option.bind_eq_some_iff, lift?_eq_some]
  constructor
  · rintro ⟨x, hx, y, rfl, hcurve, hodd⟩
    exact ⟨x, y, hx, hcurve, hodd, rfl⟩
  · rintro ⟨x, y, hx, hcurve, hodd, rfl⟩
    exact ⟨x, hx, y, rfl, hcurve, hodd⟩

/-- The bytes of a point are read back. -/
theorem decode?_encode (h : PublicKey.Valid ⟨form, p⟩) : decode? (p.encode form) = some (form, p) := by
  cases p with
  | infinity => exact h.elim
  | affine x y =>
    obtain ⟨hcurve, heven⟩ := h
    have hlift : ofAbscissa? x.toBytes y.isOdd = some (affine x y) :=
      ofAbscissa?_eq_some.2 ⟨x, y, x.ofBytes?_toBytes, hcurve, rfl, rfl⟩
    have hbody : ¬x.toBytes.length ≠ 32 := not_not.2 x.length_toBytes
    cases form with
    | compressed =>
      cases hodd : y.isOdd <;> rw [hodd] at hlift <;>
        simp only [encode, hodd, decode?, if_neg hbody, hlift] <;> rfl
    | uncompressed =>
      have hlength : (x.toBytes ++ y.toBytes).length = 64 := by
        rw [List.length_append, x.length_toBytes, y.length_toBytes]
      have htake : (x.toBytes ++ y.toBytes).take 32 = x.toBytes := List.take_left' x.length_toBytes
      have hdrop : (x.toBytes ++ y.toBytes).drop 32 = y.toBytes := List.drop_left' x.length_toBytes
      rw [encode, decode?, if_pos rfl, if_pos hlength, htake, hdrop,
        ofCoordinates?_eq_some.2 ⟨x, y, x.ofBytes?_toBytes, y.ofBytes?_toBytes, hcurve, rfl⟩]
      rfl
    | compact =>
      rw [heven rfl] at hlift
      simp only [encode, decode?, if_neg hbody, hlift]
      rfl

/-- Nothing else is read. -/
theorem of_decode? (h : decode? bs = some (form, p)) : PublicKey.Valid ⟨form, p⟩ ∧ p.encode form = bs := by
  cases bs with
  | nil => cases h
  | cons tag body =>
    -- the three tags that are followed by an abscissa alone
    have habscissa {form' : Form} {odd : Bool} (h : (ofAbscissa? body odd).map (form', ·) = some (form, p))
        (hbody : body.length = 32) (heven : form' = .compact → odd = false)
        (htag : ∀ x y, y.isOdd = odd → (affine x y).encode form' = tag :: x.toBytes) :
        PublicKey.Valid ⟨form, p⟩ ∧ p.encode form = tag :: body := by
      obtain ⟨q, hq, hpair⟩ := Option.map_eq_some_iff.1 h
      cases hpair
      obtain ⟨x, y, hx, hcurve, hodd, rfl⟩ := ofAbscissa?_eq_some.1 hq
      refine ⟨⟨hcurve, fun hcompact => hodd.trans (heven hcompact)⟩, ?_⟩
      rw [htag x y hodd, Coord.toBytes_of_ofBytes? hbody hx]
    rw [decode?] at h
    split_ifs at h with htag hbody hbody h02 h03 h05
    · obtain ⟨q, hq, hpair⟩ := Option.map_eq_some_iff.1 h
      cases hpair
      obtain ⟨x, y, hx, hy, hcurve, rfl⟩ := ofCoordinates?_eq_some.1 hq
      have htake : (body.take 32).length = 32 := List.length_take_of_le (by omega)
      have hdrop : (body.drop 32).length = 32 := by rw [List.length_drop, hbody]
      refine ⟨⟨hcurve, nofun⟩, ?_⟩
      rw [encode, Coord.toBytes_of_ofBytes? htake hx, Coord.toBytes_of_ofBytes? hdrop hy, List.take_append_drop,
        htag]
    · refine habscissa h (not_not.1 hbody) nofun fun x y hodd => ?_
      rw [encode, hodd, h02]
      rfl
    · refine habscissa h (not_not.1 hbody) nofun fun x y hodd => ?_
      rw [encode, hodd, h03]
      rfl
    · refine habscissa h (not_not.1 hbody) (fun _ => rfl) fun x y hodd => ?_
      rw [encode, h05]

theorem decode?_eq_some : decode? bs = some (form, p) ↔ PublicKey.Valid ⟨form, p⟩ ∧ p.encode form = bs := by
  refine ⟨of_decode?, ?_⟩
  rintro ⟨h, rfl⟩
  exact decode?_encode h

theorem length_encode (h : p ≠ infinity) (form : Form) : (p.encode form).length = form.size := by
  cases p with
  | infinity => exact absurd rfl h
  | affine x y =>
    cases form <;>
      simp only [encode, List.length_cons, List.length_append, Coord.length_toBytes, Form.size]

end Point
end Curve

namespace PublicKey

variable {bs : Bytes} {key : PublicKey}

theorem Valid.onCurve (h : key.Valid) : key.point.OnCurve := by
  unfold Valid at h
  split at h
  · exact h.elim
  · rename_i hpoint
    rw [hpoint]
    exact h.1

theorem Valid.ne_infinity (h : key.Valid) : key.point ≠ .infinity := by
  intro hpoint
  rw [Valid, hpoint] at h
  exact h

theorem valid_of_onCurve (hcurve : key.point.OnCurve) (hne : key.point ≠ .infinity)
    (hform : key.form ≠ .compact) : key.Valid := by
  unfold Valid
  split
  · contradiction
  · rename_i hpoint
    rw [hpoint] at hcurve
    exact ⟨hcurve, fun hcompact => absurd hcompact hform⟩

theorem Valid.compressed (h : key.Valid) : key.compressed.Valid := valid_of_onCurve h.onCurve h.ne_infinity nofun

theorem Valid.uncompressed (h : key.Valid) : key.uncompressed.Valid := valid_of_onCurve h.onCurve h.ne_infinity nofun

theorem length_bytes (h : key.point ≠ .infinity) : key.bytes.length = key.form.size :=
  Curve.Point.length_encode h key.form

/-- The keys that are read are the valid ones, each from its own bytes. -/
theorem ofBytes_eq_ok : ofBytes bs = .ok key ↔ key.Valid ∧ key.bytes = bs := by
  constructor
  · intro h
    unfold ofBytes at h
    split at h
    · cases h
    · split at h
      · rename_i hdecode
        cases h
        exact Curve.Point.decode?_eq_some.1 hdecode
      · cases h
  · rintro ⟨hvalid, rfl⟩
    have hlength : key.bytes.length = 33 ∨ key.bytes.length = 65 := by
      rw [length_bytes hvalid.ne_infinity]
      cases key.form <;> decide
    rw [ofBytes, if_neg, bytes, Curve.Point.decode?_encode hvalid]
    rw [not_and_or, not_not, not_not]
    exact hlength

theorem ofBytes_bytes (h : key.Valid) : ofBytes key.bytes = .ok key := ofBytes_eq_ok.2 ⟨h, rfl⟩

theorem valid_of_ofBytes (h : ofBytes bs = .ok key) : key.Valid := (ofBytes_eq_ok.1 h).1

/-- What is read from 65 bytes: the point that they write in uncompressed form. -/
theorem ofBytes_eq_ok_of_length (hlength : bs.length = Curve.Form.uncompressed.size) :
    ofBytes bs = .ok key ↔
      ∃ x y, (Curve.Point.affine x y).OnCurve ∧ key = ⟨.uncompressed, .affine x y⟩ ∧
        bs = (Curve.Point.affine x y).encode .uncompressed := by
  rw [ofBytes_eq_ok]
  constructor
  · rintro ⟨hvalid, rfl⟩
    rw [length_bytes hvalid.ne_infinity] at hlength
    obtain ⟨form, point⟩ := key
    cases point with
    | infinity => exact hvalid.elim
    | affine x y =>
      cases form with
      | uncompressed => exact ⟨x, y, hvalid.1, rfl, rfl⟩
      | compressed => cases hlength
      | compact => cases hlength
  · rintro ⟨x, y, hcurve, rfl, rfl⟩
    exact ⟨⟨hcurve, nofun⟩, rfl⟩

end PublicKey
end Wallet
