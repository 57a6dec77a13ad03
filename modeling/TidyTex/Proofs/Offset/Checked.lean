import TidyTex.Offset.Checked

/-! When counting and cutting by offsets succeed.

    An offset that has been found in a text belongs to a cut of it, `s = x ++ y` with
    `p = byteLength x`. Written that way ranges are right by their form: between the offsets behind
    `x` and behind `x ++ t` lies `t` (`slice_eq_ok`). -/

namespace TidyTex.Offset

open Text

variable {s x y t : Text} {p q a b : Nat}

theorem ok_bind {α β : Type} (a : α) (f : α → Checked β) : (Except.ok a >>= f) = f a := rfl

theorem word_eq_ok {n : Nat} (h : n < 2 ^ 64) : word n = .ok n := if_pos h

theorem add_eq_ok (h : a + b < 2 ^ 64) : add a b = .ok (a + b) := word_eq_ok h

theorem sub_eq_ok (h : b ≤ a) : sub a b = .ok (a - b) := if_pos h

theorem signed_eq_ok {n : Int} (hlow : -2 ^ 63 ≤ n) (hhigh : n < 2 ^ 63) : signed n = .ok n :=
  if_pos ⟨hlow, hhigh⟩

/-! ### Ranges -/

theorem cutAt?_append (x y : Text) : cutAt? (x ++ y) (byteLength x) = some ⟨x, y⟩ :=
  cutAt?_eq_some_iff.2 ⟨rfl, rfl⟩

/-- A slice is what lies between two offsets. -/
theorem slice_eq_ok_iff : slice s p q = .ok t ↔
    ∃ x y, s = x ++ t ++ y ∧ byteLength x = p ∧ byteLength (x ++ t) = q := by
  have hcut : slice s p q = .ok t ↔
      ∃ k, ((cutAt? s q).bind fun k => cutAt? k.before p) = some k ∧ k.after = t := by
    unfold slice
    cases (cutAt? s q).bind fun k => cutAt? k.before p with
    | none => exact iff_of_false nofun nofun
    | some k => simp
  rw [hcut]
  simp only [Option.bind_eq_some_iff, cutAt?_eq_some_iff]
  constructor
  · rintro ⟨⟨x, _⟩, ⟨⟨_, y⟩, ⟨hs, hq⟩, rfl, hp⟩, rfl⟩
    exact ⟨x, y, hs, hp, hq⟩
  · rintro ⟨x, y, hs, hp, hq⟩
    exact ⟨⟨x, t⟩, ⟨⟨x ++ t, y⟩, ⟨hs, hq⟩, rfl, hp⟩, rfl⟩

theorem slice_eq_ok (hs : s = x ++ t ++ y) (hp : p = byteLength x)
    (hq : q = byteLength x + byteLength t) : slice s p q = .ok t :=
  slice_eq_ok_iff.2 ⟨x, y, hs, hp.symm, by rw [byteLength_append, hq]⟩

theorem slice_zero_eq_ok (hs : s = x ++ y) (hp : p = byteLength x) : slice s 0 p = .ok x :=
  slice_eq_ok (x := []) hs rfl (by rw [hp, byteLength_nil, Nat.zero_add])

theorem sliceFrom_eq_ok (hs : s = x ++ y) (hp : p = byteLength x) : sliceFrom s p = .ok y :=
  slice_eq_ok (y := []) (by rw [hs, List.append_nil]) hp (by rw [hs, byteLength_append])

theorem from?_eq_some (hs : s = x ++ y) (hp : p = byteLength x) : from? s p = some y := by
  rw [from?, hs, hp, cutAt?_append]
  rfl

/-- An offset is a boundary when some beginning of the text has as many bytes. -/
theorem isBoundary_iff : isBoundary s p = true ↔ ∃ x y, s = x ++ y ∧ byteLength x = p := by
  rw [isBoundary, Option.isSome_iff_exists]
  constructor
  · rintro ⟨k, hk⟩
    exact ⟨k.before, k.after, cutAt?_eq_some_iff.1 hk⟩
  · rintro ⟨x, y, h⟩
    exact ⟨⟨x, y⟩, cutAt?_eq_some_iff.2 h⟩

/-- Of two beginnings of a text the one with fewer bytes begins the other. -/
theorem isPrefix_of_byteLength_le {x' y' : Text} (h : x ++ y = x' ++ y')
    (hle : byteLength x ≤ byteLength x') : x <+: x' := by
  rcases List.append_eq_append_iff.1 h with ⟨u, rfl, -⟩ | ⟨u, rfl, -⟩
  · exact List.prefix_append x u
  · cases u with
    | nil => exact ⟨[], by simp⟩
    | cons c u =>
      have hpos := c.utf8Size_pos
      rw [byteLength_append, byteLength_cons] at hle
      omega

/-- A range can be cut out exactly when it does not end before it starts and starts and ends at
    boundaries. The last of the boundaries is the end of the text. -/
theorem exists_slice_eq_ok_iff : (∃ t, slice s p q = .ok t) ↔
    p ≤ q ∧ isBoundary s p = true ∧ isBoundary s q = true := by
  simp only [slice_eq_ok_iff, isBoundary_iff]
  constructor
  · rintro ⟨t, x, y, rfl, rfl, rfl⟩
    refine ⟨by rw [byteLength_append]; omega, ⟨x, t ++ y, ?_, rfl⟩, ⟨x ++ t, y, rfl, rfl⟩⟩
    rw [List.append_assoc]
  · rintro ⟨hle, ⟨x, y, rfl, rfl⟩, ⟨x', y', hs, rfl⟩⟩
    obtain ⟨t, rfl⟩ := isPrefix_of_byteLength_le hs hle
    exact ⟨t, x, y', hs, rfl, rfl⟩

theorem le_byteLength_of_isBoundary (h : isBoundary s p = true) : p ≤ byteLength s := by
  obtain ⟨x, y, rfl, rfl⟩ := isBoundary_iff.1 h
  rw [byteLength_append]
  omega

theorem from?_eq_none (h : byteLength s < p) : from? s p = none := by
  rw [from?, Option.map_eq_none_iff, ← Option.not_isSome_iff_eq_none]
  intro hboundary
  have hle := le_byteLength_of_isBoundary hboundary
  omega

/-! ### Bytes -/

theorem bytes_cons (c : Char) (s : Text) : bytes (c :: s) = String.utf8EncodeChar c ++ bytes s :=
  List.flatMap_cons

theorem bytes_append (s t : Text) : bytes (s ++ t) = bytes s ++ bytes t := List.flatMap_append

theorem length_bytes (s : Text) : (bytes s).length = byteLength s := by
  induction s with
  | nil => rfl
  | cons c s ih =>
    rw [bytes_cons, List.length_append, String.length_utf8EncodeChar, ih, byteLength_cons]

theorem drop_bytes (hs : s = x ++ y) (hp : p = byteLength x) : (bytes s).drop p = bytes y := by
  rw [hs, hp, bytes_append, ← length_bytes, List.drop_left]

/-- A character in ASCII is one byte, its code. -/
theorem utf8EncodeChar_of_lt {c : Char} (h : c.toNat < 128) :
    String.utf8EncodeChar c = [UInt8.ofNat c.toNat] := by
  have hle : c.val.toNat ≤ 127 := Nat.le_of_lt_succ h
  unfold String.utf8EncodeChar
  exact if_pos hle

/-- No byte of a character beyond ASCII is in ASCII. -/
theorem le_toNat_of_mem_utf8EncodeChar {c : Char} (h : 128 ≤ c.toNat) :
    ∀ b ∈ String.utf8EncodeChar c, 128 ≤ b.toNat := by
  have hgt : ¬ c.val.toNat ≤ 127 := Nat.not_le.2 h
  unfold String.utf8EncodeChar
  simp only [if_neg hgt]
  intro b hb
  split at hb
  · simp only [List.mem_cons, List.not_mem_nil, or_false] at hb
    rcases hb with rfl | rfl <;> simp only [UInt8.toNat_ofNat'] <;> omega
  · split at hb
    · simp only [List.mem_cons, List.not_mem_nil, or_false] at hb
      rcases hb with rfl | rfl | rfl <;> simp only [UInt8.toNat_ofNat'] <;> omega
    · simp only [List.mem_cons, List.not_mem_nil, or_false] at hb
      rcases hb with rfl | rfl | rfl | rfl <;> simp only [UInt8.toNat_ofNat'] <;> omega

end TidyTex.Offset
