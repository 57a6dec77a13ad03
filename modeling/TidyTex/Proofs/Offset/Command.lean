import TidyTex.Proofs.Command
import TidyTex.Proofs.Offset.Brace

/-! Removing commands by offsets.

    A command is removed at an offset where its name stands, and then the group behind the name is
    cut out by the offsets of its braces. A group that is never closed ends where the text does, and
    there the offset behind its closing brace is one too many; it is looked up and found to be no
    place in the text (`from?_succ`), so nothing is cut there. -/

namespace TidyTex.Offset

open Text

variable {s x y t name : Text} {p : Nat}

/-- The first byte is that of an opening brace exactly when the first character is one. -/
theorem head?_bytes_iff : (bytes s).head? = some 0x7B ↔ s.head? = some '{' := by
  cases s with
  | nil => exact iff_of_false nofun nofun
  | cons c s =>
    rw [List.head?_cons, Option.some.injEq]
    constructor
    · intro h
      rcases Nat.lt_or_ge c.toNat 128 with hascii | hbeyond
      · rw [bytes_cons, utf8EncodeChar_of_lt hascii, List.singleton_append, List.head?_cons,
          Option.some.injEq] at h
        have hcode := congrArg UInt8.toNat h
        rw [UInt8.toNat_ofNat', Nat.mod_eq_of_lt (by omega)] at hcode
        exact Char.toNat_inj.1 hcode
      · obtain ⟨b, bs, hbs⟩ := List.exists_cons_of_ne_nil (String.utf8EncodeChar_ne_nil (c := c))
        have hle := le_toNat_of_mem_utf8EncodeChar hbeyond b (by rw [hbs]; exact List.mem_cons_self)
        rw [bytes_cons, hbs, List.cons_append, List.head?_cons, Option.some.injEq] at h
        rw [h] at hle
        exact absurd hle (by decide)
    · rintro rfl
      rfl

/-- Behind the brace that ends a group the text goes on; behind the end of the text nothing does. -/
theorem from?_groupBody (hs : s = x ++ '{' :: t) :
    (from? s (byteLength x + 1 + byteLength (groupBody 0 t).before + 1)).getD [] =
      (groupBody 0 t).after.drop 1 := by
  have hsplit := split_of_group hs
  have hlength := byteLength_of_group hs
  rcases after_groupBody 0 t with h | ⟨u, h⟩
  · have hbody := congrArg byteLength (groupBody_append 0 t)
    rw [h, List.append_nil] at hbody
    rw [from?_eq_none (by omega), h]
    rfl
  · rw [h, List.append_cons] at hsplit
    rw [from?_eq_some hsplit, h]
    · rfl
    · simp only [byteLength_append]
      rfl

/-- Removing what stands between `x` and a group behind it, together with that group. -/
theorem removeToGroup_eq (r : Removal) (hs : s = x ++ name ++ '{' :: t)
    (hfit : byteLength s < 2 ^ 63) :
    removeToGroup r s (byteLength x) (byteLength (x ++ name)) =
      .ok (x ++ r.remains ('{' :: t)) := by
  have hend := groupEnd?_eq hs hfit
  have hclosing := getD_groupEnd? hs
  have htail := from?_groupBody hs
  have hbefore : slice s 0 (byteLength x) = .ok x :=
    slice_zero_eq_ok (y := name ++ '{' :: t) (by rw [hs, List.append_assoc]) rfl
  have hlength := byteLength_of_group hs
  have hbody := congrArg byteLength (groupBody_append 0 t)
  rw [byteLength_append] at hbody
  have hadd := add_eq_ok (a := byteLength (x ++ name) + 1 + byteLength (groupBody 0 t).before)
    (b := 1) (by omega)
  simp only [removeToGroup, hend, hclosing, hadd, htail, ok_bind]
  cases r with
  | delete =>
    rw [hbefore]
    rfl
  | unwrap =>
    have hopen := add_eq_ok (a := byteLength (x ++ name)) (b := 1) (by omega)
    simp only [hbefore, hopen, slice_groupBody hs, ok_bind]
    exact congrArg _ (List.append_assoc x _ _)

/-- Removing a command at an offset where its name stands. -/
theorem removeAt_eq (r : Removal) (hs : s = x ++ name ++ y) (hfit : byteLength s < 2 ^ 63) :
    removeAt r s (byteLength x) (byteLength name) = .ok (x ++ r.remains y) := by
  have hlength := congrArg byteLength hs
  simp only [byteLength_append] at hlength
  have hadd := add_eq_ok (a := byteLength x) (b := byteLength name) (by omega)
  rw [← byteLength_append] at hadd
  have hname : slice s (byteLength x) (byteLength (x ++ name)) = .ok name :=
    slice_eq_ok hs rfl (byteLength_append x name)
  have hbyte : (bytes s)[byteLength (x ++ name)]? = (bytes y).head? := by
    rw [← List.head?_drop, drop_bytes hs rfl]
  simp only [removeAt, hadd, hname, hbyte, ok_bind]
  split
  · next hbrace =>
    obtain ⟨t, rfl⟩ := List.head?_eq_some_iff.1 (head?_bytes_iff.1 hbrace)
    exact removeToGroup_eq r hs hfit
  · next hbrace =>
    have hbefore : slice s 0 (byteLength x) = .ok x :=
      slice_zero_eq_ok (y := name ++ y) (by rw [hs, List.append_assoc]) rfl
    rw [hbefore, ok_bind, sliceFrom_eq_ok hs rfl,
      r.remains_of_head?_ne (mt head?_bytes_iff.2 hbrace)]
    rfl

theorem removeAtMost_eq (r : Removal) (name : Text) (limit : Nat) (hfit : byteLength s < 2 ^ 63) :
    removeAtMost r name limit s =
      .ok (repeatAtMost (removeOnce? .anywhere r name) limit s).1 := by
  induction limit generalizing s with
  | zero => rfl
  | succ limit ih =>
    rw [removeAtMost, find?]
    cases hk : cutFirst? name s with
    | none =>
      have hstep : removeOnce? .anywhere r name s = none := Option.map_eq_none_iff.2 hk
      rw [repeatAtMost_of_none hstep]
      rfl
    | some k =>
      have hstep : removeOnce? .anywhere r name s = some (k.before ++ r.remains k.after) :=
        Option.map_eq_some_iff.2 ⟨k, hk, rfl⟩
      have hle := byteLength_removeOnce? hstep
      simp only [Option.map_some]
      rw [removeAt_eq r (append_of_cutFirst? hk) hfit, ok_bind, ih (by omega),
        repeatAtMost_succ_of_some hstep]

theorem removeCommand_eq (r : Removal) (name : Text) (hfit : byteLength s < 2 ^ 63) :
    removeCommand r name s = .ok (Text.removeCommand .anywhere r name s) := by
  unfold removeCommand Text.removeCommand
  split
  · rfl
  · exact removeAtMost_eq r name s.length hfit

end TidyTex.Offset
