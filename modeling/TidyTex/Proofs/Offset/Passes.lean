import TidyTex.Proofs.Offset.Command
import TidyTex.Proofs.Vector

/-! No pass over offsets is stopped.

    Every offset that a pass comes to is the length of a beginning of its text: a search or a scan
    gives one, and adding the length of what has been found there gives the next. So no range is cut
    that the text does not have, and no sum goes beyond the length of the text by more than one,
    which is far from the last word. Each pass gives what the pass of the library gives
    (`checked_passes`). -/

namespace TidyTex.Offset

open Text

variable {s x y t needle : Text}

/-! ### Occurrences -/

theorem findAllFrom_eq (hne : needle ≠ []) (limit : Nat) (hs : s = x ++ t)
    (hfit : byteLength s < 2 ^ 64) :
    findAllFrom needle s limit (byteLength x) =
      .ok ((offsetsFrom needle (byteLength x) t).take limit) := by
  induction limit generalizing x t with
  | zero => rfl
  | succ limit ih =>
    rw [findAllFrom, from?_eq_some hs rfl, Option.bind_some, find?]
    cases hk : cutFirst? needle t with
    | none =>
      have hnone := offsetsFrom_eq_nil hne (cutFirst?_eq_none_iff.1 hk) (byteLength x)
      rw [hnone]
      rfl
    | some k =>
      obtain ⟨c, u, hu⟩ :=
        List.exists_cons_of_ne_nil (List.append_ne_nil_of_left_ne_nil hne k.after)
      have hsplit : s = (x ++ k.before) ++ (c :: u) := by
        rw [hs, append_of_cutFirst? hk, List.append_assoc k.before, hu, List.append_assoc]
      have hlength := congrArg byteLength hsplit
      simp only [byteLength_append, byteLength_cons] at hlength
      have hafter : sliceFrom s (byteLength x + byteLength k.before) = .ok (c :: u) :=
        sliceFrom_eq_ok hsplit (byteLength_append x k.before).symm
      have hnext := ih (x := x ++ k.before ++ [c]) (t := u) (by rw [hsplit]; simp)
      simp only [byteLength_append, byteLength_cons, byteLength_nil, Nat.add_zero] at hnext
      simp only [Option.map_some]
      rw [add_eq_ok (by omega), ok_bind, hafter, ok_bind, List.head?_cons, Option.map_some,
        Option.getD_some, add_eq_ok (by omega), ok_bind, hnext,
        offsetsFrom_of_cutFirst? hk hu, List.take_succ_cons]
      rfl

theorem findAll_eq (needle : Text) (hfit : byteLength s < 2 ^ 64) :
    findAll needle s = .ok (Text.findAll needle s) := by
  unfold findAll Text.findAll
  split
  · rfl
  · next hne => exact findAllFrom_eq (x := []) hne maxOccurrences rfl hfit

/-- The listing has the first hundred of all the offsets at which the needle occurs, in increasing
    order, and the loop over offsets comes to the same list. -/
theorem findAll_lists_first (hne : needle ≠ []) (s : Text) :
    ∃ all : List Nat, all.Pairwise (· < ·) ∧ (∀ p, p ∈ all ↔ OccursAt needle s p) ∧
      Text.findAll needle s = all.take 100 ∧
      (byteLength s < 2 ^ 64 → findAll needle s = .ok (all.take 100)) := by
  have hfirst : Text.findAll needle s = (offsets needle s).take 100 := if_neg hne
  refine ⟨offsets needle s, pairwise_offsetsFrom needle s 0, fun p => mem_offsets_iff, hfirst, ?_⟩
  intro hfit
  rw [findAll_eq needle hfit, hfirst]

/-- The two occurrences of `αα` in `ααα` share a character of two bytes. -/
theorem findAll_lists_first_overlapping :
    "αα".toList ≠ [] ∧ byteLength "ααα".toList < 2 ^ 64 ∧
      ∃ all : List Nat, all.Pairwise (· < ·) ∧
        (∀ p, p ∈ all ↔ OccursAt "αα".toList "ααα".toList p) ∧ all.take 100 = [0, 2] ∧
        findAll "αα".toList "ααα".toList = .ok (all.take 100) := by
  have hne : "αα".toList ≠ [] := by decide
  have hfit : byteLength "ααα".toList < 2 ^ 64 := by decide
  have hfound : Text.findAll "αα".toList "ααα".toList = [0, 2] := by decide
  obtain ⟨all, hsorted, hmem, hfirst, hloop⟩ := findAll_lists_first hne "ααα".toList
  exact ⟨hne, hfit, all, hsorted, hmem, hfirst.symm.trans hfound, hloop hfit⟩

/-! ### Relations -/

theorem isAlpha_eq_false_of_le {c : Char} (h : 128 ≤ c.toNat) : c.isAlpha = false := by
  have hupper : c.isUpper = false := decide_eq_false fun hc => by
    have hle : c.toNat ≤ 90 := hc.2
    omega
  have hlower : c.isLower = false := by
    refine Bool.and_eq_false_iff.2 (Or.inr (decide_eq_false fun hc => ?_))
    have hle : c.toNat ≤ 122 := hc
    omega
  exact Bool.or_eq_false_iff.2 ⟨hupper, hlower⟩

theorem toNat_ofUInt8 (b : UInt8) : (Char.ofUInt8 b).toNat = b.toNat := rfl

/-- The letters at the head of a text take up one byte each. -/
theorem length_takeWhile_bytes (s : Text) :
    ((bytes s).takeWhile fun b => (Char.ofUInt8 b).isAlpha).length =
      byteLength (s.takeWhile Char.isAlpha) := by
  induction s with
  | nil => rfl
  | cons c s ih =>
    have hlength := String.length_utf8EncodeChar c
    rw [bytes_cons]
    rcases Nat.lt_or_ge c.toNat 128 with hascii | hbeyond
    · have hchar : Char.ofUInt8 (UInt8.ofNat c.toNat) = c := by
        rw [← Char.toNat_inj, toNat_ofUInt8, UInt8.toNat_ofNat', Nat.mod_eq_of_lt (by omega)]
      rw [utf8EncodeChar_of_lt hascii] at hlength ⊢
      rw [List.singleton_append, List.takeWhile_cons, List.takeWhile_cons, hchar]
      split
      · rw [List.length_cons, ih, byteLength_cons, ← hlength, List.length_singleton, Nat.add_comm]
      · rfl
    · obtain ⟨b, bs, hbs⟩ := List.exists_cons_of_ne_nil (String.utf8EncodeChar_ne_nil (c := c))
      have hle := le_toNat_of_mem_utf8EncodeChar hbeyond b (by rw [hbs]; exact List.mem_cons_self)
      have hfirst : (Char.ofUInt8 b).isAlpha = false := isAlpha_eq_false_of_le hle
      rw [hbs, List.cons_append, List.takeWhile_cons, hfirst, List.takeWhile_cons,
        isAlpha_eq_false_of_le hbeyond]
      rfl

/-- What follows the last occurrence of a sign follows the offset that is found for it. -/
theorem behindLast?_eq (sign : Sign) (hfit : byteLength s < 2 ^ 64) :
    (sign.afterLast? s = none ∧ behindLast? sign s = .ok none) ∨
      ∃ x t, s = x ++ t ∧ sign.afterLast? s = some t ∧ behindLast? sign s = .ok (byteLength x) := by
  unfold behindLast? Sign.afterLast? findLast?
  cases hk : cutLast? sign.spelling s with
  | none => exact Or.inl ⟨rfl, rfl⟩
  | some k =>
    right
    have hs := append_of_cutLast? hk
    have hlength := congrArg byteLength hs
    simp only [byteLength_append] at hlength
    simp only [Option.map_some]
    rw [add_eq_ok (by omega), ok_bind]
    cases sign with
    | symbol c =>
      exact ⟨k.before ++ (Sign.symbol c).spelling, k.after, hs, rfl,
        congrArg _ (congrArg _ (byteLength_append _ _).symm)⟩
    | command name =>
      have hrun : k.after.takeWhile Char.isAlpha ++ k.after.dropWhile Char.isAlpha = k.after :=
        List.takeWhile_append_dropWhile
      have hletters := congrArg byteLength hrun
      rw [byteLength_append] at hletters
      refine ⟨k.before ++ (Sign.command name).spelling ++ k.after.takeWhile Char.isAlpha,
        k.after.dropWhile Char.isAlpha, ?_, rfl, ?_⟩
      · rw [List.append_assoc _ _ (k.after.dropWhile Char.isAlpha), hrun, ← hs]
      · have hafter : sliceFrom s (byteLength k.before + byteLength (Sign.command name).spelling) =
            .ok k.after := sliceFrom_eq_ok hs (byteLength_append _ _).symm
        simp only [hafter, ok_bind, length_takeWhile_bytes]
        rw [add_eq_ok (by omega), ok_bind, byteLength_append, byteLength_append]
        rfl

theorem behindFirst_eq (signs : List Sign) (hfit : byteLength s < 2 ^ 64) :
    behindFirst s signs =
      .ok (trim ((signs.findSome? fun sign => sign.afterLast? s).getD s)) := by
  induction signs with
  | nil => rfl
  | cons sign signs ih =>
    rw [behindFirst, List.findSome?_cons]
    rcases behindLast?_eq sign hfit with ⟨hnone, hbehind⟩ | ⟨x, t, hs, hsome, hbehind⟩
    · rw [hnone, hbehind]
      exact ih
    · simp only [hsome, hbehind, ok_bind, sliceFrom_eq_ok hs rfl]
      rfl

theorem rightHandSide_eq (hfit : byteLength s < 2 ^ 64) :
    rightHandSide s = .ok (Text.rightHandSide s) := behindFirst_eq relationSigns hfit

/-! ### Exponents -/

theorem promoteOnce?_eq (hfit : byteLength s < 2 ^ 63) :
    promoteOnce? s = .ok (Fraction.promoteOnce? s) := by
  unfold promoteOnce? Fraction.promoteOnce? find?
  cases hk : cutFirst? Fraction.exponentHead s with
  | none => rfl
  | some k =>
    have hmark : ('^').utf8Size = 1 := rfl
    have hs : s = (k.before ++ ['^']) ++ (command "frac" ++ k.after) := by
      rw [append_of_cutFirst? hk]
      simp [Fraction.exponentHead]
    have hstart : byteLength (k.before ++ ['^']) = byteLength k.before + 1 := by
      rw [byteLength_append, byteLength_cons, byteLength_nil, hmark]
    have hcount := congrArg byteLength hs
    rw [byteLength_append, hstart] at hcount
    have hscan : Scanner.fraction.scan (byteLength k.before + 1) (0, 0)
        (bytes (command "frac" ++ k.after)) = .ok (Scanner.stop? (byteLength k.before + 1)
          ((Fraction.cutGroups 2 0 k.after).prepend (command "frac"))) :=
      Scanner.scan_fraction (by decide) rfl (by omega) (by omega) (by omega)
    have hbody := Fraction.cutGroups_append 2 0 k.after
    generalize hj : Fraction.cutGroups 2 0 k.after = j at hscan hbody
    have hsplit : s = (k.before ++ ['^']) ++ (command "frac" ++ j.before) ++ j.after := by
      rw [hs, ← hbody]
      simp only [List.append_assoc]
    have hstop := getD_stop? (k := j.prepend (command "frac")) (p := byteLength k.before + 1)
      (n := byteLength s) (by rw [hcount, ← hbody]; simp)
    rw [Cut.before_prepend] at hstop
    have hbefore : slice s 0 (byteLength k.before + 1) = .ok (k.before ++ ['^']) :=
      slice_zero_eq_ok hs hstart.symm
    have hfraction : slice s (byteLength k.before + 1)
        (byteLength k.before + 1 + byteLength (command "frac" ++ j.before)) =
        .ok (command "frac" ++ j.before) := slice_eq_ok hsplit hstart.symm (by rw [hstart])
    have hafter : sliceFrom s (byteLength k.before + 1 + byteLength (command "frac" ++ j.before)) =
        .ok j.after := sliceFrom_eq_ok hsplit (by rw [byteLength_append _ (_ ++ _), hstart])
    simp only [Option.map_some]
    rw [add_eq_ok (by omega), ok_bind, drop_bytes hs hstart.symm, hscan, ok_bind]
    simp only [hstop, hbefore, hfraction, hafter, ok_bind]
    exact congrArg (fun u => Except.ok (some u)) (by simp [hj])

/-! ### Vectors -/

/-- The text with the bars unwrapped in the group behind `x`. -/
def unwrapBars (x t : Text) : Text :=
  x ++ '{' :: (Text.removeCommand .anywhere .unwrap (command "bar") (groupBody 0 t).before
    ++ (groupBody 0 t).after)

/-- Unwrapping the bars of a vector at an offset where one stands. -/
theorem flattenAt_eq (hs : s = x ++ Vector.opening ++ t) (hfit : byteLength s < 2 ^ 63) :
    flattenAt s (byteLength x) = .ok (unwrapBars (x ++ command "vec") t) := by
  have hvec : byteLength Vector.opening = byteLength (command "vec") + 1 := rfl
  have hsplit : s = (x ++ command "vec") ++ '{' :: t := by
    rw [hs]
    simp [Vector.opening]
  have hend := groupEnd?_eq hsplit hfit
  have hclosing := getD_groupEnd? hsplit
  have hlength := byteLength_of_group hsplit
  have hbody := congrArg byteLength (groupBody_append 0 t)
  have hinner := slice_groupBody hsplit
  rw [byteLength_append] at hbody
  have hadd := add_eq_ok (a := byteLength x) (b := byteLength Vector.opening)
    (by rw [hvec]; rw [byteLength_append] at hlength; omega)
  have hsub : sub (byteLength x + byteLength Vector.opening) 1 =
      .ok (byteLength (x ++ command "vec")) := by
    rw [sub_eq_ok (by omega), byteLength_append, hvec]
    rfl
  have hopen := add_eq_ok (a := byteLength (x ++ command "vec")) (b := 1) (by omega)
  simp only [flattenAt, hadd, hsub, hend, hopen, hclosing, hinner, ok_bind]
  split
  · have hbefore : slice s 0 (byteLength (x ++ command "vec") + 1) =
        .ok (x ++ command "vec" ++ ['{']) :=
      slice_zero_eq_ok (y := t) (by rw [hsplit]; simp) (by rw [byteLength_append _ ['{']]; rfl)
    have hafter : sliceFrom s
        (byteLength (x ++ command "vec") + 1 + byteLength (groupBody 0 t).before) =
        .ok (groupBody 0 t).after :=
      sliceFrom_eq_ok (split_of_group hsplit) (by simp only [byteLength_append]; rfl)
    rw [removeCommand_eq _ _ (by omega), ok_bind, hbefore, ok_bind, hafter, ok_bind]
    exact congrArg Except.ok (by simp [unwrapBars])
  · next hbar =>
    rw [unwrapBars, removeCommand_eq_self hbar, groupBody_append, ← hsplit]
    rfl

theorem flattenNth_of_some {k : Cut} {n : Nat} (hk : cutNth? Vector.opening n s = some k) :
    Vector.flattenNth s n = unwrapBars (k.before ++ command "vec") k.after := by
  rw [Vector.flattenNth, hk]
  simp [unwrapBars, Vector.opening]

/-- Unwrapping bars makes a text no longer. -/
theorem byteLength_unwrapBars_le (x t : Text) :
    byteLength (unwrapBars x t) ≤ byteLength (x ++ '{' :: t) := by
  refine byteLength_le_of_sublist ?_
  conv => rhs; rw [← groupBody_append 0 t]
  exact (List.Sublist.refl x).append
    ((removeCommand_sublist.append (List.Sublist.refl _)).cons_cons '{')

theorem flattenEach_eq (start count : Nat) (hcount : start + count ≤ maxOccurrences)
    (hfit : byteLength s < 2 ^ 63) :
    flattenEach s (List.range' start count) =
      .ok ((List.range' start count).foldl Vector.flattenNth s) := by
  induction count generalizing start s with
  | zero => rfl
  | succ count ih =>
    have hlist : (Text.findAll Vector.opening s)[start]? =
        (cutNth? Vector.opening start s).map fun k => byteLength k.before := by
      rw [Text.findAll, if_neg Vector.opening_ne_nil, List.getElem?_take_of_lt (by omega), offsets,
        getElem?_offsetsFrom]
      simp only [Nat.zero_add]
    rw [List.range'_succ, flattenEach, findAll_eq _ (by omega), ok_bind, hlist]
    cases hk : cutNth? Vector.opening start s with
    | none =>
      rw [← List.range'_succ, Vector.foldl_flattenNth_of_none hk]
      rfl
    | some k =>
      have hs := append_of_cutNth? hk
      have hle := byteLength_unwrapBars_le (k.before ++ command "vec") k.after
      have hsplit : k.before ++ command "vec" ++ '{' :: k.after = s := by
        rw [hs]
        simp [Vector.opening]
      rw [hsplit] at hle
      simp only [Option.map_some]
      rw [flattenAt_eq hs hfit, ok_bind, ih (start + 1) (by omega) (by omega), List.foldl_cons,
        flattenNth_of_some hk]

theorem flattenBars_eq (hfit : byteLength s < 2 ^ 63) :
    flattenBars s = .ok (Vector.flattenBars s) := by
  have hcount : (Text.findAll Vector.opening s).length ≤ maxOccurrences := by
    unfold Text.findAll
    split
    · exact Nat.zero_le _
    · exact List.length_take_le _ _
  rw [flattenBars, findAll_eq _ (by omega), ok_bind, Vector.flattenBars, List.range_eq_range']
  exact flattenEach_eq 0 _ (by omega) hfit

/-- On a text that fits into memory, no pass over offsets is stopped by a fault: no sum or
    difference of offsets leaves the words, and every range that is cut lies in the text, does not
    end before it starts, and begins and ends between characters. Each pass gives what it gives on
    texts in parts. -/
theorem checked_passes {s : Text} (h : byteLength s ≤ maxBytes) :
    (∀ p, scopeAt? s p = .ok (Text.scopeAt? s p)) ∧
      (∀ p, ownerAt? s p = .ok ((Text.ownerAt? s p).map Owner.text)) ∧
      stripOuter? s = .ok (Text.stripOuter? s) ∧
      (∀ (r : Removal) (x name y : Text), s = x ++ name ++ y →
        removeAt r s (byteLength x) (byteLength name) = .ok (x ++ r.remains y)) ∧
      (∀ needle, findAll needle s = .ok (Text.findAll needle s)) ∧
      rightHandSide s = .ok (Text.rightHandSide s) ∧
      promoteOnce? s = .ok (Fraction.promoteOnce? s) ∧
      flattenBars s = .ok (Vector.flattenBars s) := by
  have hmax : maxBytes < 2 ^ 63 := by decide
  have hfit : byteLength s < 2 ^ 63 := by omega
  have hword : byteLength s < 2 ^ 64 := by omega
  exact ⟨scopeAt?_eq hword, ownerAt?_eq hword, stripOuter?_eq hword,
    fun r x name y hs => removeAt_eq r hs hfit, fun needle => findAll_eq needle hword,
    rightHandSide_eq hword, promoteOnce?_eq hfit, flattenBars_eq hfit⟩

/-- A text with characters of one, two, three and four bytes, and an argument that never closes. -/
theorem checked_passes_unclosed :
    byteLength "λ≤𝟘^\\frac{1}{2}\\vec\x7b\\barŌ".toList ≤ maxBytes ∧
      flattenBars "λ≤𝟘^\\frac{1}{2}\\vec\x7b\\barŌ".toList =
        .ok (Vector.flattenBars "λ≤𝟘^\\frac{1}{2}\\vec\x7b\\barŌ".toList) := by
  have h : byteLength "λ≤𝟘^\\frac{1}{2}\\vec\x7b\\barŌ".toList ≤ maxBytes := by decide
  exact ⟨h, (checked_passes h).2.2.2.2.2.2.2⟩

end TidyTex.Offset
