import TidyTex.Brace.Escape
import TidyTex.Brace.Group
import TidyTex.Brace.Scope
import TidyTex.Fraction.Exponent
import TidyTex.Offset.Scan
import TidyTex.Proofs.Offset.Checked

/-! What the scanners find.

    A scanner reads a character beyond ASCII as often as it has bytes, and every one of them is no
    mark, so it may as well read the character at once (`scan_cons`). Along the text a scanner then
    goes the way of the function that cuts the text at the same place:

        firstBrace     firstBrace?
        scope          scopeBody?
        group          groupBody
        fraction       cutGroups

    No count leaves its range on the way, because it changes by one at a byte and there are not that
    many bytes. -/

namespace TidyTex.Offset

open Text

theorem Mark.ofCode_of_le {n : Nat} (h : 128 ≤ n) : ofCode n = other := by
  unfold ofCode
  split <;> first | omega | rfl

namespace Scanner

variable {σ : Type} {m : Scanner σ} {p : Nat} {st u : σ}

theorem scan_stop_byte {b : UInt8} (h : m.step st (.ofCode b.toNat) = .ok none)
    (bs : List UInt8) : m.scan p st (b :: bs) = .ok (some p) := by
  rw [scan, h]
  rfl

theorem scan_go_byte {b : UInt8} (h : m.step st (.ofCode b.toNat) = .ok (some u))
    (hfit : p + 1 < 2 ^ 64) (bs : List UInt8) :
    m.scan p st (b :: bs) = m.scan (p + 1) u bs := by
  rw [scan, h, add_eq_ok hfit]
  rfl

/-- Bytes that are no marks are passed over, and after the first of them the state stays. -/
theorem scan_idle {xs bs : List UInt8} (hne : xs ≠ [])
    (hxs : ∀ b ∈ xs, Mark.ofCode b.toNat = .other) (hfit : p + xs.length < 2 ^ 64) :
    m.scan p st (xs ++ bs) = m.scan (p + xs.length) (m.idle st) bs := by
  induction xs generalizing p st with
  | nil => exact absurd rfl hne
  | cons b xs ih =>
    rw [List.forall_mem_cons] at hxs
    rw [List.length_cons] at hfit ⊢
    have hstep : m.step st (.ofCode b.toNat) = .ok (some (m.idle st)) := by
      rw [hxs.1, m.step_other]
    rw [List.cons_append, scan_go_byte hstep (by omega)]
    cases xs with
    | nil => rfl
    | cons c xs =>
      rw [ih (List.cons_ne_nil c xs) hxs.2 (by omega), m.idle_idle, Nat.add_assoc,
        Nat.add_comm 1]

/-- The byte of a character in ASCII bears the mark of the character. -/
theorem ofCode_byte {c : Char} (h : c.toNat < 128) :
    Mark.ofCode (UInt8.ofNat c.toNat).toNat = .ofCode c.toNat := by
  rw [UInt8.toNat_ofNat', Nat.mod_eq_of_lt (by omega)]

/-- A scanner that stops at a character stops at its first byte. -/
theorem scan_stop {c : Char} (h : m.step st (.ofCode c.toNat) = .ok none) (s : Text) :
    m.scan p st (bytes (c :: s)) = .ok (some p) := by
  rcases Nat.lt_or_ge c.toNat 128 with hascii | hbeyond
  · rw [← ofCode_byte hascii] at h
    rw [bytes_cons, utf8EncodeChar_of_lt hascii]
    exact scan_stop_byte h _
  · rw [Mark.ofCode_of_le hbeyond, m.step_other] at h
    cases h

/-- A scanner that goes on at a character goes on behind all of its bytes. -/
theorem scan_go {c : Char} (h : m.step st (.ofCode c.toNat) = .ok (some u)) {s : Text}
    (hfit : p + c.utf8Size < 2 ^ 64) :
    m.scan p st (bytes (c :: s)) = m.scan (p + c.utf8Size) u (bytes s) := by
  have hlength := String.length_utf8EncodeChar c
  rw [bytes_cons]
  rcases Nat.lt_or_ge c.toNat 128 with hascii | hbeyond
  · rw [← ofCode_byte hascii] at h
    rw [utf8EncodeChar_of_lt hascii] at hlength ⊢
    rw [← hlength] at hfit ⊢
    exact scan_go_byte h hfit _
  · have hother : ∀ b ∈ String.utf8EncodeChar c, Mark.ofCode b.toNat = .other :=
      fun b hb => Mark.ofCode_of_le (le_toNat_of_mem_utf8EncodeChar hbeyond b hb)
    rw [Mark.ofCode_of_le hbeyond, m.step_other] at h
    cases h
    rw [scan_idle String.utf8EncodeChar_ne_nil hother (by rw [hlength]; exact hfit), hlength]

/-! ### The four scanners -/

/-- A character that is none of the three marks is no mark. -/
theorem ofCode_other {c : Char} (hb : c ≠ '\\') (ho : c ≠ '{') (hc : c ≠ '}') :
    Mark.ofCode c.toNat = .other := by
  have hcode : ∀ {d : Char}, c ≠ d → c.toNat ≠ d.toNat := fun h he => h (Char.toNat_inj.1 he)
  unfold Mark.ofCode
  split
  · next h => exact absurd h (hcode hb)
  · next h => exact absurd h (hcode ho)
  · next h => exact absurd h (hcode hc)
  · rfl

/-- An offset in a text with something in front of it is that much larger. -/
theorem map_prepend (k? : Option Cut) (x : Text) (p : Nat) :
    (k?.map (·.prepend x)).map (fun k => p + byteLength k.before) =
      k?.map fun k => p + byteLength x + byteLength k.before := by
  rw [Option.map_map]
  refine Option.map_congr fun k _ => ?_
  rw [Function.comp_apply, Cut.before_prepend, byteLength_append, Nat.add_assoc]

theorem map_prepend_singleton (k? : Option Cut) (c : Char) (p : Nat) :
    (k?.map (·.prepend [c])).map (fun k => p + byteLength k.before) =
      k?.map fun k => p + c.utf8Size + byteLength k.before :=
  map_prepend k? [c] p

theorem map_prepend_pair (k? : Option Cut) (c d : Char) (p : Nat) :
    (k?.map (·.prepend [c, d])).map (fun k => p + byteLength k.before) =
      k?.map fun k => p + c.utf8Size + d.utf8Size + byteLength k.before := by
  rw [map_prepend, byteLength_cons, byteLength_cons, byteLength_nil, Nat.add_zero, ← Nat.add_assoc]

theorem scan_firstBrace {s : Text} (hfit : p + byteLength s < 2 ^ 64) :
    firstBrace.scan p false (bytes s) =
      .ok ((Text.firstBrace? s).map fun k => p + byteLength k.before) := by
  fun_induction Text.firstBrace? s generalizing p with
  | case1 c s ih =>
    simp only [byteLength_cons] at hfit
    rw [scan_go (u := true) rfl (by omega), scan_go (u := false) rfl (by omega), ih (by omega),
      map_prepend_pair]
  | case2 s => exact scan_stop rfl s
  | case3 c s hescape hopening ih =>
    rw [byteLength_cons] at hfit
    rcases lone_cases hescape with hb | ⟨rfl, rfl⟩
    · have hstep : firstBrace.step false (.ofCode c.toNat) = .ok (some false) := by
        by_cases hclosing : c = '}'
        · rw [hclosing]
          rfl
        · rw [ofCode_other hb hopening hclosing]
          rfl
      rw [scan_go hstep (by omega), ih (by omega), map_prepend_singleton]
    · rw [scan_go (u := true) rfl (by omega)]
      rfl
  | case4 => rfl

theorem scope_step_opening {depth : Nat} (h : depth + 1 < 2 ^ 64) :
    scope.step (false, depth) .opening = .ok (some (false, depth + 1)) := by
  simp only [scope, add_eq_ok h]
  rfl

theorem scan_scope {depth : Nat} {s : Text} (hfit : p + byteLength s < 2 ^ 64)
    (hdepth : depth + byteLength s < 2 ^ 64) :
    scope.scan p (false, depth) (bytes s) =
      .ok ((scopeBody? depth s).map fun k => p + byteLength k.before) := by
  fun_induction scopeBody? depth s generalizing p with
  | case1 depth c s ih =>
    simp only [byteLength_cons] at hfit hdepth
    rw [scan_go (u := (true, depth)) rfl (by omega), scan_go (u := (false, depth)) rfl (by omega),
      ih (by omega) (by omega), map_prepend_pair]
  | case2 depth s ih =>
    have hpos := '{'.utf8Size_pos
    rw [byteLength_cons] at hfit hdepth
    rw [scan_go (scope_step_opening (by omega)) (by omega), ih (by omega) (by omega),
      map_prepend_singleton]
  | case3 s => exact scan_stop rfl s
  | case4 depth s ih =>
    rw [byteLength_cons] at hfit hdepth
    rw [scan_go (u := (false, depth)) rfl (by omega), ih (by omega) (by omega),
      map_prepend_singleton]
  | case5 depth c s hescape hopening hclosing hclosing' ih =>
    rw [byteLength_cons] at hfit hdepth
    rcases lone_cases hescape with hb | ⟨rfl, rfl⟩
    · have hstep : scope.step (false, depth) (.ofCode c.toNat) = .ok (some (false, depth)) := by
        rw [ofCode_other hb hopening (ne_closing hclosing hclosing')]
        rfl
      rw [scan_go hstep (by omega), ih (by omega) (by omega), map_prepend_singleton]
    · rw [scan_go (u := (true, depth)) rfl (by omega)]
      rfl
  | case6 => rfl

/-- A character that is no brace does not change how deep the reading is. -/
theorem group_step_idle {depth : Int} {c : Char} (ho : c ≠ '{') (hc : c ≠ '}') :
    group.step depth (.ofCode c.toNat) = .ok (some depth) := by
  by_cases hb : c = '\\'
  · rw [hb]
    rfl
  · rw [ofCode_other hb ho hc]
    rfl

theorem group_step_opening {d : Int} (hlow : -2 ^ 63 ≤ d + 1) (hhigh : d + 1 < 2 ^ 63) :
    group.step d .opening = .ok (some (d + 1)) := by
  simp only [group, signed_eq_ok hlow hhigh]
  rfl

theorem group_step_closing {d : Int} (hlow : -2 ^ 63 ≤ d) (hhigh : d < 2 ^ 63) (hne : d ≠ 0) :
    group.step (d + 1) .closing = .ok (some d) := by
  simp only [group, Int.add_sub_cancel, signed_eq_ok hlow hhigh, ok_bind, if_neg hne]
  rfl

/-- The offset of the brace before which a text is cut, if it is cut before its end. -/
def stop? (p : Nat) (k : Cut) : Option Nat :=
  if k.after = [] then none else some (p + byteLength k.before)

theorem stop?_prepend (p : Nat) (c : Char) (k : Cut) :
    stop? p (k.prepend [c]) = stop? (p + c.utf8Size) k := by
  rw [stop?, stop?, Cut.after_prepend, Cut.before_prepend, byteLength_append, byteLength_cons,
    byteLength_nil, Nat.add_zero, Nat.add_assoc]

theorem scan_group {depth : Nat} {s : Text} (hfit : p + byteLength s < 2 ^ 64)
    (hdepth : depth + 1 + byteLength s < 2 ^ 63) :
    group.scan p (depth + 1) (bytes s) = .ok (stop? p (groupBody depth s)) := by
  fun_induction groupBody depth s generalizing p with
  | case1 => rfl
  | case2 depth s ih =>
    have hpos := '{'.utf8Size_pos
    rw [byteLength_cons] at hfit hdepth
    rw [scan_go (group_step_opening (by omega) (by omega)) (by omega), stop?_prepend]
    exact ih (by omega) (by omega)
  | case3 s => exact scan_stop rfl s
  | case4 depth s ih =>
    rw [byteLength_cons] at hfit hdepth
    have hstep := group_step_closing (d := (depth + 1 : Nat)) (by omega) (by omega) (by omega)
    rw [scan_go hstep (by omega), stop?_prepend, ← ih (by omega) (by omega)]
    rfl
  | case5 depth c s hopening hclosing hclosing' ih =>
    rw [byteLength_cons] at hfit hdepth
    have hne := ne_closing hclosing hclosing'
    rw [scan_go (group_step_idle hopening hne) (by omega), stop?_prepend,
      ih (by omega) (by omega)]

theorem fraction_step_idle {depth : Int} {closed : Nat} {c : Char} (ho : c ≠ '{') (hc : c ≠ '}') :
    fraction.step (depth, closed) (.ofCode c.toNat) = .ok (some (depth, closed)) := by
  by_cases hb : c = '\\'
  · rw [hb]
    rfl
  · rw [ofCode_other hb ho hc]
    rfl

theorem fraction_step_opening {d : Int} {closed : Nat} (hlow : -2 ^ 63 ≤ d + 1)
    (hhigh : d + 1 < 2 ^ 63) :
    fraction.step (d, closed) .opening = .ok (some (d + 1, closed)) := by
  simp only [fraction, signed_eq_ok hlow hhigh]
  rfl

theorem fraction_step_closing {d : Int} {closed : Nat} (hlow : -2 ^ 63 ≤ d - 1)
    (hhigh : d - 1 < 2 ^ 63) (hne : d - 1 ≠ 0) :
    fraction.step (d, closed) .closing = .ok (some (d - 1, closed)) := by
  simp only [fraction, signed_eq_ok hlow hhigh, ok_bind, if_neg hne]
  rfl

theorem scan_fraction {depth : Int} {closed groups : Nat} {s : Text} (hgroups : 0 < groups)
    (hclosed : closed + groups = 2) (hfit : p + byteLength s < 2 ^ 64)
    (hlow : -2 ^ 63 + byteLength s ≤ depth) (hhigh : depth + byteLength s < 2 ^ 63) :
    fraction.scan p (depth, closed) (bytes s) =
      .ok (stop? p (Fraction.cutGroups groups depth s)) := by
  fun_induction Fraction.cutGroups groups depth s generalizing p closed with
  | case1 => rfl
  | case2 groups depth s ih =>
    have hpos := '{'.utf8Size_pos
    rw [byteLength_cons] at hfit hlow hhigh
    rw [scan_go (fraction_step_opening (by omega) (by omega)) (by omega), stop?_prepend,
      ih hgroups hclosed (by omega) (by omega) (by omega)]
  | case3 s =>
    obtain rfl : closed = 1 := by omega
    exact scan_stop rfl s
  | case4 groups s hne ih =>
    obtain rfl : closed = 0 := by omega
    rw [byteLength_cons] at hfit hhigh
    rw [scan_go (u := (0, 1)) rfl (by omega), stop?_prepend,
      ih (by omega) (by omega) (by omega) (by omega) (by omega)]
  | case5 groups depth s hne ih =>
    have hpos := '}'.utf8Size_pos
    rw [byteLength_cons] at hfit hlow hhigh
    rw [scan_go (fraction_step_closing (by omega) (by omega) (by omega)) (by omega), stop?_prepend,
      ih hgroups hclosed (by omega) (by omega) (by omega)]
  | case6 groups depth c s ho hc ih =>
    rw [byteLength_cons] at hfit hlow hhigh
    rw [scan_go (fraction_step_idle ho hc) (by omega), stop?_prepend,
      ih hgroups hclosed (by omega) (by omega) (by omega)]

end Scanner

end TidyTex.Offset
