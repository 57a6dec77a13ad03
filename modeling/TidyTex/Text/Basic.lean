/-! A text is a list of characters, and a position in it is a byte offset into its UTF-8 form.

    Whatever is looked for in a text splits it, so searching returns a `Cut`: the two parts that
    lie before and after what was found. Positions are read off a cut by measuring its first part.
    `cutAt?` goes the other way, and `cutAt?_eq_some_iff` says that the two agree. -/

namespace TidyTex

/-- A text, character by character. -/
abbrev Text := List Char

/-- The spelling of a command: a backslash and its name. -/
def command (name : String) : Text := '\\' :: name.toList

/-- A text inside a pair of braces. -/
def braced (s : Text) : Text := '{' :: (s ++ ['}'])

/-- The two parts of a text on either side of a place in it. -/
structure Cut where
  before : Text
  after : Text
  deriving DecidableEq, Repr

namespace Cut

/-- The same cut in a text with `p` put in front. -/
def prepend (p : Text) (k : Cut) : Cut := ⟨p ++ k.before, k.after⟩

@[simp] theorem before_prepend (p : Text) (k : Cut) : (k.prepend p).before = p ++ k.before := rfl

@[simp] theorem after_prepend (p : Text) (k : Cut) : (k.prepend p).after = k.after := rfl

theorem prepend_nil (k : Cut) : k.prepend [] = k := rfl

@[simp] theorem prepend_prepend (p q : Text) (k : Cut) :
    (k.prepend q).prepend p = k.prepend (p ++ q) := by
  rw [prepend, prepend, prepend, List.append_assoc]

end Cut

namespace Text

/-- The number of bytes of a text in UTF-8. -/
def byteLength : Text → Nat
  | [] => 0
  | c :: s => c.utf8Size + byteLength s

@[simp] theorem byteLength_nil : byteLength [] = 0 := rfl

@[simp] theorem byteLength_cons (c : Char) (s : Text) :
    byteLength (c :: s) = c.utf8Size + byteLength s := rfl

@[simp] theorem byteLength_append (s t : Text) :
    byteLength (s ++ t) = byteLength s + byteLength t := by
  induction s with
  | nil => simp
  | cons c s ih => simp [ih, Nat.add_assoc]

theorem byteLength_le_of_sublist {s t : Text} (h : s.Sublist t) : byteLength s ≤ byteLength t := by
  induction h with
  | slnil => exact Nat.le_refl 0
  | cons c _ ih =>
    rw [byteLength_cons]
    omega
  | cons_cons c _ ih =>
    rw [byteLength_cons, byteLength_cons]
    omega

theorem byteLength_pos {s : Text} (h : s ≠ []) : 0 < byteLength s := by
  obtain ⟨c, t, rfl⟩ := List.exists_cons_of_ne_nil h
  have hpos := c.utf8Size_pos
  rw [byteLength_cons]
  omega

theorem braced_append (s t : Text) : braced s ++ t = '{' :: (s ++ '}' :: t) := by simp [braced]

theorem length_braced (s : Text) : (braced s).length = s.length + 2 := by simp [braced]

/-- Where neither brace passes, braces around a text make no difference. -/
theorem filter_braced {p : Char → Bool} (ho : p '{' = false) (hc : p '}' = false) (s : Text) :
    (braced s).filter p = s.filter p := by
  rw [braced, List.filter_cons_of_neg (by simp [ho]), List.filter_append,
    List.filter_cons_of_neg (by simp [hc]), List.filter_nil, List.append_nil]

/-- The cut at a byte offset; `none` past the end of the text or inside a character. -/
def cutAt? : Text → Nat → Option Cut
  | s, 0 => some ⟨[], s⟩
  | [], _ + 1 => none
  | c :: s, p + 1 =>
    if c.utf8Size ≤ p + 1 then (cutAt? s (p + 1 - c.utf8Size)).map (·.prepend [c]) else none

/-- A cut at `p` splits the text after exactly `p` bytes, and there is one wherever that is
    possible. -/
theorem cutAt?_eq_some_iff {s : Text} {p : Nat} {k : Cut} :
    cutAt? s p = some k ↔ s = k.before ++ k.after ∧ byteLength k.before = p := by
  fun_induction cutAt? s p generalizing k with
  | case1 s =>
    constructor
    · rintro ⟨⟩; simp
    · rintro ⟨rfl, h⟩
      match k with
      | ⟨[], b⟩ => rfl
      | ⟨c :: a, b⟩ => have := c.utf8Size_pos; simp at h; omega
  | case2 p =>
    constructor
    · simp
    · rintro ⟨h, hp⟩
      have : k.before = [] := by simp_all
      simp [this] at hp
  | case3 c s p hle ih =>
    constructor
    · intro h
      obtain ⟨j, hj, rfl⟩ := Option.map_eq_some_iff.1 h
      obtain ⟨rfl, hp⟩ := ih.1 hj
      simp; omega
    · rintro ⟨hs, hp⟩
      match k, hs, hp with
      | ⟨[], b⟩, _, hp => simp at hp
      | ⟨d :: a, b⟩, hs, hp =>
        simp at hs hp
        obtain ⟨rfl, rfl⟩ := hs
        exact Option.map_eq_some_iff.2 ⟨⟨a, b⟩, ih.2 ⟨rfl, by simp; omega⟩, rfl⟩
  | case4 c s p hle =>
    constructor
    · simp
    · rintro ⟨hs, hp⟩
      match k, hs, hp with
      | ⟨[], b⟩, _, hp => simp at hp
      | ⟨d :: a, b⟩, hs, hp =>
        simp at hs hp
        obtain ⟨rfl, rfl⟩ := hs
        omega

/-- The rest of a text that starts with `p`. -/
def after? : Text → Text → Option Text
  | [], s => some s
  | _ :: _, [] => none
  | a :: p, c :: s => if a = c then after? p s else none

theorem after?_eq_some_iff {p s t : Text} : after? p s = some t ↔ s = p ++ t := by
  fun_induction after? p s with
  | case1 => simp
  | case2 => simp
  | case3 p c s ih => simp [ih]
  | case4 a p c s h => simp; rintro rfl; exact absurd rfl h

theorem after?_isSome_iff {p s : Text} : (after? p s).isSome ↔ p <+: s := by
  rw [Option.isSome_iff_exists]
  exact exists_congr fun _ => after?_eq_some_iff.trans eq_comm

theorem after?_eq_none_iff {p s : Text} : after? p s = none ↔ ¬ p <+: s := by
  rw [← after?_isSome_iff, Option.not_isSome_iff_eq_none]

/-- The longest run at the head of a text of characters that pass `p`, and what follows it. -/
def run (p : Char → Bool) (s : Text) : Cut := ⟨s.takeWhile p, s.dropWhile p⟩

theorem run_append (p : Char → Bool) (s : Text) : (run p s).before ++ (run p s).after = s :=
  List.takeWhile_append_dropWhile

theorem of_mem_before_run {p : Char → Bool} {s : Text} {c : Char} (h : c ∈ (run p s).before) :
    p c = true := List.all_eq_true.1 List.all_takeWhile c h

theorem after_run_suffix (p : Char → Bool) (s : Text) : (run p s).after <:+ s :=
  List.dropWhile_suffix p

theorem head?_after_run (p : Char → Bool) (s : Text) : (run p s).after.head?.any p = false := by
  have hhead := List.head?_dropWhile_not p s
  rw [run]
  cases hc : (s.dropWhile p).head? with
  | none => rfl
  | some c =>
    rw [hc] at hhead
    simpa using hhead

/-- Characters that pass make up a run when none follows them that passes. -/
theorem run_append_of_head? {p : Char → Bool} {x s : Text} (hx : ∀ c ∈ x, p c = true)
    (hs : s.head?.any p = false) : run p (x ++ s) = ⟨x, s⟩ := by
  rw [run, List.takeWhile_append_of_pos hx, List.dropWhile_append_of_pos hx]
  cases s with
  | nil => rw [List.takeWhile_nil, List.dropWhile_nil, List.append_nil]
  | cons c s =>
    have hc : ¬ p c = true := by simpa using hs
    rw [List.takeWhile_cons_of_neg hc, List.dropWhile_cons_of_neg hc, List.append_nil]

end Text

end TidyTex
