import Mathlib.Data.Prod.Lex
import TidyTex.Proofs.Rule

/-! A rank that no pass raises.

    Some passes take parts of a text away and others write it anew, and a text that comes back as it
    was could owe that to one pass that undoes another. It does not: there is a rank of texts that
    no pass raises, and that every pass that takes something away lowers.

    First in rank comes the weight, the characters added up with such costs that respelling is free
    and taking away is not:

        0     \ { } ( ) and the letters of `\bar` and `\var…`
        2     p, m and E                4     ± and ∓
        3     + and -                   1     all others

    Braces have to be free, since respelling adds them, but then outer braces are stripped for free
    as well. So texts of one weight are ranked by their bare groups: those that open neither behind
    a script mark nor behind a command, up to the first one that does. A brace that is added opens
    behind a script mark or a command, and none behind it is counted any more. -/

namespace TidyTex

open Text

/-- What a character counts for in the weight of a text. -/
def cost : Char → Nat
  | '\\' | '{' | '}' | '(' | ')' | 'b' | 'a' | 'r' | 'v' => 0
  | 'p' | 'm' | 'E' => 2
  | '+' | '-' => 3
  | '±' | '∓' => 4
  | _ => 1

/-- The costs of all characters of a text together. -/
def weight : Text → Nat
  | [] => 0
  | c :: s => cost c + weight s

@[simp] theorem weight_nil : weight [] = 0 := rfl

@[simp] theorem weight_cons (c : Char) (s : Text) : weight (c :: s) = cost c + weight s := rfl

@[simp] theorem weight_append (s t : Text) : weight (s ++ t) = weight s + weight t := by
  induction s with
  | nil => rw [List.nil_append, weight_nil, Nat.zero_add]
  | cons c s ih => rw [List.cons_append, weight_cons, ih, weight_cons, Nat.add_assoc]

theorem weight_le_of_sublist {s t : Text} (h : s.Sublist t) : weight s ≤ weight t := by
  induction h with
  | slnil => exact Nat.le_refl 0
  | cons c _ ih =>
    rw [weight_cons]
    omega
  | cons_cons c _ ih =>
    rw [weight_cons, weight_cons]
    omega

/-! ### Bare groups -/

/-- What stands right before a place in a text. -/
inductive Mode where
  /-- A backslash. -/
  | backslash
  /-- A backslash and one letter or more. -/
  | name
  /-- A script mark. -/
  | script
  /-- Anything else. -/
  | plain
  deriving DecidableEq, Repr

namespace Mode

/-- What stands before the place behind a character. -/
def next : Mode → Char → Mode
  | _, '\\' => backslash
  | _, '_' => script
  | _, '^' => script
  | backslash, c => if c.isAlpha then name else plain
  | name, c => if c.isAlpha then name else plain
  | _, _ => plain

/-- What stands before the place behind a text. -/
def after (m : Mode) (s : Text) : Mode := s.foldl next m

/-- Whether a group that opens here belongs to what stands before it. -/
def owns : Mode → Bool
  | name | script => true
  | backslash | plain => false

/-- All modes. -/
def all : List Mode := [backslash, name, script, plain]

theorem mem_all (m : Mode) : m ∈ all := by cases m <;> decide

@[simp] theorem after_nil (m : Mode) : m.after [] = m := rfl

@[simp] theorem after_cons (m : Mode) (c : Char) (s : Text) :
    m.after (c :: s) = (m.next c).after s := rfl

theorem after_append (m : Mode) (s t : Text) : m.after (s ++ t) = (m.after s).after t :=
  List.foldl_append

theorem next_brace (m : Mode) : m.next '{' = plain := by cases m <;> rfl

end Mode

/-- The number of opening braces before the first one that belongs to what stands before it. -/
def bareGroups : Mode → Text → Nat
  | _, [] => 0
  | m, c :: s =>
    if c = '{' then if m.owns then 0 else bareGroups .plain s + 1
    else bareGroups (m.next c) s

/-- Whether no opening brace belongs to what stands before it. -/
def isBare : Mode → Text → Bool
  | _, [] => true
  | m, c :: s => if c = '{' then !m.owns && isBare .plain s else isBare (m.next c) s

/-- Behind a text whose groups are bare the groups go on to count. -/
theorem bareGroups_append_of_isBare {m : Mode} {s : Text} (h : isBare m s = true) (t : Text) :
    bareGroups m (s ++ t) = bareGroups m s + bareGroups (m.after s) t := by
  induction s generalizing m with
  | nil => exact (Nat.zero_add _).symm
  | cons c s ih =>
    rw [isBare] at h
    rw [List.cons_append, bareGroups, bareGroups, Mode.after_cons]
    split
    · next hc =>
      rw [if_pos hc, Bool.and_eq_true, Bool.not_eq_true'] at h
      have howns : ¬ m.owns = true := by rw [h.1]; nofun
      rw [if_neg howns, if_neg howns, ih h.2, hc, Mode.next_brace, Nat.add_right_comm]
    · next hc =>
      rw [if_neg hc] at h
      exact ih h

/-- Behind a group that is not bare no groups count. -/
theorem bareGroups_append_of_not_isBare {m : Mode} {s : Text} (h : isBare m s = false) (t : Text) :
    bareGroups m (s ++ t) = bareGroups m s := by
  induction s generalizing m with
  | nil => cases h
  | cons c s ih =>
    rw [isBare] at h
    rw [List.cons_append, bareGroups, bareGroups]
    split
    · next hc =>
      rw [if_pos hc] at h
      split
      · rfl
      · next howns =>
        rw [Bool.not_eq_true] at howns
        rw [howns, Bool.not_false, Bool.true_and] at h
        rw [ih h]
    · next hc =>
      rw [if_neg hc] at h
      exact ih h

/-- A text has the bare groups of each of its beginnings. -/
theorem bareGroups_le_append (m : Mode) (s t : Text) : bareGroups m s ≤ bareGroups m (s ++ t) := by
  cases h : isBare m s with
  | true =>
    rw [bareGroups_append_of_isBare h]
    exact Nat.le_add_right _ _
  | false => rw [bareGroups_append_of_not_isBare h]

/-! ### Ranks -/

/-- The rank of a text: its weight, and among texts of one weight its bare groups. -/
def rank (s : Text) : ℕ ×ₗ ℕ := toLex (weight s, bareGroups .plain s)

theorem rank_lt_of_weight_lt {s t : Text} (h : weight t < weight s) : rank t < rank s :=
  Prod.Lex.toLex_lt_toLex.2 (Or.inl h)

theorem rank_lt_of_weight_le {s t : Text} (h : weight t ≤ weight s)
    (hbare : bareGroups .plain t < bareGroups .plain s) : rank t < rank s := by
  rcases Nat.lt_or_eq_of_le h with hlt | heq
  · exact rank_lt_of_weight_lt hlt
  · exact Prod.Lex.toLex_lt_toLex.2 (Or.inr ⟨heq, hbare⟩)

/-- The rank of `t` is not above that of `s`, and goes on to be when both stand behind a text. -/
def Relieves (t s : Text) : Prop :=
  weight t < weight s ∨ weight t = weight s ∧ ∀ m, bareGroups m t ≤ bareGroups m s

namespace Relieves

variable {s t u : Text}

theorem refl (s : Text) : Relieves s s := Or.inr ⟨rfl, fun _ => Nat.le_refl _⟩

theorem trans (hts : Relieves t s) (hus : Relieves u t) : Relieves u s := by
  rcases hts with hts | ⟨hts, hbare⟩
  · rcases hus with hus | ⟨hus, -⟩
    · exact Or.inl (by omega)
    · exact Or.inl (by omega)
  · rcases hus with hus | ⟨hus, hbare'⟩
    · exact Or.inl (by omega)
    · exact Or.inr ⟨by omega, fun m => Nat.le_trans (hbare' m) (hbare m)⟩

theorem weight_le (h : Relieves t s) : weight t ≤ weight s := by
  rcases h with hlt | ⟨heq, -⟩
  · exact hlt.le
  · exact heq.le

theorem rank_le (h : Relieves t s) : rank t ≤ rank s := by
  rcases h with hlt | ⟨heq, hbare⟩
  · exact (rank_lt_of_weight_lt hlt).le
  · exact Prod.Lex.toLex_le_toLex.2 (Or.inr ⟨heq, hbare .plain⟩)

theorem cons (c : Char) (h : Relieves t s) : Relieves (c :: t) (c :: s) := by
  rcases h with hlt | ⟨heq, hbare⟩
  · exact Or.inl (Nat.add_lt_add_left hlt _)
  · refine Or.inr ⟨by rw [weight_cons, weight_cons, heq], fun m => ?_⟩
    rw [bareGroups, bareGroups]
    split
    · split
      · exact Nat.le_refl 0
      · exact Nat.succ_le_succ (hbare .plain)
    · exact hbare (m.next c)

end Relieves

/-- Whether, read in a mode, `y` can be written for `x` without a bare group more: the groups that
    count end in `y`, or both have bare groups only and leave the same mode. -/
def Mode.allows (m : Mode) (x y : Text) : Bool :=
  !isBare m y && bareGroups m y == 0 ||
    isBare m x && isBare m y && bareGroups m y ≤ bareGroups m x && m.after y == m.after x

/-- Whether `y` can be written for `x` without raising the rank of a text. -/
def eases (y x : Text) : Bool :=
  weight y < weight x || weight y == weight x && Mode.all.all (·.allows x y)

theorem Mode.bareGroups_append_le {m : Mode} {x y u v : Text} (h : m.allows x y = true)
    (huv : ∀ m, bareGroups m u ≤ bareGroups m v) :
    bareGroups m (y ++ u) ≤ bareGroups m (x ++ v) := by
  simp only [allows, Bool.or_eq_true, Bool.and_eq_true, Bool.not_eq_true', beq_iff_eq,
    decide_eq_true_eq] at h
  rcases h with ⟨hy, hzero⟩ | ⟨⟨⟨hx, hy⟩, hle⟩, hafter⟩
  · rw [bareGroups_append_of_not_isBare hy, hzero]
    exact Nat.zero_le _
  · rw [bareGroups_append_of_isBare hy, bareGroups_append_of_isBare hx, hafter]
    exact Nat.add_le_add hle (huv _)

theorem Relieves.append {x y s t : Text} (h : eases y x = true) (hts : Relieves t s) :
    Relieves (y ++ t) (x ++ s) := by
  simp only [eases, Bool.or_eq_true, Bool.and_eq_true, decide_eq_true_eq, beq_iff_eq] at h
  have hle := hts.weight_le
  rcases h with hlt | ⟨heq, hallows⟩
  · refine Or.inl ?_
    rw [weight_append, weight_append]
    omega
  · rcases hts with hlt | ⟨heq', hbare⟩
    · refine Or.inl ?_
      rw [weight_append, weight_append]
      omega
    · refine Or.inr ⟨by rw [weight_append, weight_append, heq, heq'], fun m => ?_⟩
      exact m.bareGroups_append_le (List.all_eq_true.1 hallows m m.mem_all) hbare

/-- What stands before a brace that belongs to it has all the bare groups there are. -/
theorem bareGroups_append_brace {m : Mode} {s : Text} (h : (m.after s).owns = true) (t : Text) :
    bareGroups m (s ++ '{' :: t) = bareGroups m s := by
  cases hs : isBare m s with
  | true => rw [bareGroups_append_of_isBare hs, bareGroups, if_pos rfl, if_pos h, Nat.add_zero]
  | false => rw [bareGroups_append_of_not_isBare hs]

/-- A group that belongs to what stands before it comes in front of all that is not to count. -/
theorem Relieves.of_brace {s t u : Text} (h : ∀ m : Mode, (m.after s).owns = true)
    (ht : t.head? = some '{') (hweight : weight t ≤ weight u) : Relieves (s ++ t) (s ++ u) := by
  obtain ⟨t, rfl⟩ := List.head?_eq_some_iff.1 ht
  rcases Nat.lt_or_eq_of_le hweight with hlt | heq
  · refine Or.inl ?_
    rw [weight_append, weight_append]
    omega
  · refine Or.inr ⟨by rw [weight_append, weight_append, heq], fun m => ?_⟩
    rw [bareGroups_append_brace (h m)]
    exact bareGroups_le_append m s u

/-- A pass raises the rank nowhere if what it writes does not, whatever comes behind it. -/
theorem Rule.relieves_pass {r : Rule}
    (h : ∀ {x y s t}, r.Writes x y → Relieves t s → Relieves (y ++ t) (x ++ s)) (s : Text) :
    Relieves (r.pass s) s := by
  refine pass_induction (R := fun s t => Relieves t s) (.refl []) ?_ ?_ s
  · exact fun _ ih => ih.cons _
  · exact fun hw ih => h hw ih

end TidyTex
