import Mathlib.Algebra.GroupWithZero.Nat
import TidyTex.Proofs.Nesting.Content
import TidyTex.Proofs.Vector

/-! The outermost vectors of a text.

    The first vector of a text is outermost, and so is the first one behind its argument, and so
    on. They split the text into their arguments and the pieces around them:

        a \vec{ b \vec{ c } } d \vec{ e         pieces     a    } d
                                                arguments  b \vec{ c }    e

    The brace that closes an argument begins the next piece, so an argument that is never closed is
    followed by nothing. The pieces and the arguments make up the text (`text_outermost`), and every
    vector that is not outermost stands in an argument, which its own argument does not leave
    (`forall_argument_iff`). -/

namespace TidyTex.Vector

open Text

/-- An outermost vector: the piece of text before it, and its argument. -/
structure Piece where
  before : Text
  argument : Text
  deriving DecidableEq, Repr

/-- The outermost vectors of a text, and the piece behind the last one. -/
structure Pieces where
  vectors : List Piece
  last : Text
  deriving DecidableEq, Repr

namespace Pieces

/-- One more vector in front. -/
def cons (v : Piece) (p : Pieces) : Pieces := ⟨v :: p.vectors, p.last⟩

/-- The text that is split into these pieces. -/
def text (p : Pieces) : Text :=
  p.vectors.foldr (fun v t => v.before ++ (opening ++ (v.argument ++ t))) p.last

theorem text_cons (v : Piece) (p : Pieces) :
    (p.cons v).text = v.before ++ (opening ++ (v.argument ++ p.text)) := rfl

end Pieces

/-- The text behind the argument of the first vector is shorter than the whole. -/
theorem length_after_groupBody_lt {s : Text} {k : Cut} (h : cutFirst? opening s = some k) :
    (groupBody 0 k.after).after.length < s.length := by
  have hs := congrArg List.length (append_of_cutFirst? h)
  have hgroup := congrArg List.length (groupBody_append 0 k.after)
  have hpos := List.length_pos_iff.2 opening_ne_nil
  simp only [List.length_append] at hs hgroup
  omega

/-- Splits a text at its outermost vectors. -/
def outermost (s : Text) : Pieces :=
  match _h : cutFirst? opening s with
  | none => ⟨[], s⟩
  | some k =>
    (outermost (groupBody 0 k.after).after).cons ⟨k.before, (groupBody 0 k.after).before⟩
termination_by s.length
decreasing_by exact length_after_groupBody_lt _h

theorem outermost_of_none {s : Text} (h : cutFirst? opening s = none) :
    outermost s = ⟨[], s⟩ := by
  rw [outermost]
  split
  · rfl
  · next h' => simp [h] at h'

theorem outermost_of_some {s : Text} {k : Cut} (h : cutFirst? opening s = some k) :
    outermost s =
      (outermost (groupBody 0 k.after).after).cons ⟨k.before, (groupBody 0 k.after).before⟩ := by
  rw [outermost]
  split
  · next h' => simp [h] at h'
  · next h' => rw [h, Option.some.injEq] at h'; rw [h']

/-- With the text up to the first vector, another argument and a text behind it a text begins whose
    first vector has that argument. -/
theorem outermost_append {s : Text} {k : Cut} (h : cutFirst? opening s = some k) {a t : Text}
    (ha : groupBody 0 (a ++ t) = ⟨a, t⟩) :
    outermost (k.before ++ (opening ++ (a ++ t))) = (outermost t).cons ⟨k.before, a⟩ := by
  rw [outermost_of_some (cutFirst?_before_append h (a ++ t)), ha]

/-- A text with a vector, cut at the first one and at the end of its argument. -/
theorem append_of_first {s : Text} {k : Cut} (h : cutFirst? opening s = some k) :
    s = k.before ++ (opening ++ ((groupBody 0 k.after).before ++ (groupBody 0 k.after).after)) := by
  rw [groupBody_append, ← List.append_assoc]
  exact append_of_cutFirst? h

/-- What holds of a text without vectors, and of a text when it holds behind the argument of its
    first vector, holds of every text. -/
theorem outermost_induction {P : Text → Prop} (none : ∀ {s}, cutFirst? opening s = none → P s)
    (some : ∀ {s k}, cutFirst? opening s = some k → P (groupBody 0 k.after).after → P s)
    (s : Text) : P s := by
  fun_induction outermost s with
  | case1 s h => exact none h
  | case2 s k h ih => exact some h ih

/-- The pieces and the arguments make up the text. -/
theorem text_outermost (s : Text) : (outermost s).text = s := by
  induction s using outermost_induction with
  | none h => rw [outermost_of_none h]; rfl
  | some h ih =>
    conv => rhs; rw [append_of_first h]
    rw [outermost_of_some h, Pieces.text_cons, ih]

/-! ### Vectors in an argument -/

/-- No vector goes across the end of one. -/
theorem noneAcross_opening (b t : Text) : NoneAcross opening (b ++ opening) t :=
  noneAcross_append (by decide) b t

/-- No vector goes across the end of an argument. -/
theorem noneAcross_closing {x t : Text} (h : ∀ c ∈ t.head?, c = '}') : NoneAcross opening x t := by
  cases t with
  | nil => exact noneAcross_nil opening x
  | cons c t =>
    obtain rfl := h c rfl
    exact noneAcross_cons (by decide) x t

/-- In front of the first vector there is none. -/
theorem occurrences_before_first {s : Text} {k : Cut} (h : cutFirst? opening s = some k) :
    occurrences opening (k.before ++ opening) = 1 := by
  have hnone := (occurrences_eq_zero_iff opening_ne_nil).2
    (not_isInfix_before_cutFirst? opening_ne_nil h)
  have happ : occurrences opening (k.before ++ opening) =
      occurrences opening k.before + occurrences opening opening :=
    occurrences_append_cons (by decide) k.before _
  rw [happ, hnone]
  rfl

/-- The number of vectors that are in a row of outermost vectors. -/
def vectorCount (ps : List Piece) : Nat := (ps.map fun p => 1 + occurrences opening p.argument).sum

@[simp] theorem vectorCount_nil : vectorCount [] = 0 := rfl

@[simp] theorem vectorCount_cons (p : Piece) (ps : List Piece) :
    vectorCount (p :: ps) = 1 + occurrences opening p.argument + vectorCount ps := rfl

theorem vectorCount_append (ps qs : List Piece) :
    vectorCount (ps ++ qs) = vectorCount ps + vectorCount qs := by
  rw [vectorCount, List.map_append, List.sum_append, vectorCount, vectorCount]

/-- The vectors of a text are the outermost ones and those in their arguments. -/
theorem occurrences_eq_vectorCount (s : Text) :
    occurrences opening s = vectorCount (outermost s).vectors := by
  induction s using outermost_induction with
  | @none s h =>
    rw [outermost_of_none h]
    exact (occurrences_eq_zero_iff opening_ne_nil).2 (cutFirst?_eq_none_iff.1 h)
  | @some s k h ih =>
    have hclosing := noneAcross_closing (x := (groupBody 0 k.after).before)
      (head?_after_groupBody 0 k.after)
    conv => lhs; rw [append_of_first h, ← List.append_assoc]
    rw [(noneAcross_opening k.before _).occurrences_append opening_ne_nil,
      occurrences_before_first h, hclosing.occurrences_append opening_ne_nil, ih,
      outermost_of_some h, Pieces.cons, vectorCount_cons, Nat.add_assoc]

/-- In front of an outermost vector there are fewer vectors than in the text. -/
theorem vectorCount_lt {s : Text} {ps qs : List Piece} {p : Piece}
    (h : (outermost s).vectors = ps ++ p :: qs) : vectorCount ps < occurrences opening s := by
  rw [occurrences_eq_vectorCount, h, vectorCount_append, vectorCount_cons]
  omega

/-- A vector in the content of a group does not leave it. -/
theorem argument_isInfix {x y u r : Text} (h : groupBody 0 (y ++ r) = ⟨y, r⟩)
    (hy : y = x ++ (opening ++ u)) : (groupBody 0 (u ++ r)).before <:+: y := by
  have hcut : y = (x ++ command "vec") ++ '{' :: u := by simp [hy, opening]
  have hgroup : groupBody 0 ((x ++ command "vec") ++ '{' :: (u ++ r)) =
      ⟨(x ++ command "vec") ++ '{' :: u, r⟩ := by
    rw [← hcut, ← h, hcut]
    simp
  have hu := (before_groupBody_isPrefix_of_group hgroup).isInfix
  rw [hcut]
  exact hu.trans ((List.suffix_cons '{' u).trans (List.suffix_append _ _)).isInfix

/-- A vector of a text is the first one, or in the argument of that one, or behind it. -/
theorem vector_cases {s : Text} {k : Cut} (h : cutFirst? opening s = some k) {a t : Text}
    (hat : s = a ++ (opening ++ t)) :
    t = k.after ∨
      (∃ x u, (groupBody 0 k.after).before = x ++ (opening ++ u) ∧
        t = u ++ (groupBody 0 k.after).after) ∨
      ∃ x, (groupBody 0 k.after).after = x ++ (opening ++ t) := by
  have hle := length_before_le_of_cutFirst? h (a := a) (b := t) (by simpa using hat)
  rw [append_of_first h, ← List.append_assoc] at hat
  rcases (noneAcross_opening k.before _).append_cases hat with ⟨u, hb, ht⟩ | ⟨a', -, ha'⟩
  · have hlen := congrArg List.length hb
    simp only [List.length_append] at hlen
    obtain rfl : u = [] := List.length_eq_zero_iff.1 (by omega)
    exact Or.inl (by rw [ht, List.nil_append, groupBody_append])
  · rcases (noneAcross_closing (head?_after_groupBody 0 k.after)).append_cases ha' with
      ⟨u, hx, ht⟩ | ⟨x, -, hx⟩
    · exact Or.inr (Or.inl ⟨a', u, hx, ht⟩)
    · exact Or.inr (Or.inr ⟨x, hx⟩)

/-- What goes from a text to the texts in it holds of the arguments of all vectors as soon as it
    holds of those of the outermost ones. -/
theorem forall_argument_iff {P : Text → Prop} (hP : ∀ {u v : Text}, u <:+: v → P v → P u)
    (s : Text) : (∀ a t, s = a ++ (opening ++ t) → P (groupBody 0 t).before) ↔
      ∀ p ∈ (outermost s).vectors, P p.argument := by
  induction s using outermost_induction with
  | @none s h =>
    rw [outermost_of_none h]
    have hnone : ∀ a t, s ≠ a ++ (opening ++ t) := by
      rintro a t rfl
      exact cutFirst?_eq_none_iff.1 h ⟨a, t, by simp⟩
    simp [hnone]
  | @some s k h ih =>
    have hs := append_of_first h
    rw [outermost_of_some h, Pieces.cons, List.forall_mem_cons, ← ih]
    constructor
    · intro hall
      refine ⟨hall k.before k.after (by simpa using append_of_cutFirst? h), ?_⟩
      rintro a t hr
      refine hall (k.before ++ (opening ++ ((groupBody 0 k.after).before ++ a))) t ?_
      conv => lhs; rw [hs, hr]
      simp
    · rintro ⟨hfirst, hrest⟩ a t hat
      rcases vector_cases h hat with rfl | ⟨x, u, hx, rfl⟩ | ⟨a', ha'⟩
      · exact hfirst
      · exact hP (argument_isInfix (by rw [groupBody_append]) hx) hfirst
      · exact hrest a' t ha'

end TidyTex.Vector
