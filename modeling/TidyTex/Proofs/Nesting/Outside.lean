import TidyTex.Proofs.Nesting.Group

/-! Places of a text outside all of its groups.

    A group is a pair of delimiters with a text between them that nests, wherever it stands:

        before  (  body  )  after

    In a balanced text the places outside all groups are those before which nothing is left open
    (`outsideGroups_iff`). A balanced text may be cut there, and its two parts are balanced. -/

namespace TidyTex.Text

open Delimiter

/-- A group of a text, with what stands before it and after it. -/
structure Group (s : Text) where
  before : Text
  kind : Delimiter
  body : Text
  after : Text
  append : s = before ++ kind.opening :: (body ++ kind.closing :: after)
  isBalanced_body : isBalanced body = true

namespace Group

variable {s : Text}

/-- The place of the opening delimiter. -/
def start (g : Group s) : Nat := g.before.length

/-- The place behind the closing delimiter. -/
def stop (g : Group s) : Nat := g.before.length + g.body.length + 2

end Group

/-- Whether no occurrence of a text in another reaches into a group there. -/
def OutsideGroups (needle s : Text) : Prop :=
  ∀ a b, s = a ++ needle ++ b →
    ∀ g : Group s, a.length + needle.length ≤ g.start ∨ g.stop ≤ a.length

/-- A text in which no delimiter stands. -/
def DelimiterFree (s : Text) : Prop := ∀ c ∈ s, opened? c = none ∧ closed? c = none

instance : DecidablePred DelimiterFree := fun s =>
  List.decidableBAll (fun c => opened? c = none ∧ closed? c = none) s

theorem DelimiterFree.nests {seen : Char → Bool} {s : Text} (h : DelimiterFree s) :
    Nests seen s := nests_of_inert fun c hc _ => h c hc

/-- What lies outside all groups of a text lies outside all groups of a beginning of it. -/
theorem OutsideGroups.of_isPrefix {needle s t : Text} (hout : OutsideGroups needle t)
    (h : s <+: t) : OutsideGroups needle s := by
  obtain ⟨r, rfl⟩ := h
  rintro a b hsplit ⟨p, d, x, u, rfl, hx⟩
  refine hout a (b ++ r) ?_ ⟨p, d, x, u ++ r, ?_, hx⟩
  · rw [hsplit]
    simp
  · simp

/-- Before an occurrence outside all groups every delimiter is closed: one that is still open would
    have the occurrence inside its group. -/
theorem isBalanced_before_of_outsideGroups {needle s : Text} (hs : isBalanced s = true)
    (hout : OutsideGroups needle s) {a b : Text} (hsplit : s = a ++ needle ++ b) :
    isBalanced a = true := by
  rw [isBalanced_iff_nests] at hs ⊢
  have hfold := hs
  rw [hsplit, Nests, List.append_assoc] at hfold
  obtain ⟨stack, ha, hrest⟩ := openAfter_append_eq_some_iff.1 hfold
  cases stack with
  | nil => exact ha
  | cons d low =>
    obtain ⟨p, o, x, rfl, -, ho, -, hx⟩ := exists_opening ha
    obtain rfl : o = d.opening := opened?_eq_some_iff.1 ho
    have hrest' : openAfter (fun _ => true) ([] ++ d :: low) (needle ++ b) = some [] := hrest
    obtain ⟨y, c, t, hy, -, hc, hny, -⟩ := exists_closing hrest' (Nat.zero_le _)
    obtain rfl : c = d.closing := closed?_eq_some_iff.1 hc
    have hgroup : s = p ++ d.opening :: (x ++ y ++ d.closing :: t) := by
      rw [hsplit, List.append_assoc, hy]
      simp
    have hbody : isBalanced (x ++ y) = true := isBalanced_iff_nests.2 (hx.append hny)
    have hplace := hout _ b hsplit ⟨p, d, x ++ y, t, hgroup, hbody⟩
    simp only [Group.start, Group.stop, List.length_append, List.length_cons] at hplace
    omega

/-- A beginning of a text that ends inside a group is not balanced. -/
theorem not_isBalanced_of_inside {p x t a b : Text} {d : Delimiter}
    (hsplit : p ++ d.opening :: (x ++ d.closing :: t) = a ++ b) (hx : isBalanced x = true)
    (hstart : p.length < a.length) (hstop : a.length < p.length + x.length + 2) :
    ¬ isBalanced a = true := by
  intro ha
  obtain ⟨n, hn⟩ := Nat.exists_eq_add_of_lt hstart
  have htake : a = p ++ d.opening :: x.take n := by
    have h := congrArg (List.take a.length) hsplit
    rw [List.take_left, hn, Nat.add_assoc, List.take_length_add_append, List.take_succ_cons,
      List.take_append_of_le_length (by omega)] at h
    exact h.symm
  rw [isBalanced_iff_nests, htake] at ha
  rw [isBalanced_iff_nests, ← List.take_append_drop n x] at hx
  obtain ⟨low, -, hopen⟩ := openAfter_append_eq_some_iff.1 ha
  rw [openAfter_cons_of_opened? rfl (opened?_eq_some_iff.2 rfl)] at hopen
  obtain ⟨inner, hinner, -⟩ := openAfter_append_eq_some_iff.1 hx
  have hstack := openAfter_append_stack hinner (d :: low)
  rw [List.nil_append, hopen, Option.some.injEq] at hstack
  simp at hstack

/-- In a balanced text, to occur outside all groups is to occur with every delimiter closed. -/
theorem outsideGroups_iff {needle s : Text} (hs : isBalanced s = true)
    (hneedle : DelimiterFree needle) :
    OutsideGroups needle s ↔ ∀ a b, s = a ++ needle ++ b → isBalanced a = true := by
  constructor
  · intro hout a b hsplit
    exact isBalanced_before_of_outsideGroups hs hout hsplit
  · rintro hbefore a b hsplit ⟨p, d, x, t, rfl, hx⟩
    have ha := hbefore a b hsplit
    rw [List.append_assoc] at hsplit
    simp only [Group.start, Group.stop]
    -- The group cannot open in the occurrence either, in which no delimiter stands.
    rcases Nat.lt_or_ge p.length a.length with hlt | hge
    · refine Or.inr (Nat.le_of_not_lt fun hstop => ?_)
      exact not_isBalanced_of_inside hsplit hx hlt hstop ha
    · refine Or.inl (Nat.le_of_not_lt fun hstart => ?_)
      have hopening : (a ++ (needle ++ b))[p.length]? = some d.opening := by
        rw [← hsplit]
        simp
      rw [List.getElem?_append_right hge, List.getElem?_append_left (by omega)] at hopening
      have hnone := (hneedle _ (List.mem_of_getElem? hopening)).1
      rw [opened?_eq_some_iff.2 rfl] at hnone
      cases hnone

/-- What comes before the occurrences of a text can be checked place by place. -/
theorem forall_occurrence_iff {needle s : Text} {P : Text → Prop} :
    (∀ a b, s = a ++ needle ++ b → P a) ↔
      ∀ n ≤ s.length, needle <+: s.drop n → P (s.take n) := by
  constructor
  · rintro h n - ⟨b, hb⟩
    exact h _ b (by rw [List.append_assoc, hb, List.take_append_drop])
  · rintro h a b rfl
    have ha := h a.length (by simp only [List.length_append]; omega)
    rw [List.append_assoc, List.drop_left, List.take_left] at ha
    exact ha (List.prefix_append needle b)

end TidyTex.Text
