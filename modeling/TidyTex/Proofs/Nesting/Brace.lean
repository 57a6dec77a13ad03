import TidyTex.Proofs.Nesting.Group
import TidyTex.Proofs.Occurrence

/-! Balanced braces, by counting.

    The braces of a text are balanced when no beginning of it has more closing braces than opening
    ones and the whole has as many of either. `braceBalanced_iff_nests` says that this is nesting
    with the braces alone seen, so a stack of open delimiters that are all braces is a number. With
    one kind of delimiter there are no partners to keep apart, and a new pair may go around any part
    of a text, also around one that begins in one group and ends in another
    (`braceBalanced_insert`). -/

namespace TidyTex.Text

open Delimiter

/-- Whether a character is a brace. -/
def isBrace (c : Char) : Bool := c == '{' || c == '}'

theorem isBrace_eq_true_iff {c : Char} : isBrace c = true ↔ c = '{' ∨ c = '}' := by
  simp [isBrace]

theorem isBrace_eq_false_iff {c : Char} : isBrace c = false ↔ c ≠ '{' ∧ c ≠ '}' := by
  simp [isBrace]

theorem count_braced (c : Char) (s : Text) :
    (braced s).count c = s.count c + if isBrace c then 1 else 0 := by
  by_cases ho : c = '{'
  · subst ho
    simp [braced, isBrace]
  · by_cases hc : c = '}'
    · subst hc
      simp [braced, isBrace]
    · have hseen : isBrace c = false := isBrace_eq_false_iff.2 ⟨ho, hc⟩
      simp [braced, hseen, Ne.symm ho, Ne.symm hc]

/-- What has no brace occurs before a group, in it or behind it. -/
theorem append_braced_cases {w x y z a b : Text} (hw : ∀ c ∈ w, isBrace c = false)
    (hne : w ≠ []) (h : x ++ (braced y ++ z) = a ++ (w ++ b)) :
    (∃ b', x = a ++ (w ++ b') ∧ b = b' ++ (braced y ++ z)) ∨
      (∃ a' b', a = x ++ '{' :: a' ∧ y = a' ++ (w ++ b') ∧ b = b' ++ '}' :: z) ∨
        ∃ a', a = x ++ (braced y ++ a') ∧ z = a' ++ (w ++ b) := by
  have ho : '{' ∉ w := fun hmem => absurd (hw _ hmem) (by decide)
  have hc : '}' ∉ w := fun hmem => absurd (hw _ hmem) (by decide)
  rw [braced_append] at h ⊢
  rcases append_cons_cases ho hne h with hx | ⟨a', rfl, h'⟩
  · exact Or.inl hx
  · rcases append_cons_cases hc hne h' with ⟨b', hy, hb⟩ | ⟨a'', rfl, hz⟩
    · exact Or.inr (Or.inl ⟨a', b', rfl, hy, hb⟩)
    · exact Or.inr (Or.inr ⟨a'', by rw [braced_append], hz⟩)

/-- A kind of characters that holds neither brace holds no brace. -/
theorem isBrace_eq_false_of_kind {kind : Char → Bool} (ho : kind '{' = false)
    (hcl : kind '}' = false) {c : Char} (h : kind c = true) : isBrace c = false := by
  rw [Bool.eq_false_iff]
  intro hc
  rcases isBrace_eq_true_iff.1 hc with rfl | rfl
  · rw [ho] at h; cases h
  · rw [hcl] at h; cases h

theorem seesBraces_isBrace : SeesBraces isBrace := ⟨rfl, rfl⟩

/-! ### What has no braces, inside a group -/

section
variable {seen : Char → Bool} {low out : List Delimiter}

/-- An open brace stays open over a text without braces, under whatever that text opens. -/
theorem exists_openAfter_of_plain {x : Text} (hx : ∀ c ∈ x, isBrace c = false)
    {inner : List Delimiter} (hinner : .brace ∉ inner)
    (h : openAfter seen (inner ++ .brace :: low) x = some out) :
    ∃ mid, .brace ∉ mid ∧ openAfter seen inner x = some mid ∧ out = mid ++ .brace :: low := by
  induction x generalizing inner with
  | nil => exact ⟨inner, hinner, rfl, (Option.some.inj h).symm⟩
  | cons c x ih =>
    rw [List.forall_mem_cons] at hx
    rcases openAfter_cons_cases h with ⟨d, hc, hd, hs⟩ | ⟨d, rest, hc, hd, hst, hs⟩ | ⟨hc, hs⟩
    · have hne : d ≠ .brace := by
        rintro rfl
        rw [opened?_eq_some_iff.1 hd] at hx
        cases hx.1
      rw [openAfter_cons_of_opened? hc hd]
      exact ih hx.2 (by simp [hne.symm, hinner]) hs
    · cases inner with
      | nil =>
        obtain ⟨rfl, -⟩ := List.cons.inj hst
        rw [closed?_eq_some_iff.1 hd] at hx
        cases hx.1
      | cons top inner =>
        obtain ⟨rfl, rfl⟩ := List.cons.inj hst
        rw [openAfter_cons_of_closed? hc hd]
        exact ih hx.2 (fun hmem => hinner (List.mem_cons_of_mem _ hmem)) hs
    · rw [openAfter_cons_of_inert hc]
      exact ih hx.2 hinner hs

/-- A brace closes what is on top, so nothing is open above the brace that it closes. -/
theorem openAfter_closing_iff (hseen : SeesBraces seen) {inner : List Delimiter}
    (hinner : .brace ∉ inner) {t : Text} :
    openAfter seen (inner ++ .brace :: low) ('}' :: t) = some out ↔
      inner = [] ∧ openAfter seen low t = some out := by
  cases inner with
  | nil => rw [List.nil_append, openAfter_cons_of_closed? hseen.closing rfl, and_iff_right rfl]
  | cons top inner =>
    refine iff_of_false ?_ fun h => List.cons_ne_nil top inner h.1
    intro h
    rcases openAfter_cons_cases h with ⟨d, -, hd, -⟩ | ⟨d, rest, -, hd, hst, -⟩ | ⟨hc, -⟩
    · cases hd
    · obtain ⟨rfl, -⟩ := List.cons.inj hst
      cases hd
      exact hinner List.mem_cons_self
    · cases (hc hseen.closing).2

/-- A group without braces in it is closed exactly when its content nests. -/
theorem openAfter_plain_group_iff (hseen : SeesBraces seen) {x : Text}
    (hx : ∀ c ∈ x, isBrace c = false) {t : Text} :
    openAfter seen low (braced x ++ t) = some out ↔
      Nests seen x ∧ openAfter seen low t = some out := by
  rw [braced_append]
  constructor
  · intro h
    rw [openAfter_cons_of_opened? hseen.opening (d := .brace) rfl] at h
    obtain ⟨mid, hmid, hclosing⟩ := openAfter_append_eq_some_iff.1 h
    obtain ⟨inner, hinner, hnests, rfl⟩ := exists_openAfter_of_plain hx List.not_mem_nil hmid
    obtain ⟨rfl, ht⟩ := (openAfter_closing_iff hseen hinner).1 hclosing
    exact ⟨hnests, ht⟩
  · rintro ⟨hnests, ht⟩
    rw [openAfter_group hseen hnests]
    exact ht

end

/-- Whether the braces of a text, counted from left to right, are balanced. -/
def BraceBalanced (s : Text) : Prop :=
  (∀ p, p <+: s → p.count '}' ≤ p.count '{') ∧ s.count '{' = s.count '}'

theorem forall_isPrefix_cons {c : Char} {s : Text} {P : Text → Prop} :
    (∀ p, p <+: c :: s → P p) ↔ P [] ∧ ∀ p, p <+: s → P (c :: p) := by
  constructor
  · intro h
    exact ⟨h [] List.nil_prefix, fun p hp => h (c :: p) (List.cons_prefix_cons.2 ⟨rfl, hp⟩)⟩
  · rintro ⟨hnil, hcons⟩ p hp
    rcases List.prefix_cons_iff.1 hp with rfl | ⟨t, rfl, ht⟩
    · exact hnil
    · exact hcons t ht

/-- With braces alone seen, the open delimiters after a text are as many as the count says, unless
    some beginning of it closes more than is open. -/
theorem openAfter_isBrace_eq_some_iff {n : Nat} {s : Text} {out : List Delimiter} :
    openAfter isBrace (List.replicate n .brace) s = some out ↔
      (∀ p, p <+: s → p.count '}' ≤ n + p.count '{') ∧
        out = List.replicate (n + s.count '{' - s.count '}') .brace := by
  induction s generalizing n with
  | nil => simp [eq_comm]
  | cons c s ih =>
    rw [forall_isPrefix_cons]
    by_cases ho : c = '{'
    · subst ho
      rw [openAfter_cons_of_opened? rfl (d := .brace) rfl, ← List.replicate_succ, ih]
      simp [Nat.add_assoc, Nat.add_comm 1]
    · by_cases hc : c = '}'
      · subst hc
        cases n with
        | zero =>
          refine iff_of_false nofun ?_
          rintro ⟨⟨-, h⟩, -⟩
          exact absurd (h [] List.nil_prefix) (by decide)
        | succ n =>
          rw [List.replicate_succ, openAfter_cons_of_closed? rfl rfl, ih]
          simp [Nat.add_right_comm n 1]
      · have hseen : isBrace c = false := by simp [isBrace, ho, hc]
        rw [openAfter_cons_of_not_seen hseen, ih]
        simp [ho, hc]

/-- The count of braces and the nesting of braces are the same check. -/
theorem braceBalanced_iff_nests {s : Text} : BraceBalanced s ↔ Nests isBrace s := by
  have h : openAfter isBrace (List.replicate 0 .brace) s = some [] ↔ _ :=
    openAfter_isBrace_eq_some_iff
  simp only [List.replicate_zero, Nat.zero_add] at h
  rw [Nests, h, BraceBalanced]
  constructor
  · rintro ⟨hp, heq⟩
    exact ⟨hp, by simp [heq]⟩
  · rintro ⟨hp, heq⟩
    have hle := hp s List.prefix_rfl
    have hlen := congrArg List.length heq
    rw [List.length_nil, List.length_replicate] at hlen
    exact ⟨hp, by omega⟩

instance : DecidablePred BraceBalanced := fun _ => decidable_of_iff _ braceBalanced_iff_nests.symm

/-- One more brace below the open ones stays open on top. -/
theorem openAfter_isBrace_succ {n : Nat} {s : Text} {out : List Delimiter}
    (h : openAfter isBrace (List.replicate n .brace) s = some out) :
    openAfter isBrace (List.replicate (n + 1) .brace) s = some (.brace :: out) := by
  obtain ⟨-, rfl⟩ := openAfter_isBrace_eq_some_iff.1 h
  have h' := openAfter_append_stack h [.brace]
  rw [← List.replicate_succ', ← List.replicate_succ'] at h'
  exact h'

/-- A pair of braces may be put around any part of a text with balanced braces. -/
theorem braceBalanced_insert {a b c : Text} (h : BraceBalanced (a ++ b ++ c)) :
    BraceBalanced (a ++ braced b ++ c) := by
  rw [braceBalanced_iff_nests, Nests] at h ⊢
  obtain ⟨mid, hab, hc⟩ := openAfter_append_eq_some_iff.1 h
  obtain ⟨low, ha, hb⟩ := openAfter_append_eq_some_iff.1 hab
  obtain ⟨-, hlow⟩ := (openAfter_isBrace_eq_some_iff (n := 0)).1 ha
  have hb' : openAfter isBrace (.brace :: low) b = some (.brace :: mid) := by
    rw [hlow] at hb ⊢
    exact openAfter_isBrace_succ hb
  have hbraced : openAfter isBrace low (braced b) = some mid := by
    rw [braced, openAfter_cons_of_opened? rfl (d := .brace) rfl, openAfter_append, hb',
      Option.bind_some, openAfter_cons_of_closed? rfl rfl, openAfter_nil]
  exact openAfter_append_eq_some_iff.2
    ⟨mid, openAfter_append_eq_some_iff.2 ⟨low, ha, hbraced⟩, hc⟩

end TidyTex.Text
