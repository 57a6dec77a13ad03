import TidyTex.Canonical
import TidyTex.Proofs.Command
import TidyTex.Proofs.Rule
import TidyTex.Proofs.Stability.Rank

/-! Steps that lower what is measured of a text or leave the text as it is.

    If a row of such steps brings a text back, each of them has left it as it is
    (`Lowers.comp_eq_self_iff`). The passes of canonical notation that take something away lower the
    rank of a text, since a command, a mark and a period all weigh something, and for each of them
    an `iff` says which texts it leaves as they are. -/

namespace TidyTex

open Text

/-- A step that lowers what is measured of a text or leaves the text as it is. -/
def Lowers {β : Type} [LT β] (measure : Text → β) (f : Text → Text) : Prop :=
  ∀ s, f s = s ∨ measure (f s) < measure s

namespace Lowers

variable {β : Type} [Preorder β] {measure : Text → β} {f g : Text → Text} {s : Text}

theorem le (hf : Lowers measure f) (s : Text) : measure (f s) ≤ measure s := by
  rcases hf s with heq | hlt
  · rw [heq]
  · exact hlt.le

theorem eq_self_of_le (hf : Lowers measure f) (h : measure s ≤ measure (f s)) : f s = s :=
  (hf s).resolve_right h.not_gt

theorem comp (hg : Lowers measure g) (hf : Lowers measure f) : Lowers measure (g ∘ f) := by
  intro s
  rcases hf s with heq | hlt
  · rw [Function.comp_apply, heq]
    exact hg s
  · exact Or.inr ((hg.le _).trans_lt hlt)

/-- Two steps that bring a text back have both left it as it is. -/
theorem comp_eq_self_iff (hg : Lowers measure g) (hf : Lowers measure f) :
    g (f s) = s ↔ f s = s ∧ g s = s := by
  constructor
  · intro h
    have hfs : f s = s := by
      refine hf.eq_self_of_le ?_
      conv => lhs; rw [← h]
      exact hg.le _
    rw [hfs] at h
    exact ⟨hfs, h⟩
  · rintro ⟨hfs, hgs⟩
    rw [hfs, hgs]

variable {α : Type} {step : Text → α → Text} {l : List α}

theorem foldl (h : ∀ a ∈ l, Lowers measure fun s => step s a) :
    Lowers measure fun s => l.foldl step s := by
  induction l with
  | nil => exact fun _ => Or.inl rfl
  | cons a l ih =>
    rw [List.forall_mem_cons] at h
    exact (ih h.2).comp h.1

theorem foldl_eq_self_iff (h : ∀ a ∈ l, Lowers measure fun s => step s a) :
    l.foldl step s = s ↔ ∀ a ∈ l, step s a = s := by
  induction l with
  | nil => exact iff_of_true rfl nofun
  | cons a l ih =>
    rw [List.forall_mem_cons] at h ⊢
    rw [List.foldl_cons, (foldl h.2).comp_eq_self_iff h.1, ih h.2]

end Lowers

theorem lowers_of_weight {f : Text → Text} (h : ∀ s, f s = s ∨ weight (f s) < weight s) :
    Lowers rank f :=
  fun s => (h s).imp_right rank_lt_of_weight_lt

/-! ### Commands and marks -/

theorem lowers_removeCommand {m : Matching} {r : Removal} {name : Text} (h : 0 < weight name) :
    Lowers rank (removeCommand m r name) := by
  refine lowers_of_weight fun s => ?_
  refine removeCommand_induction (P := fun t => t = s ∨ weight t < weight s) ?_ (Or.inl rfl)
  intro k hk
  have hremains := weight_le_of_sublist (r.remains_sublist k.after)
  have hle : weight (k.before ++ name ++ k.after) ≤ weight s := by
    rcases hk with heq | hlt
    · rw [heq]
    · exact hlt.le
  refine Or.inr ?_
  rw [weight_append, weight_append] at hle
  rw [weight_append]
  omega

theorem removeCommand_eq_self_iff {r : Removal} {name s : Text} (h : 0 < weight name) :
    removeCommand .anywhere r name s = s ↔ ¬ name <:+: s := by
  have hne : name ≠ [] := by
    rintro rfl
    exact absurd h (Nat.lt_irrefl 0)
  constructor
  · intro heq
    rw [← heq]
    exact not_isInfix_removeCommand hne
  · exact removeCommand_eq_self

/-- A text without the commands of a list, removed one after the other. -/
def removeAll (r : Removal) (names : List Text) (s : Text) : Text :=
  names.foldl (fun t name => removeCommand .anywhere r name t) s

section
variable {r : Removal} {names : List Text} (h : ∀ name ∈ names, 0 < weight name)
include h

theorem lowers_removeAll : Lowers rank (removeAll r names) :=
  .foldl fun name hname => lowers_removeCommand (h name hname)

theorem removeAll_eq_self_iff {s : Text} :
    removeAll r names s = s ↔ ∀ name ∈ names, ¬ name <:+: s := by
  rw [removeAll, Lowers.foldl_eq_self_iff fun name hname => lowers_removeCommand (h name hname)]
  exact forall₂_congr fun name hname => removeCommand_eq_self_iff (h name hname)

end

theorem weight_pos_of_mem_deletedCommands : ∀ name ∈ deletedCommands, 0 < weight name := by
  decide

theorem weight_pos_of_mem_unwrappedCommands : ∀ name ∈ unwrappedCommands, 0 < weight name := by
  decide

theorem removeStyling_eq :
    removeStyling = removeAll .unwrap unwrappedCommands ∘ removeAll .delete deletedCommands := by
  funext s
  rw [removeStyling, Function.comp_apply, removeAll, removeAll]

theorem lowers_removeStyling : Lowers rank removeStyling := by
  rw [removeStyling_eq]
  exact (lowers_removeAll weight_pos_of_mem_unwrappedCommands).comp
    (lowers_removeAll weight_pos_of_mem_deletedCommands)

theorem removeStyling_eq_self_iff {s : Text} :
    removeStyling s = s ↔ ∀ name ∈ deletedCommands ++ unwrappedCommands, ¬ name <:+: s := by
  rw [removeStyling_eq, Function.comp_apply,
    (lowers_removeAll weight_pos_of_mem_unwrappedCommands).comp_eq_self_iff
      (lowers_removeAll weight_pos_of_mem_deletedCommands),
    removeAll_eq_self_iff weight_pos_of_mem_deletedCommands,
    removeAll_eq_self_iff weight_pos_of_mem_unwrappedCommands]
  exact List.forall_mem_append.symm

/-- A text that weighs as much without marks had none. -/
theorem not_isInfix_of_weight_le {s : Text} (h : weight s ≤ weight (deleteCosmetics s)) :
    ∀ p ∈ cosmeticDeletions, ¬ p.old <:+: s := by
  have htable : ∀ p ∈ cosmeticDeletions, weight p.new < weight p.old := by decide
  refine Replacement.not_isInfix_of_size_le (fun s => (weight s : ℤ)) ?_ ?_ ?_
  · exact fun s t => by rw [weight_append, Int.natCast_add]
  · exact fun p hp => Int.ofNat_lt.2 (htable p hp)
  · exact Int.ofNat_le.2 h

theorem lowers_deleteCosmetics : Lowers rank deleteCosmetics := by
  refine lowers_of_weight fun s => ?_
  by_cases h : weight s ≤ weight (deleteCosmetics s)
  · exact Or.inl (Replacement.applyAll_eq_self (not_isInfix_of_weight_le h))
  · exact Or.inr (Nat.lt_of_not_le h)

theorem deleteCosmetics_eq_self_iff {s : Text} :
    deleteCosmetics s = s ↔ ∀ p ∈ cosmeticDeletions, ¬ p.old <:+: s := by
  refine ⟨fun h => not_isInfix_of_weight_le ?_, Replacement.applyAll_eq_self⟩
  rw [h]

/-! ### The last period -/

theorem dropPeriod_eq_self_iff {s : Text} : dropPeriod s = s ↔ s.getLast? ≠ some '.' := by
  unfold dropPeriod
  split
  · next h =>
    refine iff_of_false (fun heq => ?_) (not_not_intro h)
    obtain ⟨t, rfl⟩ := List.getLast?_eq_some_iff.1 h
    rw [List.dropLast_concat] at heq
    exact absurd (congrArg List.length heq) (by simp)
  · next h => exact iff_of_true rfl h

theorem lowers_dropPeriod : Lowers rank dropPeriod := by
  refine lowers_of_weight fun s => ?_
  unfold dropPeriod
  split
  · next h =>
    obtain ⟨t, rfl⟩ := List.getLast?_eq_some_iff.1 h
    have hperiod : weight ['.'] = 1 := rfl
    rw [List.dropLast_concat, weight_append, hperiod]
    exact Or.inr (Nat.lt_succ_self _)
  · exact Or.inl rfl

end TidyTex
