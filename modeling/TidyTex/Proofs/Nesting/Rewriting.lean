import TidyTex.Proofs.Command
import TidyTex.Proofs.Nesting.Outside
import TidyTex.Proofs.Rule

/-! Rewriting that keeps a text nesting.

    A removed command takes a whole group along, or its braces, because the group that a text cuts
    by counting braces is the group that nests (`nests_removeCommand`). A rule that exchanges texts
    that nest changes nothing in what is open anywhere (`nests_pass_iff`). Both hold for whatever
    delimiters are seen, so also for all of them: a balanced text stays balanced when a command is
    removed from it (`isBalanced_removeCommand`). -/

namespace TidyTex

open Text

variable {seen : Char → Bool}

theorem Removal.nests_kept (r : Removal) {s : Text} (h : Nests seen s) : Nests seen (r.kept s) := by
  cases r with
  | delete => exact nests_nil
  | unwrap => exact h

/-- Of a group that nests, what is kept stays, and all of the text behind the group. -/
theorem Removal.remains_braced (hseen : SeesBraces seen) (r : Removal) {x : Text}
    (hx : Nests seen x) (t : Text) : r.remains (braced x ++ t) = r.kept x ++ t := by
  have hgroup : groupBody 0 (x ++ '}' :: t) = ⟨x, '}' :: t⟩ := groupBody_of_openAfter hseen hx t
  rw [braced_append, remains_group, hgroup, List.drop_one, List.tail_cons]

/-- What remains behind a removed command leaves the same delimiters open, provided that the text
    closes a group that it begins with. -/
theorem Removal.openAfter_remains (hseen : SeesBraces seen) (r : Removal)
    {low out : List Delimiter} {s : Text} (h : openAfter seen low s = some out)
    (hlen : out.length ≤ low.length) : openAfter seen low (r.remains s) = some out := by
  rcases r.remains_cases s with heq | ⟨t, rfl, heq⟩
  · rw [heq]
    exact h
  · obtain ⟨x, u, rfl, hgroup, hx, hu⟩ := exists_group hseen h hlen
    rw [heq, hgroup, openAfter_append, (r.nests_kept hx).openAfter, Option.bind_some]
    exact hu

namespace Text

/-- A text that nests still does when a command is removed from it. -/
theorem nests_removeCommand (hseen : SeesBraces seen) {m : Matching} {r : Removal} {name s : Text}
    (hname : Nests seen name) (h : Nests seen s) : Nests seen (removeCommand m r name s) := by
  refine removeCommand_induction (P := Nests seen) ?_ h
  intro k hk
  rw [Nests, List.append_assoc] at hk
  obtain ⟨low, hbefore, hrest⟩ := openAfter_append_eq_some_iff.1 hk
  rw [openAfter_append, hname.openAfter, Option.bind_some] at hrest
  exact openAfter_append_eq_some_iff.2
    ⟨low, hbefore, r.openAfter_remains hseen hrest (Nat.zero_le _)⟩

/-- A balanced text is balanced when a command without delimiters in its name is removed from it,
    whichever occurrences count and whatever happens to the arguments. -/
theorem isBalanced_removeCommand (m : Matching) (r : Removal) {name s : Text}
    (hname : DelimiterFree name) (hs : isBalanced s = true) :
    isBalanced (removeCommand m r name s) = true := by
  rw [isBalanced_iff_nests] at hs ⊢
  exact nests_removeCommand seesBraces_all hname.nests hs

/-- In `(\hat{[\hatch{a}\hat(b)]})` one `\hat` has a group with brackets in it, one has none, and
    one is the start of another name. -/
theorem isBalanced_removeCommand_hat :
    DelimiterFree (command "hat") ∧ isBalanced "(\\hat\x7b[\\hatch{a}\\hat(b)]\x7d)".toList = true ∧
      isBalanced (removeCommand .wholeName .unwrap (command "hat")
        "(\\hat\x7b[\\hatch{a}\\hat(b)]\x7d)".toList) = true := by
  have hname : DelimiterFree (command "hat") := by decide
  have hs : isBalanced "(\\hat\x7b[\\hatch{a}\\hat(b)]\x7d)".toList = true := by decide
  exact ⟨hname, hs, isBalanced_removeCommand .wholeName .unwrap hname hs⟩

end Text

namespace Rule

/-- A pass that exchanges texts that leave the same delimiters open leaves open what was open. -/
theorem openAfter_pass {r : Rule}
    (h : ∀ {x y}, r.Writes x y → ∀ stack, openAfter seen stack y = openAfter seen stack x)
    (s : Text) (stack : List Delimiter) :
    openAfter seen stack (r.pass s) = openAfter seen stack s := by
  refine pass_induction
    (R := fun s t => ∀ stack, openAfter seen stack t = openAfter seen stack s) ?_ ?_ ?_ s stack
  · exact fun _ => rfl
  · intro c s _ ih stack
    rw [openAfter_cons, openAfter_cons stack c s]
    exact Option.bind_congr fun mid _ => ih mid
  · intro x y rest hw ih stack
    rw [openAfter_append, openAfter_append, h hw]
    exact Option.bind_congr fun mid _ => ih mid

/-- A pass that exchanges texts that nest keeps a text nesting. -/
theorem nests_pass_iff {r : Rule}
    (h : ∀ {x y}, r.Writes x y → Nests seen x ∧ Nests seen y) {s : Text} :
    Nests seen (r.pass s) ↔ Nests seen s := by
  have hwrite : ∀ {x y}, r.Writes x y →
      ∀ stack, openAfter seen stack y = openAfter seen stack x := by
    intro x y hw stack
    obtain ⟨hx, hy⟩ := h hw
    rw [hx.openAfter, hy.openAfter]
  rw [Nests, Nests, openAfter_pass hwrite]

end Rule

theorem Replacement.nests_apply_iff {p : Replacement} (hold : Nests seen p.old)
    (hnew : Nests seen p.new) {s : Text} : Nests seen (p.apply s) ↔ Nests seen s := by
  refine Rule.nests_pass_iff ?_
  intro x y hw
  obtain ⟨rfl, rfl⟩ := writes_rule hw
  exact ⟨hold, hnew⟩

end TidyTex
