import TidyTex.Proofs.Spelling.LetterBar
import TidyTex.Proofs.Vector

/-! How deep the subscript marks of a text stand.

    Moving a subscript out of a vector takes its `_` out of a group. Nothing else that is done to
    letters with bars and to vectors lets a `_` stand deeper in the text: a bar is put around a
    letter alone, and a bar that is taken out gives what it held back to the group around it.

        \vec{a_{b}}     depth 1    ──▶    \vec{a}_{b}    depth 0

    So where these steps together give a text back, no subscript has moved
    (`moveSubscriptOut_eq_self_of_eq`). -/

namespace TidyTex

open Text

namespace Text

/-- The number of braces that a text opens, less the number of those that it closes. -/
def rise : Text → Int
  | [] => 0
  | '{' :: s => 1 + rise s
  | '}' :: s => -1 + rise s
  | _ :: s => rise s

/-- The depths of all subscript marks together, in a text that begins at a depth of open braces. -/
def markDepth : Int → Text → Int
  | _, [] => 0
  | depth, '{' :: s => markDepth (depth + 1) s
  | depth, '}' :: s => markDepth (depth - 1) s
  | depth, '_' :: s => depth + markDepth depth s
  | depth, _ :: s => markDepth depth s

theorem rise_append (s t : Text) : rise (s ++ t) = rise s + rise t := by
  fun_induction rise s with
  | case1 => exact (Int.zero_add _).symm
  | case2 s ih | case3 s ih => rw [List.cons_append, rise, ih, Int.add_assoc]
  | case4 c s hopening hclosing ih => rw [List.cons_append, rise, ih] <;> assumption

theorem markDepth_append (depth : Int) (s t : Text) :
    markDepth depth (s ++ t) = markDepth depth s + markDepth (depth + rise s) t := by
  fun_induction markDepth depth s with
  | case1 depth => simp [rise]
  | case2 depth s ih => rw [List.cons_append, markDepth, ih, rise, Int.add_assoc]
  | case3 depth s ih =>
    rw [List.cons_append, markDepth, ih, rise, Int.sub_eq_add_neg, Int.add_assoc]
  | case4 depth s ih => rw [List.cons_append, markDepth, ih, rise, Int.add_assoc] <;> decide
  | case5 depth c s hopening hclosing hmark ih =>
    rw [List.cons_append, markDepth, ih, rise] <;> assumption

/-- Marks stand deeper in a text that begins deeper. -/
theorem markDepth_mono {m n : Int} (h : m ≤ n) (s : Text) : markDepth m s ≤ markDepth n s := by
  fun_induction markDepth m s generalizing n with
  | case1 => exact Int.le_refl 0
  | case2 m s ih => rw [markDepth]; exact ih (by omega)
  | case3 m s ih => rw [markDepth]; exact ih (by omega)
  | case4 m s ih =>
    have hs := ih h
    rw [markDepth]
    omega
  | case5 m c s hopening hclosing hmark ih =>
    rw [markDepth]
    · exact ih h
    all_goals assumption

theorem rise_of_not_brace {s : Text} (h : ∀ c ∈ s, isBrace c = false) : rise s = 0 := by
  induction s with
  | nil => rfl
  | cons c s ih =>
    rw [List.forall_mem_cons] at h
    obtain ⟨ho, hc⟩ := isBrace_eq_false_iff.1 h.1
    rw [rise]
    · exact ih h.2
    · exact ho
    · exact hc

/-- No mark stands deeper in `t` than in `s`, nor does one behind it. -/
structure Shallower (t s : Text) : Prop where
  rise_le : rise t ≤ rise s
  markDepth_le : ∀ depth, markDepth depth t ≤ markDepth depth s

namespace Shallower

variable {s t u v : Text}

theorem refl (s : Text) : Shallower s s := ⟨Int.le_refl _, fun _ => Int.le_refl _⟩

theorem trans (hts : Shallower t s) (hus : Shallower u t) : Shallower u s :=
  ⟨Int.le_trans hus.rise_le hts.rise_le,
    fun depth => Int.le_trans (hus.markDepth_le depth) (hts.markDepth_le depth)⟩

theorem append (hts : Shallower t s) (huv : Shallower u v) : Shallower (t ++ u) (s ++ v) := by
  have hrise := hts.rise_le
  refine ⟨?_, fun depth => ?_⟩
  · have hrise' := huv.rise_le
    rw [rise_append, rise_append]
    omega
  · have hfirst := hts.markDepth_le depth
    have hmono := markDepth_mono (Int.add_le_add_left hrise depth) u
    have hsecond := huv.markDepth_le (depth + rise s)
    rw [markDepth_append, markDepth_append]
    omega

end Shallower

/-! ### Bars -/

/-- What a group held stands one group further out without its braces. -/
theorem shallower_braced_append (x u : Text) : Shallower (x ++ u) (braced x ++ u) := by
  rw [braced_append]
  refine ⟨?_, fun depth => ?_⟩
  · rw [rise, rise_append, rise_append, rise]
    omega
  · have hx := markDepth_mono (Int.le_add_one (Int.le_refl depth)) x
    have hrest : depth + 1 + rise x - 1 = depth + rise x := by omega
    rw [markDepth, markDepth_append, markDepth_append, markDepth, hrest]
    omega

theorem shallower_cons_opening (s : Text) : Shallower s ('{' :: s) := by
  refine ⟨?_, fun depth => ?_⟩
  · rw [rise]
    omega
  · rw [markDepth]
    exact markDepth_mono (Int.le_add_one (Int.le_refl depth)) s

theorem shallower_remains (s : Text) : Shallower (Removal.unwrap.remains s) s := by
  rcases Removal.unwrap.remains_cases s with heq | ⟨t, rfl, heq⟩
  · rw [heq]
    exact .refl s
  · have hsplit := groupBody_append 0 t
    rw [heq, Removal.kept]
    rcases after_groupBody 0 t with hnil | ⟨u, hu⟩
    · rw [hnil, List.append_nil] at hsplit
      rw [hnil, List.drop_nil, List.append_nil, hsplit]
      exact shallower_cons_opening t
    · have hgroup := shallower_braced_append (groupBody 0 t).before u
      rw [hu] at hsplit ⊢
      rwa [braced_append, hsplit] at hgroup

/-- A command that is unwrapped gives back what its groups held. -/
theorem shallower_removeCommand {m : Matching} {name : Text} (hname : Shallower [] name)
    (s : Text) : Shallower (removeCommand m .unwrap name s) s := by
  refine removeCommand_induction (P := fun t => Shallower t s) ?_ (.refl s)
  intro k hk
  refine hk.trans ?_
  have hdrop := hname.append (shallower_remains k.after)
  rw [List.append_assoc]
  exact (Shallower.refl k.before).append hdrop

end Text

/-- A pass leaves no mark deeper if it writes none deeper than it has read. -/
theorem Rule.shallower_pass {r : Rule} (h : ∀ {x y}, r.Writes x y → Shallower y x) (s : Text) :
    Shallower (r.pass s) s := by
  refine pass_induction (r := r) (R := fun s t => Shallower t s) (.refl []) ?_ ?_ s
  · exact fun _ ih => (Shallower.refl [_]).append ih
  · exact fun hw ih => (h hw).append ih

/-- A bar is put around a letter alone. -/
theorem shallower_barLetters (s : Text) : Shallower (barLetters s) s := by
  have htable : ∀ p ∈ letterBars, Shallower p.new p.old := by
    rw [letterBars_eq]
    simp only [List.forall_mem_cons, List.not_mem_nil, false_implies, implies_true, and_true]
    refine ⟨⟨by decide, fun depth => ?_⟩, ⟨by decide, fun depth => ?_⟩,
      ⟨by decide, fun depth => ?_⟩⟩
    · exact Int.le_refl 0
    · simp [lowerBar, barred, braced, command, markDepth]
    · simp [upperBar, barred, braced, command, markDepth]
  rw [← applyAll_letterBars]
  refine Replacement.applyAll_induction (P := fun t => Shallower t s) ?_ (.refl s)
  intro p hp t ht
  refine ht.trans (Rule.shallower_pass ?_ t)
  intro x y hw
  obtain ⟨rfl, rfl⟩ := Replacement.writes_rule hw
  exact htable p hp

namespace Vector

theorem shallower_flattenBars (s : Text) : Shallower (flattenBars s) s := by
  have hbar : Shallower [] (command "bar") := ⟨Int.le_refl 0, fun _ => Int.le_refl 0⟩
  refine flattenBars_induction (P := fun t => Shallower t s) ?_ (.refl s)
  intro a t _ hat
  refine hat.trans ?_
  have hgroup := (shallower_removeCommand (m := .anywhere) hbar (groupBody 0 t).before).append
    (.refl (groupBody 0 t).after)
  rw [groupBody_append] at hgroup
  exact (Shallower.refl a).append ((Shallower.refl ['{']).append hgroup)

/-! ### Subscripts -/

/-- The mark of a subscript that is moved stands one group further out, and what follows it begins
    at the depth at which it did. -/
theorem markDepth_writes {x y : Text} (h : subscriptRule.Writes x y) :
    rise y = rise x ∧ ∀ depth, markDepth depth y < markDepth depth x := by
  obtain ⟨base, sub, ⟨-, hbase⟩, ⟨-, hsub⟩, rfl, rfl⟩ := writes_subscriptRule h
  have hvec : rise (command "vec") = 0 := rfl
  have hvec' : ∀ depth, markDepth depth (command "vec") = 0 := fun _ => rfl
  have hmark : ∀ t, rise ('_' :: t) = rise t := fun _ => rfl
  refine ⟨?_, fun depth => ?_⟩
  · simp only [rise_append, braced, rise, hmark, hvec]
    omega
  · have hdeeper := markDepth_mono (Int.le_add_one (Int.le_refl (depth + 1))) sub
    have hback : depth + 1 + (0 + -1) + 1 = depth + 1 := by omega
    simp only [markDepth_append, rise_append, braced, List.cons_append, markDepth, rise, hmark,
      hvec, hvec', rise_of_not_brace hbase, rise_of_not_brace hsub, Int.add_zero, hback]
    omega

/-- A pass that moves a subscript takes its mark one group further out. -/
theorem moveSubscriptOut_eq_self_or_lt (s : Text) : moveSubscriptOut s = s ∨
    ∀ depth, markDepth depth (moveSubscriptOut s) < markDepth depth s := by
  refine Rule.pass_induction (R := fun s t => t = s ∨
    ∀ depth, markDepth depth t < markDepth depth s) (Or.inl rfl) ?_ ?_ s
  · rintro c s - ih
    refine ih.imp (congrArg (c :: ·)) fun hlt depth => ?_
    have hsplit : ∀ t, markDepth depth (c :: t) =
        markDepth depth [c] + markDepth (depth + rise [c]) t := markDepth_append depth [c]
    rw [hsplit, hsplit s]
    exact Int.add_lt_add_left (hlt _) _
  · rintro x y rest hw ih
    obtain ⟨hrise, hlt⟩ := markDepth_writes hw
    refine Or.inr fun depth => ?_
    have hwrite := hlt depth
    have hrest : markDepth (depth + rise x) (subscriptRule.pass rest) ≤
        markDepth (depth + rise x) rest := by
      rcases ih with heq | hless
      · exact Int.le_of_eq (congrArg (markDepth _) heq)
      · exact Int.le_of_lt (hless _)
    rw [markDepth_append, markDepth_append, hrise]
    omega

/-- Where letters are given bars, vectors lose theirs and subscripts are moved, a text that comes
    back has had no subscript to move. -/
theorem moveSubscriptOut_eq_self_of_eq {s : Text}
    (h : moveSubscriptOut (flattenBars (barLetters s)) = s) : flattenBars (barLetters s) = s := by
  have hle := ((shallower_barLetters s).trans (shallower_flattenBars _)).markDepth_le 0
  rcases moveSubscriptOut_eq_self_or_lt (flattenBars (barLetters s)) with heq | hlt
  · rwa [heq] at h
  · have hless := hlt 0
    rw [h] at hless
    omega

end Vector

end TidyTex
