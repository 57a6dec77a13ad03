import TidyTex.Proofs.Replacement
import TidyTex.Proofs.Vector

/-! One pass over the subscripts of vectors is enough.

    A subscript at the end of an argument is moved behind the argument. What is written there could
    make up another such vector together with the text around it, and it does not. The braces show
    it, read one after the other without the text between them:

        \vec{a_{b}}   {{}}    ──▶    \vec{a}_{b}   {}{}

    No ending of either row is a beginning of the other, and both texts end in a brace, so an
    occurrence of the first form has no character in common with a text of the second
    (`Subscripted.clear`). It would have stood there before the pass, and the pass has left none
    (`moveSubscriptOut_settled`). -/

namespace TidyTex.Vector

open Text

/-- A vector with a subscript at the end of its argument and no other braces in it. -/
def Subscripted (x : Text) : Prop :=
  ∃ base sub : Text, (base ≠ [] ∧ ∀ c ∈ base, isBrace c = false) ∧
    (sub ≠ [] ∧ ∀ c ∈ sub, isBrace c = false) ∧
    x = command "vec" ++ braced (base ++ '_' :: braced sub)

/-! ### What is read -/

/-- The base and the subscript are read wherever they stand at the end of an argument. -/
theorem subscripted?_eq_some {base sub : Text} (hbase : base ≠ [])
    (hbase' : ∀ c ∈ base, isBrace c = false) (hsub : sub ≠ [])
    (hsub' : ∀ c ∈ sub, isBrace c = false) (t : Text) :
    subscripted? (base ++ '_' :: (braced sub ++ '}' :: t)) = some (base, sub, t) := by
  have hplain : ∀ c ∈ base ++ ['_'], isPlain c = true := by
    rw [List.forall_mem_append, List.forall_mem_singleton]
    exact ⟨fun c hc => isPlain_eq_true_iff.2 (hbase' c hc), rfl⟩
  have hrun : run isPlain (base ++ '_' :: (braced sub ++ '}' :: t)) =
      ⟨base ++ ['_'], braced sub ++ '}' :: t⟩ := by
    have h := run_append_of_head? (s := braced sub ++ '}' :: t) hplain rfl
    rw [List.append_assoc] at h
    exact h
  have hrun' : run isPlain (sub ++ '}' :: '}' :: t) = ⟨sub, '}' :: '}' :: t⟩ :=
    run_append_of_head? (fun c hc => isPlain_eq_true_iff.2 (hsub' c hc)) rfl
  obtain ⟨c, rest, hreverse⟩ := List.exists_cons_of_ne_nil (mt List.reverse_eq_nil_iff.1 hbase)
  have hback : (c :: rest).reverse = base := by rw [← hreverse, List.reverse_reverse]
  rw [subscripted?, hrun]
  simp only [List.reverse_append, List.reverse_singleton, List.singleton_append, hreverse]
  rw [braced_append, hback]
  simp only [after?, Option.bind_some, hrun', if_neg hsub, if_true, Option.map_some]

/-- The pass moves a subscript wherever one begins. -/
theorem Subscripted.fire?_ne_none {x : Text} (hx : Subscripted x) (t : Text) :
    subscriptRule.fire? (x ++ t) ≠ none := by
  obtain ⟨base, sub, ⟨hbase, hbase'⟩, ⟨hsub, hsub'⟩, rfl⟩ := hx
  have hsplit : command "vec" ++ braced (base ++ '_' :: braced sub) ++ t =
      subscriptRule.head ++ (base ++ '_' :: (braced sub ++ '}' :: t)) := by
    simp [subscriptRule, opening, braced]
  have hfire := Rule.fire?_eq_some_iff.2 ⟨_, hsplit, Option.map_eq_some_iff.2
    ⟨_, subscripted?_eq_some hbase hbase' hsub hsub' t, rfl⟩⟩
  rw [hfire]
  exact Option.some_ne_none _

/-! ### The rows of braces -/

theorem filter_isBrace_eq_nil {x : Text} (hx : ∀ c ∈ x, isBrace c = false) :
    x.filter isBrace = [] := by
  rw [List.filter_eq_nil_iff]
  intro c hc
  rw [hx c hc]
  exact Bool.false_ne_true

/-- The braces of what the pass reads, and those of what it writes. -/
theorem filter_isBrace_subscript {base sub : Text} (hbase : ∀ c ∈ base, isBrace c = false)
    (hsub : ∀ c ∈ sub, isBrace c = false) :
    (command "vec" ++ braced (base ++ '_' :: braced sub)).filter isBrace = ['{', '{', '}', '}'] ∧
      (command "vec" ++ (braced base ++ '_' :: braced sub)).filter isBrace =
        ['{', '}', '{', '}'] := by
  have hvec : (command "vec").filter isBrace = [] := by decide
  simp [braced, hvec, filter_isBrace_eq_nil hbase, filter_isBrace_eq_nil hsub, isBrace]

theorem closing_suffix_subscript (base sub : Text) :
    ['}'] <:+ command "vec" ++ braced (base ++ '_' :: braced sub) ∧
      ['}'] <:+ command "vec" ++ (braced base ++ '_' :: braced sub) :=
  ⟨⟨command "vec" ++ '{' :: (base ++ '_' :: braced sub), by simp [braced]⟩,
    ⟨command "vec" ++ (braced base ++ '_' :: '{' :: sub), by simp [braced]⟩⟩

/-! ### What a pass leaves -/

/-- No vector with a subscript at the end of its argument shares characters with what is written. -/
theorem Subscripted.clear {x u y : Text} (hx : Subscripted x) (hw : subscriptRule.Writes u y) :
    Clear x y := by
  obtain ⟨hrow, hlast⟩ : x.filter isBrace = ['{', '{', '}', '}'] ∧ ['}'] <:+ x := by
    obtain ⟨base, sub, ⟨-, hbase⟩, ⟨-, hsub⟩, rfl⟩ := hx
    exact ⟨(filter_isBrace_subscript hbase hsub).1, (closing_suffix_subscript base sub).1⟩
  obtain ⟨hrow', hlast'⟩ : y.filter isBrace = ['{', '}', '{', '}'] ∧ ['}'] <:+ y := by
    obtain ⟨base, sub, ⟨-, hbase⟩, ⟨-, hsub⟩, -, rfl⟩ := writes_subscriptRule hw
    exact ⟨(filter_isBrace_subscript hbase hsub).2, (closing_suffix_subscript base sub).2⟩
  refine Clear.of_filter (p := isBrace) rfl hlast hlast' ?_
  rw [hrow, hrow']
  decide

/-- A pass leaves no vector with a subscript at the end of its argument. -/
theorem not_isInfix_moveSubscriptOut {x : Text} (hx : Subscripted x) (s : Text) :
    ¬ x <:+: moveSubscriptOut s :=
  Rule.not_isInfix_pass hx.fire?_ne_none hx.clear s

/-- A pass leaves a text as it is exactly if it has no such vector. -/
theorem moveSubscriptOut_eq_self_iff {s : Text} :
    moveSubscriptOut s = s ↔ ∀ x, Subscripted x → ¬ x <:+: s := by
  constructor
  · intro h x hx
    rw [← h]
    exact not_isInfix_moveSubscriptOut hx s
  · intro h
    refine Rule.pass_eq_self_of_forall ?_
    intro t ht
    rw [Option.eq_none_iff_forall_not_mem]
    rintro ⟨y, rest⟩ hfire
    obtain ⟨x, rfl, hw⟩ := Rule.exists_writes hfire
    obtain ⟨base, sub, hbase, hsub, hx, -⟩ := writes_subscriptRule hw
    exact h x ⟨base, sub, hbase, hsub, hx⟩ ((List.prefix_append x rest).isInfix.trans ht.isInfix)

/-- A pass moves every subscript at the end of a vector argument behind that argument, so a second
    pass changes nothing, and the result is balanced exactly when the text is. -/
theorem moveSubscriptOut_settled (s : Text) :
    (∀ x, Subscripted x → ¬ x <:+: moveSubscriptOut s) ∧
      moveSubscriptOut (moveSubscriptOut s) = moveSubscriptOut s ∧
      isBalanced (moveSubscriptOut s) = isBalanced s := by
  have hnone : ∀ x, Subscripted x → ¬ x <:+: moveSubscriptOut s :=
    fun x hx => not_isInfix_moveSubscriptOut hx s
  refine ⟨hnone, moveSubscriptOut_eq_self_iff.2 hnone, ?_⟩
  rw [Bool.eq_iff_iff, isBalanced_iff_nests, isBalanced_iff_nests,
    nests_moveSubscriptOut_iff seesBraces_all]

end TidyTex.Vector
