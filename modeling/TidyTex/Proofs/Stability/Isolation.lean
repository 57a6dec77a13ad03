import TidyTex.Proofs.Answer.Selection
import TidyTex.Proofs.Brace.Owner
import TidyTex.Proofs.Stability.Lowering

/-! Isolating an answer lowers the rank of a text or leaves the text as it is.

    A box, the text up to a relation or behind a `\quad`, and the blanks at either end all weigh
    something. A pair of outer braces does not, but its group is bare: braces before it are escaped,
    and neither a script mark nor a command stands right before it, or else it would have an owner
    (`owner?_ne_none`). -/

namespace TidyTex

open Text

/-! ### Outer braces -/

/-- Before the first brace that opens a group every brace is escaped. -/
theorem isBare_of_firstBrace? {s : Text} {k : Cut} (h : firstBrace? s = some k) (m : Mode) :
    isBare m k.before = true := by
  fun_induction firstBrace? s generalizing k m with
  | case1 c s ih =>
    obtain ⟨j, hj, rfl⟩ := Option.map_eq_some_iff.1 h
    have hmode : m.next '\\' = .backslash := by cases m <;> rfl
    have hne : '\\' ≠ '{' := by decide
    rw [Cut.before_prepend, List.cons_append, isBare, if_neg hne, hmode, List.cons_append, isBare]
    split
    · exact ih hj .plain
    · exact ih hj _
  | case2 s => cases h; rfl
  | case3 c s _ hc ih =>
    obtain ⟨j, hj, rfl⟩ := Option.map_eq_some_iff.1 h
    rw [Cut.before_prepend, List.cons_append, isBare, if_neg hc]
    exact ih hj _
  | case4 => cases h

namespace Mode

theorem after_concat (m : Mode) (s : Text) (c : Char) :
    m.after (s ++ [c]) = (m.after s).next c := by
  rw [after_append, after_cons, after_nil]

theorem eq_of_next_eq_backslash {m : Mode} {c : Char} (h : m.next c = backslash) : c = '\\' := by
  unfold next at h
  split at h
  · rfl
  · cases h
  · cases h
  · split at h <;> cases h
  · split at h <;> cases h
  · cases h

theorem eq_of_next_eq_script {m : Mode} {c : Char} (h : m.next c = script) : c = '_' ∨ c = '^' := by
  unfold next at h
  split at h
  · cases h
  · exact Or.inl rfl
  · exact Or.inr rfl
  · split at h <;> cases h
  · split at h <;> cases h
  · cases h

theorem of_next_eq_name {m : Mode} {c : Char} (h : m.next c = name) :
    c.isAlpha = true ∧ (m = backslash ∨ m = name) := by
  unfold next at h
  split at h
  · cases h
  · cases h
  · cases h
  · split at h
    · next hc => exact ⟨hc, Or.inl rfl⟩
    · cases h
  · split at h
    · next hc => exact ⟨hc, Or.inr rfl⟩
    · cases h
  · cases h

/-- Behind a command the text ends in that command. -/
theorem exists_command_of_after {s : Text} (h : plain.after s = name) :
    ∃ a l c, s = a ++ '\\' :: (l ++ [c]) ∧ c.isAlpha = true ∧ ∀ d ∈ l, d.isAlpha = true := by
  induction s using List.reverseRecOn with
  | nil => cases h
  | append_singleton s c ih =>
    rw [after_concat] at h
    obtain ⟨hc, hs | hs⟩ := of_next_eq_name h
    · rcases List.eq_nil_or_concat s with rfl | ⟨a, d, rfl⟩
      · cases hs
      · rw [List.concat_eq_append, after_concat] at hs
        rw [eq_of_next_eq_backslash hs]
        exact ⟨a, [], c, by simp, hc, nofun⟩
    · obtain ⟨a, l, d, rfl, hd, hl⟩ := ih hs
      refine ⟨a, l ++ [d], c, by simp, hc, ?_⟩
      rw [List.forall_mem_append, List.forall_mem_singleton]
      exact ⟨hl, hd⟩

/-- Behind a script mark the text ends in that mark. -/
theorem exists_script_of_after {s : Text} (h : plain.after s = script) :
    ∃ a, s = a ++ ['_'] ∨ s = a ++ ['^'] := by
  rcases List.eq_nil_or_concat s with rfl | ⟨a, c, rfl⟩
  · cases h
  · rw [List.concat_eq_append, after_concat] at h
    rcases eq_of_next_eq_script h with rfl | rfl
    · exact ⟨a, Or.inl List.concat_eq_append⟩
    · exact ⟨a, Or.inr List.concat_eq_append⟩

end Mode

/-- A command that ends in a letter right before a group is its owner. -/
theorem owner?_command {a l : Text} {c : Char} (hc : c.isAlpha = true)
    (hl : ∀ d ∈ l, d.isAlpha = true) :
    owner? (a ++ '\\' :: (l ++ [c])) = some (.command (l ++ [c])) := by
  have hletters : ∀ d ∈ l, isAlphabetic d = true := fun d hd => isAlphabetic_of_isAlpha (hl d hd)
  have hmarks : (Owner.nonFinal.all fun d => !d.isAlpha) = true := by decide
  have hfinal : c ∉ Owner.nonFinal := by
    intro hmem
    have hmark := List.all_eq_true.1 hmarks c hmem
    rw [hc] at hmark
    cases hmark
  exact owner?_append_text (o := .command (l ++ [c])) ⟨l, c, rfl, hletters, hfinal⟩ a

/-- A group that opens behind a script mark or a command has an owner. -/
theorem owner?_ne_none {s : Text} (h : (Mode.plain.after s).owns = true) : owner? s ≠ none := by
  cases hmode : Mode.plain.after s with
  | backslash | plain => rw [hmode] at h; cases h
  | script =>
    obtain ⟨a, rfl | rfl⟩ := Mode.exists_script_of_after hmode
    · have howner : owner? (a ++ ['_']) = some .subscript :=
        owner?_append_text (o := .subscript) trivial a
      simp [howner]
    · have howner : owner? (a ++ ['^']) = some .superscript :=
        owner?_append_text (o := .superscript) trivial a
      simp [howner]
  | name =>
    obtain ⟨a, l, c, rfl, hc, hl⟩ := Mode.exists_command_of_after hmode
    simp [owner?_command hc hl]

/-- Stripping a pair of outer braces lowers the rank. -/
theorem rank_lt_of_stripOuter? {s t : Text} (h : stripOuter? s = some t) : rank t < rank s := by
  obtain ⟨k, body, hk, howner, hbody, -, rfl⟩ := stripOuter?_eq_some_iff.1 h
  have howns : ¬ (Mode.plain.after k.before).owns = true := fun howns => owner?_ne_none howns howner
  have hafter : bareGroups .plain body.before ≤ bareGroups .plain k.after := by
    rw [append_of_scopeBody? hbody]
    exact bareGroups_le_append _ _ _
  have hinfix : body.before <:+: s := by
    rw [append_of_firstBrace? hk, append_of_scopeBody? hbody]
    exact ⟨k.before ++ ['{'], '}' :: body.after, by simp⟩
  -- Braces weigh nothing, so it is the group itself that has to count, and it does since the groups
  -- before it are bare.
  refine rank_lt_of_weight_le (weight_le_of_sublist hinfix.sublist) ?_
  rw [append_of_firstBrace? hk, bareGroups_append_of_isBare (isBare_of_firstBrace? hk _),
    bareGroups, if_pos rfl, if_neg howns]
  omega

theorem lowers_stripOuters (limit : Nat) : Lowers rank fun s => (stripOuters limit s).1 := by
  intro s
  refine repeatAtMost_induction (P := fun t => t = s ∨ rank t < rank s) ?_ limit (Or.inl rfl)
  intro t u htu ht
  have hlt := rank_lt_of_stripOuter? htu
  rcases ht with rfl | ht
  · exact Or.inr hlt
  · exact Or.inr (hlt.trans ht)

theorem stripOuters_eq_self_iff {limit : Nat} (hlimit : 0 < limit) {s : Text} :
    (stripOuters limit s).1 = s ↔ stripOuter? s = none := by
  constructor
  · intro h
    cases hs : stripOuter? s with
    | none => rfl
    | some t =>
      obtain ⟨n, rfl⟩ := Nat.exists_eq_add_of_lt hlimit
      rw [Nat.zero_add, stripOuters, repeatAtMost_succ_of_some hs] at h
      have hle := (lowers_stripOuters n).le t
      rw [stripOuters, h] at hle
      exact absurd (rank_lt_of_stripOuter? hs) hle.not_gt
  · intro h
    rw [stripOuters, repeatAtMost_of_none h]

/-! ### Cuts and blanks -/

theorem beforeQuad_cases (s : Text) : beforeQuad s = s ∨ weight (beforeQuad s) < weight s := by
  unfold beforeQuad
  cases h : cutFirst? (command "quad") s with
  | none => exact Or.inl rfl
  | some k =>
    have hquad : 0 < weight (command "quad") := by decide
    refine Or.inr ?_
    conv => rhs; rw [append_of_cutFirst? h, weight_append, weight_append]
    rw [Option.map_some, Option.getD_some]
    omega

theorem lowers_beforeQuad : Lowers rank beforeQuad := lowers_of_weight beforeQuad_cases

theorem beforeQuad_eq_self_iff {s : Text} : beforeQuad s = s ↔ ¬ command "quad" <:+: s := by
  constructor
  · intro h
    rw [← h]
    exact not_isInfix_beforeQuad s
  · intro h
    rw [beforeQuad, cutFirst?_eq_none_iff.2 h, Option.map_none, Option.getD_none]

/-- Blanks weigh something. -/
theorem cost_pos_of_isBlank {c : Char} (h : isBlank c = true) : 0 < cost c := by
  have hfree : ∀ c, cost c = 0 → c ∈ ['\\', '{', '}', '(', ')', 'b', 'a', 'r', 'v'] := by
    intro c hc
    unfold cost at hc
    split at hc <;> first | decide | cases hc
  have hall : ['\\', '{', '}', '(', ')', 'b', 'a', 'r', 'v'].all (fun c => !isBlank c) = true := by
    decide
  refine Nat.pos_of_ne_zero fun hc => ?_
  have hblank := List.all_eq_true.1 hall c (hfree c hc)
  rw [h] at hblank
  cases hblank

theorem trimLeft_cases (s : Text) : trimLeft s = s ∨ weight (trimLeft s) < weight s := by
  cases s with
  | nil => exact Or.inl rfl
  | cons c s =>
    cases hc : isBlank c with
    | false => exact Or.inl (List.dropWhile_cons_of_neg (by simp [hc]))
    | true =>
      have hcost := cost_pos_of_isBlank hc
      have hle := weight_le_of_sublist (List.dropWhile_sublist isBlank (l := s))
      refine Or.inr ?_
      rw [trimLeft, List.dropWhile_cons_of_pos hc, weight_cons]
      omega

theorem weight_reverse (s : Text) : weight s.reverse = weight s := by
  induction s with
  | nil => rfl
  | cons c s ih =>
    rw [List.reverse_cons, weight_append, ih, weight_cons, weight_cons, weight_nil]
    omega

theorem trimRight_eq (s : Text) : trimRight s = (trimLeft s.reverse).reverse := rfl

theorem trimRight_cases (s : Text) : trimRight s = s ∨ weight (trimRight s) < weight s := by
  rw [trimRight_eq, weight_reverse, ← weight_reverse s, List.reverse_eq_iff]
  exact trimLeft_cases s.reverse

theorem lowers_trim : Lowers rank trim :=
  Lowers.comp (lowers_of_weight trimRight_cases) (lowers_of_weight trimLeft_cases)

theorem trimLeft_eq_self {s : Text} (h : ∀ c ∈ s.head?, isBlank c = false) : trimLeft s = s := by
  cases s with
  | nil => rfl
  | cons c s => exact List.dropWhile_cons_of_neg (by simp [h c rfl])

theorem trim_eq_self_iff {s : Text} : trim s = s ↔ Trimmed s := by
  constructor
  · intro h
    rw [← h]
    exact trimmed_trim s
  · rintro ⟨hhead, hlast⟩
    rw [← List.head?_reverse] at hlast
    rw [trim, trimLeft_eq_self hhead, trimRight_eq, trimLeft_eq_self hlast, List.reverse_reverse]

/-- The signs of relations weigh something. -/
theorem weight_pos_of_mem_relationSigns : ∀ sign ∈ relationSigns, 0 < weight sign.spelling := by
  decide

/-- The text behind the last relation, or the whole text. -/
def behindRelation (s : Text) : Text :=
  (relationSigns.findSome? fun sign => sign.afterLast? s).getD s

theorem Sign.weight_lt_of_afterLast? {sign : Sign} (hsign : sign ∈ relationSigns) {s t : Text}
    (h : sign.afterLast? s = some t) : weight t < weight s := by
  obtain ⟨k, hk, rfl⟩ := Option.map_eq_some_iff.1 h
  have hpos := weight_pos_of_mem_relationSigns sign hsign
  have hle := weight_le_of_sublist (sign.passOver_suffix k.after).sublist
  conv => rhs; rw [append_of_cutLast? hk, weight_append, weight_append]
  omega

theorem behindRelation_cases (s : Text) :
    behindRelation s = s ∧ (∀ sign ∈ relationSigns, ¬ sign.spelling <:+: s) ∨
      weight (behindRelation s) < weight s := by
  unfold behindRelation
  cases h : relationSigns.findSome? fun sign => sign.afterLast? s with
  | none =>
    refine Or.inl ⟨rfl, fun sign hsign => ?_⟩
    exact Sign.afterLast?_eq_none_iff.1 (List.findSome?_eq_none_iff.1 h sign hsign)
  | some t =>
    obtain ⟨sign, hsign, ht⟩ := List.exists_of_findSome?_eq_some h
    exact Or.inr (Sign.weight_lt_of_afterLast? hsign ht)

theorem lowers_behindRelation : Lowers rank behindRelation :=
  lowers_of_weight fun s => (behindRelation_cases s).imp_left And.left

theorem rightHandSide_eq : rightHandSide = trim ∘ behindRelation := rfl

theorem lowers_rightHandSide : Lowers rank rightHandSide := lowers_trim.comp lowers_behindRelation

theorem behindRelation_eq_self_iff {s : Text} :
    behindRelation s = s ↔ ∀ sign ∈ relationSigns, ¬ sign.spelling <:+: s := by
  constructor
  · intro h
    rcases behindRelation_cases s with ⟨-, hno⟩ | hlt
    · exact hno
    · rw [h] at hlt
      exact absurd hlt (Nat.lt_irrefl _)
  · intro h
    have hnone : (relationSigns.findSome? fun sign => sign.afterLast? s) = none := by
      refine List.findSome?_eq_none_iff.2 fun sign hsign => ?_
      exact Sign.afterLast?_eq_none_iff.2 (h sign hsign)
    rw [behindRelation, hnone, Option.getD_none]

theorem rightHandSide_eq_self_iff {s : Text} :
    rightHandSide s = s ↔ (∀ sign ∈ relationSigns, ¬ sign.spelling <:+: s) ∧ Trimmed s := by
  rw [rightHandSide_eq, Function.comp_apply, lowers_trim.comp_eq_self_iff lowers_behindRelation,
    behindRelation_eq_self_iff, trim_eq_self_iff]

/-! ### All of isolating -/

/-- A text in which there is nothing around an answer. -/
structure Isolated (s : Text) : Prop where
  not_boxed : ¬ command "boxed" <:+: s
  stripOuter?_eq_none : stripOuter? s = none
  not_quad : ¬ command "quad" <:+: s
  not_relation : ∀ sign ∈ relationSigns, ¬ sign.spelling <:+: s
  trimmed : Trimmed s

/-- The answer in a balanced source, under the default options. -/
def answerIn (source : Text) : Text := (Options.default.isolateIn source).content

theorem answerIn_eq :
    answerIn = (fun s => (stripOuters Pass.trailingBraces.limit s).1) ∘ rightHandSide ∘
      beforeQuad ∘ (fun s => (stripOuters Pass.leadingBraces.limit s).1) ∘
        removeCommand .anywhere .unwrap (command "boxed") := by
  rfl

theorem lowers_unbox : Lowers rank (removeCommand .anywhere .unwrap (command "boxed")) :=
  lowers_removeCommand (by decide)

theorem lowers_answerIn : Lowers rank answerIn := by
  rw [answerIn_eq]
  exact (lowers_stripOuters _).comp (lowers_rightHandSide.comp (lowers_beforeQuad.comp
    ((lowers_stripOuters _).comp lowers_unbox)))

/-- Isolating leaves a text as it is where there is nothing around an answer. -/
theorem answerIn_eq_self_iff {s : Text} : answerIn s = s ↔ Isolated s := by
  have hstrip := (lowers_stripOuters Pass.leadingBraces.limit).comp lowers_unbox
  have hquad := lowers_beforeQuad.comp hstrip
  have hside := lowers_rightHandSide.comp hquad
  rw [answerIn_eq, Function.comp_apply, (lowers_stripOuters _).comp_eq_self_iff hside,
    Function.comp_apply, lowers_rightHandSide.comp_eq_self_iff hquad,
    Function.comp_apply, lowers_beforeQuad.comp_eq_self_iff hstrip,
    Function.comp_apply, (lowers_stripOuters _).comp_eq_self_iff lowers_unbox,
    removeCommand_eq_self_iff (by decide), stripOuters_eq_self_iff (by decide),
    beforeQuad_eq_self_iff, rightHandSide_eq_self_iff, stripOuters_eq_self_iff (by decide)]
  constructor
  · rintro ⟨⟨⟨⟨hboxed, houter⟩, hquad⟩, hrelation, htrimmed⟩, -⟩
    exact ⟨hboxed, houter, hquad, hrelation, htrimmed⟩
  · rintro ⟨hboxed, houter, hquad, hrelation, htrimmed⟩
    exact ⟨⟨⟨⟨hboxed, houter⟩, hquad⟩, hrelation, htrimmed⟩, houter⟩

end TidyTex
