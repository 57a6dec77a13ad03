import TidyTex.Proofs.Nesting.Brace
import TidyTex.Proofs.Nesting.Rewriting
import TidyTex.Proofs.Occurrence
import TidyTex.Vector

/-! What is written for a vector.

    Of the three passes over vectors two follow rules, and `writes_subscriptRule` and
    `writes_bareArgumentRule` say what they read and write. The third unwraps every `\bar` in one
    argument after the other: what one of these steps keeps, the pass keeps
    (`flattenBars_induction`). -/

namespace TidyTex.Vector

open Text

/-- What flattening the group of one vector keeps, flattening all of them keeps. -/
theorem flattenBars_induction {P : Text → Prop} {s : Text}
    (h : ∀ {a t : Text}, command "vec" <:+ a → P (a ++ '{' :: t) →
      P (a ++ '{' :: (removeCommand .anywhere .unwrap (command "bar") (groupBody 0 t).before
        ++ (groupBody 0 t).after))) (hs : P s) : P (flattenBars s) := by
  unfold flattenBars
  refine List.foldlRecOn _ _ hs ?_
  intro s hs n _
  unfold flattenNth
  split
  · exact hs
  · next k hk =>
    have hsplit : s = (k.before ++ command "vec") ++ '{' :: k.after := by
      rw [append_of_cutNth? hk]
      simp [opening]
    rw [hsplit] at hs
    simpa [opening] using h (List.suffix_append k.before (command "vec")) hs

theorem opening_ne_nil : opening ≠ [] := subscriptRule.head_ne_nil

theorem flattenNth_of_none {s : Text} {n : Nat} (hn : cutNth? opening n s = none) :
    flattenNth s n = s := by
  rw [flattenNth, hn]

/-- From a number on that no vector of a text has, there is nothing to flatten. -/
theorem foldl_flattenNth_of_none {s : Text} {start : Nat} (hstart : cutNth? opening start s = none)
    (count : Nat) : (List.range' start count).foldl flattenNth s = s := by
  refine List.foldlRecOn (motive := (· = s)) _ _ rfl ?_
  rintro _ rfl n hn
  exact flattenNth_of_none (cutNth?_eq_none_of_le hstart (List.mem_range'_1.1 hn).1)

/-- A text without the group of a vector has nothing to flatten. -/
theorem flattenBars_eq_self {s : Text} (h : ¬ opening <:+: s) : flattenBars s = s := by
  rw [flattenBars, findAll_eq_nil opening_ne_nil h]
  rfl

theorem isPlain_eq_true_iff {c : Char} : isPlain c = true ↔ isBrace c = false := by
  simp [isPlain, isBrace]

/-- The base and the subscript hold no braces, and neither is empty. -/
theorem plain_of_subscripted? {s base sub rest : Text}
    (h : subscripted? s = some (base, sub, rest)) :
    (base ≠ [] ∧ ∀ c ∈ base, isBrace c = false) ∧ (sub ≠ [] ∧ ∀ c ∈ sub, isBrace c = false) := by
  unfold subscripted? at h
  simp only at h
  split at h
  · next c r hr =>
    obtain ⟨t, -, h⟩ := Option.bind_eq_some_iff.1 h
    split at h
    · cases h
    · next hne =>
      obtain ⟨u, -, he⟩ := Option.map_eq_some_iff.1 h
      cases he
      refine ⟨⟨by simp, fun d hd => isPlain_eq_true_iff.1 (of_mem_before_run (s := s) ?_)⟩,
        hne, fun d hd => isPlain_eq_true_iff.1 (of_mem_before_run hd)⟩
      rw [← List.mem_reverse, hr]
      rw [List.mem_reverse] at hd
      exact List.mem_cons_of_mem _ hd
  · cases h

/-- What is read for a subscript at the end of a vector argument, and what is written for it. -/
theorem writes_subscriptRule {x y : Text} (h : subscriptRule.Writes x y) :
    ∃ base sub : Text, (base ≠ [] ∧ ∀ c ∈ base, isBrace c = false) ∧
      (sub ≠ [] ∧ ∀ c ∈ sub, isBrace c = false) ∧
      x = command "vec" ++ braced (base ++ '_' :: braced sub) ∧
      y = command "vec" ++ (braced base ++ '_' :: braced sub) := by
  obtain ⟨rest, h⟩ := h
  obtain ⟨t, hx, h⟩ := Rule.fire?_eq_some_iff.1 h
  obtain ⟨⟨base, sub, rest'⟩, hsub, he⟩ := Option.map_eq_some_iff.1 h
  cases he
  obtain ⟨hbase, hsub'⟩ := plain_of_subscripted? hsub
  refine ⟨base, sub, hbase, hsub', ?_, by simp⟩
  have hread : x ++ rest = command "vec" ++ braced (base ++ '_' :: braced sub) ++ rest := by
    rw [hx, append_of_subscripted? hsub]
    simp [subscriptRule, opening, braced]
  exact List.append_cancel_right hread

/-- An argument that can stand without braces: letters, or a command of letters. -/
inductive Bare : Text → Prop where
  | letters {name : Text} : name ≠ [] → (∀ c ∈ name, isBareLetter c = true) → Bare name
  | command {name : Text} : name ≠ [] → (∀ c ∈ name, isBareLetter c = true) → Bare ('\\' :: name)

theorem bareName?_eq_some {p s : Text} {k : Cut} (h : bareName? p s = some k) :
    ∃ name, name ≠ [] ∧ (∀ c ∈ name, isBareLetter c = true) ∧ k.before = p ++ name ∧
      s = name ++ k.after := by
  unfold bareName? at h
  simp only at h
  split at h
  · cases h
  · next hne =>
    cases h
    exact ⟨_, hne, fun c hc => of_mem_before_run hc, rfl, (run_append _ s).symm⟩

theorem append_of_bareArgument? {s : Text} {k : Cut} (h : bareArgument? s = some k) :
    ∃ blanks, (∀ c ∈ blanks, isBlank c = true) ∧ Bare k.before ∧
      s = blanks ++ (k.before ++ k.after) := by
  have hs : s = s.takeWhile isBlank ++ trimLeft s := List.takeWhile_append_dropWhile.symm
  refine ⟨s.takeWhile isBlank, fun c hc => List.all_eq_true.1 List.all_takeWhile c hc, ?_⟩
  unfold bareArgument? at h
  split at h
  · next t ht =>
    obtain ⟨name, hne, hname, hk, rfl⟩ := bareName?_eq_some h
    refine ⟨hk ▸ .command hne hname, ?_⟩
    rw [hk]
    conv => lhs; rw [hs, ht]
    simp
  · obtain ⟨name, hne, hname, hk, ht⟩ := bareName?_eq_some h
    refine ⟨hk ▸ .letters hne hname, ?_⟩
    rw [hk]
    conv => lhs; rw [hs, ht]
    simp

/-- Where the pass braces an argument. -/
theorem fire?_bareArgumentRule_eq_some_iff {s y rest : Text} :
    bareArgumentRule.fire? s = some (y, rest) ↔ ∃ t argument, s = command "vec" ++ t ∧
      bareArgument? t = some ⟨argument, rest⟩ ∧ y = command "vec" ++ braced argument := by
  rw [Rule.fire?_eq_some_iff]
  constructor
  · rintro ⟨t, rfl, ht⟩
    obtain ⟨k, hk, he⟩ := Option.map_eq_some_iff.1 ht
    cases he
    exact ⟨t, k.before, rfl, hk, rfl⟩
  · rintro ⟨t, argument, rfl, ht, rfl⟩
    exact ⟨t, rfl, Option.map_eq_some_iff.2 ⟨_, ht, rfl⟩⟩

/-- What is read for a vector without braces, and what is written for it. -/
theorem writes_bareArgumentRule {x y : Text} (h : bareArgumentRule.Writes x y) :
    ∃ blanks argument : Text, (∀ c ∈ blanks, isBlank c = true) ∧ Bare argument ∧
      x = command "vec" ++ (blanks ++ argument) ∧ y = command "vec" ++ braced argument := by
  obtain ⟨rest, h⟩ := h
  obtain ⟨t, argument, hx, hk, rfl⟩ := fire?_bareArgumentRule_eq_some_iff.1 h
  obtain ⟨blanks, hblanks, hbare, rfl⟩ := append_of_bareArgument? hk
  refine ⟨blanks, argument, hblanks, hbare, ?_, rfl⟩
  have hread : x ++ rest = command "vec" ++ (blanks ++ argument) ++ rest := by simp [hx]
  exact List.append_cancel_right hread

/-- Nothing in an argument that can stand without braces is a brace. -/
theorem Bare.isBrace_eq_false {argument : Text} (h : Bare argument) :
    ∀ c ∈ argument, isBrace c = false := by
  have hletter : ∀ {c}, isBareLetter c = true → isBrace c = false := by
    intro c hc
    exact isBrace_eq_false_of_kind rfl rfl hc
  cases h with
  | letters _ hname => exact fun c hc => hletter (hname c hc)
  | command _ hname =>
    intro c hc
    rcases List.mem_cons.1 hc with rfl | hc
    · rfl
    · exact hletter (hname c hc)

/-! ### Braces go on nesting, and all else stays -/

/-- Flattening the bars of vectors keeps braces nesting. -/
theorem nests_flattenBars {s : Text} (h : Nests isBrace s) : Nests isBrace (flattenBars s) := by
  refine flattenBars_induction ?_ h
  intro a t _ hat
  have hbar : Nests isBrace (command "bar") := rfl
  obtain ⟨low, ha, ht⟩ := openAfter_append_eq_some_iff.1 hat
  obtain ⟨x, u, rfl, hgroup, hx, hu⟩ := exists_group seesBraces_isBrace ht (Nat.zero_le _)
  refine openAfter_append_eq_some_iff.2 ⟨low, ha, ?_⟩
  rw [hgroup, openAfter_group seesBraces_isBrace (nests_removeCommand seesBraces_isBrace hbar hx)]
  exact hu

theorem filter_flattenBars {p : Char → Bool} (ho : p '{' = false) (hc : p '}' = false)
    (hbar : (command "bar").filter p = []) (s : Text) :
    (flattenBars s).filter p = s.filter p := by
  refine flattenBars_induction (P := fun t => t.filter p = s.filter p) ?_ rfl
  intro a t _ ht
  rw [← ht, List.filter_append, List.filter_append, List.filter_cons, List.filter_cons,
    List.filter_append, filter_removeCommand_unwrap ho hc hbar, ← List.filter_append,
    groupBody_append]

section
variable {seen : Char → Bool}

theorem nests_mark : Nests seen ['_'] := nests_of_inert fun _ hc _ => by
  rw [List.mem_singleton.1 hc]
  exact ⟨rfl, rfl⟩

theorem nests_vec : Nests seen (command "vec") := by
  have hinert : (command "vec").all
      (fun c => Delimiter.opened? c = none ∧ Delimiter.closed? c = none) = true := by
    decide
  exact nests_of_inert fun c hc _ => of_decide_eq_true (List.all_eq_true.1 hinert c hc)

theorem openAfter_script_iff (hseen : SeesBraces seen) {sub t : Text}
    (hsub : ∀ c ∈ sub, isBrace c = false) {stack out : List Delimiter} :
    openAfter seen stack ('_' :: (braced sub ++ t)) = some out ↔
      Nests seen sub ∧ openAfter seen stack t = some out := by
  rw [openAfter_cons, nests_mark.openAfter, Option.bind_some, openAfter_plain_group_iff hseen hsub]

/-- With a subscript at its end a group is closed exactly when its base and the subscript nest. -/
theorem openAfter_subscript_inside_iff (hseen : SeesBraces seen) {base sub : Text}
    (hbase : ∀ c ∈ base, isBrace c = false) (hsub : ∀ c ∈ sub, isBrace c = false)
    {stack out : List Delimiter} :
    openAfter seen stack (braced (base ++ '_' :: braced sub)) = some out ↔
      Nests seen base ∧ Nests seen sub ∧ stack = out := by
  constructor
  · intro h
    rw [braced, openAfter_cons_of_opened? hseen.opening (d := .brace) rfl, List.append_assoc] at h
    obtain ⟨mid, hmid, hscript⟩ := openAfter_append_eq_some_iff.1 h
    obtain ⟨inner, hinner, hnests, rfl⟩ := exists_openAfter_of_plain hbase List.not_mem_nil hmid
    obtain ⟨hnests', hclosing⟩ := (openAfter_script_iff hseen hsub).1 hscript
    obtain ⟨rfl, hout⟩ := (openAfter_closing_iff hseen hinner).1 hclosing
    exact ⟨hnests, hnests', Option.some.inj hout⟩
  · rintro ⟨hnests, hnests', rfl⟩
    have hscript := nests_mark.append (nests_braced hseen hnests')
    exact (nests_braced hseen (hnests.append hscript)).openAfter stack

/-- With the subscript behind it the group asks for the same. -/
theorem openAfter_subscript_behind_iff (hseen : SeesBraces seen) {base sub : Text}
    (hbase : ∀ c ∈ base, isBrace c = false) (hsub : ∀ c ∈ sub, isBrace c = false)
    {stack out : List Delimiter} :
    openAfter seen stack (braced base ++ '_' :: braced sub) = some out ↔
      Nests seen base ∧ Nests seen sub ∧ stack = out := by
  have hnil : braced sub = braced sub ++ [] := (List.append_nil _).symm
  rw [openAfter_plain_group_iff hseen hbase, hnil, openAfter_script_iff hseen hsub, openAfter_nil,
    Option.some.injEq]

/-- Moving subscripts out of vectors keeps a text nesting, and one that does not nest as it is. -/
theorem nests_moveSubscriptOut_iff (hseen : SeesBraces seen) {s : Text} :
    Nests seen (moveSubscriptOut s) ↔ Nests seen s := by
  have hwrite : ∀ {x y}, subscriptRule.Writes x y →
      ∀ stack, openAfter seen stack y = openAfter seen stack x := by
    intro x y hw stack
    obtain ⟨base, sub, ⟨-, hbase⟩, ⟨-, hsub⟩, rfl, rfl⟩ := writes_subscriptRule hw
    ext out
    rw [openAfter_append, openAfter_append, nests_vec.openAfter, Option.bind_some, Option.bind_some,
      openAfter_subscript_inside_iff hseen hbase hsub,
      openAfter_subscript_behind_iff hseen hbase hsub]
  rw [Nests, Nests, moveSubscriptOut, Rule.openAfter_pass hwrite]

end

theorem filter_moveSubscriptOut {p : Char → Bool} (ho : p '{' = false) (hc : p '}' = false)
    (s : Text) : (moveSubscriptOut s).filter p = s.filter p := by
  refine Rule.filter_pass ?_ s
  intro x y hw
  obtain ⟨base, sub, -, -, rfl, rfl⟩ := writes_subscriptRule hw
  simp only [List.filter_append, List.filter_cons, filter_braced ho hc]

/-- Bracing the arguments of vectors keeps the nesting of braces. -/
theorem nests_braceBareArgument_iff {s : Text} :
    Nests isBrace (braceBareArgument s) ↔ Nests isBrace s := by
  have hvec : Nests isBrace (command "vec") := rfl
  refine Rule.nests_pass_iff ?_
  intro x y hw
  obtain ⟨blanks, argument, hblanks, hbare, rfl, rfl⟩ := writes_bareArgumentRule hw
  have hblank : ∀ c ∈ blanks, isBrace c = false := by
    intro c hc
    exact isBrace_eq_false_of_kind rfl rfl (hblanks c hc)
  have hargument := nests_of_not_seen hbare.isBrace_eq_false
  exact ⟨hvec.append ((nests_of_not_seen hblank).append hargument),
    hvec.append (nests_braced seesBraces_isBrace hargument)⟩

/-- Bracing the arguments of vectors loses the blanks before them, and nothing else but braces is
    changed. -/
theorem filter_braceBareArgument {p : Char → Bool} (ho : p '{' = false) (hc : p '}' = false)
    (hblank : ∀ c, isBlank c = true → p c = false) (s : Text) :
    (braceBareArgument s).filter p = s.filter p := by
  refine Rule.filter_pass ?_ s
  intro x y hw
  obtain ⟨blanks, argument, hblanks, -, rfl, rfl⟩ := writes_bareArgumentRule hw
  have hnil : blanks.filter p = [] := by
    rw [List.filter_eq_nil_iff]
    intro c hc'
    rw [hblank c (hblanks c hc')]
    exact Bool.false_ne_true
  rw [List.filter_append, List.filter_append, List.filter_append, filter_braced ho hc, hnil,
    List.nil_append]

end TidyTex.Vector
