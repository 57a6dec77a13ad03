import Mathlib.Data.List.Induction
import TidyTex.Brace.Outer
import TidyTex.Offset.Passes
import TidyTex.Proofs.Brace.Owner
import TidyTex.Proofs.Offset.Scan

/-! Scopes, owners and outer braces by offsets.

    An offset that a scanner gives is the length of a beginning of the text, and so is one that the
    walk to the left comes to: what has not been walked over yet is such a beginning
    (`walk_charOffsets`). So every range that is cut lies between two beginnings of the text. -/

namespace TidyTex.Offset

open Text

variable {s x y t : Text} {p : Nat}

theorem firstBrace?_eq (hs : byteLength s < 2 ^ 64) :
    firstBrace? s = .ok ((Text.firstBrace? s).map fun k => byteLength k.before) := by
  rw [firstBrace?, Scanner.scan_firstBrace (by omega)]
  simp only [Nat.zero_add]

/-- The offset where a cut is, with the end of the text for a cut that is there. -/
theorem getD_stop? {k : Cut} {n : Nat} (hn : n = p + byteLength (k.before ++ k.after)) :
    (Scanner.stop? p k).getD n = p + byteLength k.before := by
  unfold Scanner.stop?
  split
  · next h => rw [Option.getD_none, hn, h, List.append_nil]
  · rfl

/-- The count of braces stops at the brace that closes a group. -/
theorem stop?_groupBody : Scanner.stop? p (groupBody 0 t) =
    (groupBody 0 t).closed?.map fun body => p + byteLength body.before := by
  rw [Scanner.stop?, Cut.closed?]
  rcases after_groupBody 0 t with h | ⟨u, h⟩
  · rw [h]
    rfl
  · rw [h]
    rfl

section
variable (hs : s = x ++ '{' :: t)
include hs

theorem groupEnd?_of_group : Text.groupEnd? s (byteLength x) =
    (groupBody 0 t).closed?.map fun body => byteLength x + 1 + byteLength body.before := by
  have hcut : cutAt? s (byteLength x + 1) = some ⟨x ++ ['{'], t⟩ :=
    cutAt?_eq_some_iff.2 ⟨by rw [hs, List.append_assoc]; rfl, byteLength_append x ['{']⟩
  rw [Text.groupEnd?, hcut, Option.bind_some]

theorem byteLength_of_group : byteLength s = byteLength x + 1 + byteLength t := by
  have hopening : ('{').utf8Size = 1 := rfl
  rw [hs, byteLength_append, byteLength_cons, hopening, Nat.add_assoc]

/-- The machine finds the brace that closes a group. -/
theorem groupEnd?_eq (hfit : byteLength s < 2 ^ 63) :
    groupEnd? s (byteLength x) = .ok (Text.groupEnd? s (byteLength x)) := by
  have hopening : ('{').utf8Size = 1 := rfl
  have hlength := byteLength_of_group hs
  have hgroup : Scanner.group.scan (byteLength x + 1) ((0 : Nat) + 1) (bytes t) =
      .ok (Scanner.stop? (byteLength x + 1) (groupBody 0 t)) :=
    Scanner.scan_group (by omega) (by omega)
  have hscan : groupEnd? s (byteLength x) =
      .ok (Scanner.stop? (byteLength x + 1) (groupBody 0 t)) := by
    rw [groupEnd?, drop_bytes hs rfl,
      Scanner.scan_go (Scanner.group_step_opening (d := 0) (by omega) (by omega)) (by omega)]
    exact hgroup
  rw [hscan, groupEnd?_of_group hs, stop?_groupBody]

/-- The end of a group, with the end of the text for a group that is never closed. -/
theorem getD_groupEnd? : (Text.groupEnd? s (byteLength x)).getD (byteLength s) =
    byteLength x + 1 + byteLength (groupBody 0 t).before := by
  rw [groupEnd?_of_group hs, ← stop?_groupBody]
  exact getD_stop? (by rw [groupBody_append, byteLength_of_group hs])

theorem split_of_group :
    s = (x ++ ['{']) ++ (groupBody 0 t).before ++ (groupBody 0 t).after := by
  rw [hs, List.append_assoc _ (groupBody 0 t).before, groupBody_append, List.append_assoc]
  rfl

/-- The body of a group lies between its opening brace and its end. -/
theorem slice_groupBody : slice s (byteLength x + 1)
    (byteLength x + 1 + byteLength (groupBody 0 t).before) = .ok (groupBody 0 t).before := by
  have hopen : byteLength x + 1 = byteLength (x ++ ['{']) := by
    rw [byteLength_append]
    rfl
  exact slice_eq_ok (split_of_group hs) hopen (by rw [hopen])

end

/-- Where a text cannot be cut there is no scope to be read. -/
theorem scopeAt?_of_not_isBoundary (h : isBoundary s (p + 1) = false) :
    Text.scopeAt? s p = none := by
  rw [isBoundary, Option.isSome_eq_false_iff, Option.isNone_iff_eq_none] at h
  rw [Text.scopeAt?, h]
  rfl

theorem scopeAt?_eq (hs : byteLength s < 2 ^ 64) (p : Nat) :
    scopeAt? s p = .ok (Text.scopeAt? s p) := by
  unfold scopeAt?
  rcases Nat.lt_or_ge (p + 1) (2 ^ 64) with hp | hp
  · rw [add_eq_ok hp]
    simp only
    split
    · next hboundary =>
      obtain ⟨x, y, rfl, hx⟩ := isBoundary_iff.1 hboundary
      rw [byteLength_append] at hs
      have hcut : cutAt? (x ++ y) (p + 1) = some ⟨x, y⟩ := cutAt?_eq_some_iff.2 ⟨rfl, hx⟩
      rw [drop_bytes rfl hx.symm, Scanner.scan_scope (by omega) (by omega), ok_bind,
        Text.scopeAt?, hcut, Option.bind_some]
      cases hbody : scopeBody? 0 y with
      | none => rfl
      | some body =>
        have hslice : slice (x ++ y) (p + 1) (p + 1 + byteLength body.before) = .ok body.before :=
          slice_eq_ok (y := '}' :: body.after)
            (by rw [List.append_assoc, ← append_of_scopeBody? hbody]) hx.symm (by rw [hx])
        simp only [Option.map_some, hslice]
        rfl
    · next hboundary =>
      rw [scopeAt?_of_not_isBoundary (Bool.eq_false_iff.2 hboundary)]
  · have hadd : add p 1 = .error .overflow := if_neg (Nat.not_lt.2 hp)
    rw [hadd, scopeAt?_of_not_isBoundary]
    refine Bool.eq_false_iff.2 fun hboundary => ?_
    have hle := le_byteLength_of_isBoundary hboundary
    omega

/-! ### Owners -/

theorem charOffsets_concat (p : Nat) (x : Text) (c : Char) :
    charOffsets p (x ++ [c]) = charOffsets p x ++ [(p + byteLength x, c)] := by
  induction x generalizing p with
  | nil => rfl
  | cons d x ih =>
    rw [List.cons_append, charOffsets, ih, charOffsets, byteLength_cons, List.cons_append,
      Nat.add_assoc]

theorem reverse_charOffsets_concat (x : Text) (c : Char) :
    (charOffsets 0 (x ++ [c])).reverse = (byteLength x, c) :: (charOffsets 0 x).reverse := by
  rw [charOffsets_concat, List.reverse_append, List.reverse_singleton, List.singleton_append,
    Nat.zero_add]

/-- Where a reversed text has been walked to, with the offset of the place. -/
def haltAt : Text → Option Halt
  | [] => none
  | c :: rest =>
    if c = '^' ∨ c = '_' then some (.script c) else some (.char (byteLength rest.reverse) c)

/-- The walk over offsets goes as far as the gap in front of a group. -/
theorem walk_charOffsets (inside : Bool) (x : Text) :
    walk inside (charOffsets 0 x).reverse = haltAt (Owner.skipGap inside x.reverse) := by
  induction x using List.reverseRecOn generalizing inside with
  | nil => cases inside <;> rfl
  | append_singleton x c ih =>
    rw [reverse_charOffsets_concat, List.reverse_append, List.reverse_singleton,
      List.singleton_append]
    cases inside with
    | true => exact ih (c != '[')
    | false =>
      rw [walk, Owner.skipGap]
      by_cases hscript : c = '^' ∨ c = '_'
      · rcases hscript with rfl | rfl <;> rfl
      · by_cases hbracket : c = ']'
        · subst hbracket
          exact ih true
        · rw [if_neg hscript, if_neg hbracket, if_neg hbracket]
          by_cases hgap : c = ' ' ∨ c = '\t' ∨ c = '['
          · rw [if_pos hgap, if_pos hgap]
            exact ih false
          · rw [if_neg hgap, if_neg hgap, haltAt, if_neg hscript, List.reverse_reverse]

/-- The offset at which the letters at the end of a text begin. -/
theorem start_eq (x : Text) :
    (((charOffsets 0 x).reverse.takeWhile (isAlphabetic ·.2)).getLast?.map Prod.fst).getD
      (byteLength x) = byteLength (run isAlphabetic x.reverse).after.reverse := by
  induction x using List.reverseRecOn with
  | nil => rfl
  | append_singleton x c ih =>
    rw [reverse_charOffsets_concat, List.reverse_append, List.reverse_singleton,
      List.singleton_append]
    by_cases hc : isAlphabetic c = true
    · have hafter :
          (run isAlphabetic (c :: x.reverse)).after = (run isAlphabetic x.reverse).after :=
        List.dropWhile_cons_of_pos hc
      rw [List.takeWhile_cons_of_pos (p := fun q : Nat × Char => isAlphabetic q.2)
        (a := (byteLength x, c)) hc, List.getLast?_cons, Option.map_some,
        Option.getD_some, hafter, ← ih]
      exact (Option.getD_map Prod.fst (byteLength x, c) _).symm
    · have hafter : (run isAlphabetic (c :: x.reverse)).after = c :: x.reverse :=
        List.dropWhile_cons_of_neg hc
      rw [List.takeWhile_cons_of_neg (p := fun q : Nat × Char => isAlphabetic q.2)
        (a := (byteLength x, c)) hc, hafter, List.reverse_cons, List.reverse_reverse]
      rfl

theorem skipGap_suffix (inside : Bool) (x : Text) : Owner.skipGap inside x <:+ x := by
  fun_induction Owner.skipGap inside x with
  | case1 | case5 => exact List.suffix_rfl
  | case2 _ _ ih | case3 _ ih | case4 _ _ _ _ ih => exact ih.trans (List.suffix_cons _ _)

theorem owner?_eq (hs : byteLength s < 2 ^ 64) :
    owner? s = .ok ((Text.owner? s).map Owner.text) := by
  unfold owner? Text.owner?
  rw [walk_charOffsets]
  obtain ⟨gap, hs'⟩ := skipGap_suffix false s.reverse
  cases hgap : Owner.skipGap false s.reverse with
  | nil => rfl
  | cons c rest =>
    rw [haltAt]
    by_cases hscript : c = '^' ∨ c = '_'
    · rw [if_pos hscript]
      rcases hscript with rfl | rfl <;> rfl
    · by_cases hb : c = '\\'
      · rw [hb]
        rfl
      · rw [hgap] at hs'
        have hsplit : s = rest.reverse ++ [c] ++ gap.reverse := by
          have h := congrArg List.reverse hs'
          rw [List.reverse_append, List.reverse_cons, List.reverse_reverse] at h
          exact h.symm
        have hrest := run_append isAlphabetic rest
        have hstart := start_eq rest.reverse
        rw [List.reverse_reverse] at hstart
        rw [Owner.read?_of_name hscript hb, if_neg hscript]
        generalize (run isAlphabetic rest).before = name, (run isAlphabetic rest).after = before
          at hrest hstart ⊢
        have hletters : rest.reverse = before.reverse ++ name.reverse := by
          rw [← hrest, List.reverse_append]
        have hbefore : slice s 0 (byteLength before.reverse) = .ok before.reverse :=
          slice_zero_eq_ok (y := name.reverse ++ [c] ++ gap.reverse)
            (by rw [hsplit, hletters]; simp only [List.append_assoc]) rfl
        have hwhole : slice s 0 (byteLength rest.reverse) = .ok rest.reverse :=
          slice_zero_eq_ok (y := [c] ++ gap.reverse) (by rw [hsplit, List.append_assoc]) rfl
        simp only [if_neg hb, hwhole, ok_bind, hstart, hbefore, List.getLast?_reverse]
        split
        · next hhead =>
          obtain ⟨r, rfl⟩ := List.head?_eq_some_iff.1 hhead
          have hback : ('\\').utf8Size = 1 := rfl
          have hlength : byteLength ('\\' :: r).reverse = byteLength r.reverse + 1 := by
            rw [List.reverse_cons, byteLength_append, byteLength_cons, byteLength_nil, hback]
          have hspelled : slice s (byteLength r.reverse) (byteLength rest.reverse + c.utf8Size) =
              .ok ('\\' :: (c :: name).reverse) := by
            refine slice_eq_ok (x := r.reverse) (y := gap.reverse) ?_ rfl ?_
            · rw [hsplit, hletters]
              simp
            · rw [hletters, byteLength_append, hlength]
              simp only [List.reverse_cons, byteLength_append, byteLength_cons, byteLength_nil,
                hback]
              omega
          have hfit : byteLength rest.reverse + c.utf8Size < 2 ^ 64 := by
            rw [hsplit] at hs
            simp only [byteLength_append, byteLength_cons, byteLength_nil] at hs
            omega
          rw [sub_eq_ok (by omega), ok_bind, add_eq_ok hfit, ok_bind, hlength, Nat.add_sub_cancel,
            hspelled]
          rfl
        · rfl

theorem ownerAt?_eq (hs : byteLength s < 2 ^ 64) (p : Nat) :
    ownerAt? s p = .ok ((Text.ownerAt? s p).map Owner.text) := by
  unfold ownerAt? Text.ownerAt?
  cases hk : cutAt? s p with
  | none => rfl
  | some k =>
    obtain ⟨rfl, -⟩ := cutAt?_eq_some_iff.1 hk
    rw [byteLength_append] at hs
    exact owner?_eq (by omega)

/-! ### Outer braces -/

theorem ownerAt?_append (x y : Text) : Text.ownerAt? (x ++ y) (byteLength x) = Text.owner? x := by
  rw [Text.ownerAt?, cutAt?_append, Option.bind_some]

theorem scopeAt?_append (x y : Text) : Text.scopeAt? (x ++ '{' :: y) (byteLength x) =
    (scopeBody? 0 y).map fun body =>
      ⟨byteLength x, byteLength x + 1 + byteLength body.before, body.before⟩ := by
  have hopening : ('{').utf8Size = 1 := rfl
  have hcut := cutAt?_append (x ++ ['{']) y
  rw [byteLength_append, byteLength_cons, byteLength_nil, Nat.add_zero, hopening, List.append_assoc,
    List.singleton_append] at hcut
  rw [Text.scopeAt?, hcut, Option.bind_some]

theorem stripOuter?_eq (hs : byteLength s < 2 ^ 64) : stripOuter? s = .ok (Text.stripOuter? s) := by
  unfold stripOuter? Text.stripOuter?
  rw [firstBrace?_eq hs, ok_bind]
  cases hk : Text.firstBrace? s with
  | none => rfl
  | some k =>
    have howner := ownerAt?_eq hs (byteLength k.before)
    have hscope := scopeAt?_eq hs (byteLength k.before)
    obtain ⟨x, y⟩ := k
    obtain rfl : s = x ++ '{' :: y := append_of_firstBrace? hk
    rw [ownerAt?_append] at howner
    rw [scopeAt?_append] at hscope
    conv => lhs; simp only [Option.map_some, howner, hscope, ok_bind, Option.isSome_map]
    rw [Option.bind_eq_bind, Option.bind_some]
    cases Text.owner? x with
    | some owner => rfl
    | none =>
      cases hbody : scopeBody? 0 y with
      | none => rfl
      | some body =>
        have hopening : ('{').utf8Size = 1 := rfl
        have hclosing : ('}').utf8Size = 1 := rfl
        have hsplit : x ++ '{' :: y = x ++ '{' :: (body.before ++ ['}']) ++ body.after := by
          rw [append_of_scopeBody? hbody]
          simp
        have hlength := congrArg byteLength hsplit
        simp only [byteLength_append, byteLength_cons, byteLength_nil, hopening, hclosing]
          at hs hlength
        have hadd := add_eq_ok (a := byteLength x + 1 + byteLength body.before) (b := 1) (by omega)
        have hafter : sliceFrom (x ++ '{' :: y) (byteLength x + 1 + byteLength body.before + 1) =
            .ok body.after := by
          refine sliceFrom_eq_ok hsplit ?_
          simp only [byteLength_append, byteLength_cons, byteLength_nil, hopening, hclosing]
          omega
        conv => lhs; simp only [Option.map_some, hadd, hafter, ok_bind]
        by_cases hmem : '}' ∈ body.after
        · have hguard : (guard ('}' ∉ body.after) : Option Unit) = none :=
            if_neg (not_not_intro hmem)
          rw [if_pos hmem, Option.bind_some, hguard]
          rfl
        · have hguard : (guard ('}' ∉ body.after) : Option Unit) = some () := if_pos hmem
          rw [if_neg hmem, Option.bind_some, hguard]
          rfl

end TidyTex.Offset
