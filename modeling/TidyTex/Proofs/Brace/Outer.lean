import TidyTex.Brace.Outer

/-! Runs of strips.

    Strips are made one after the other, up to a limit, and a run may be stopped and taken up again
    with what it has left:

        {{{{7}}}}    ──▶    {{7}}    ──▶    7
                   two             two

    A run that was stopped by its limit goes on as if there had been no stop, and one that has come
    to its end has nothing more to do, so limits and numbers of strips add up. Each strip costs the
    two bytes of its braces or more, so half as many strips as there are bytes are all that can be
    made (`stripOuters_add`). -/

namespace TidyTex.Text

/-- A strip gives up at least the bytes of two braces. -/
theorem byteLength_stripOuter? {s t : Text} (h : stripOuter? s = some t) :
    byteLength t + 2 ≤ byteLength s := by
  obtain ⟨a, b, rfl⟩ := append_of_stripOuter? h
  have hopening : '{'.utf8Size = 1 := by decide
  have hclosing : '}'.utf8Size = 1 := by decide
  simp only [byteLength_append, byteLength_cons]
  omega

/-- So many strips have taken twice as many bytes. -/
theorem byteLength_stripOuters (limit : Nat) (s : Text) :
    byteLength (stripOuters limit s).1 + (stripOuters limit s).2 * 2 ≤ byteLength s :=
  repeatAtMost_cost byteLength byteLength_stripOuter? limit s

/-- No text has a strip left after half as many as it has bytes. -/
theorem stripOuter?_stripOuters {limit : Nat} {s : Text} (h : byteLength s / 2 ≤ limit) :
    stripOuter? (stripOuters limit s).1 = none := by
  refine step_eq_none_of_measure (fun t => byteLength t / 2) ?_ h
  intro s t hstrip
  have hpaid := byteLength_stripOuter? hstrip
  omega

/-- A run of strips with limit `a` and one with limit `b` from where it has ended are together a run
    with limit `a + b`. Every strip costs two bytes, so a run that may strip as often as two bytes
    fit into the text ends where nothing can be stripped. -/
theorem stripOuters_add {s t u : Text} {a b i j : Nat} (ha : stripOuters a s = (t, i))
    (hb : stripOuters b t = (u, j)) :
    stripOuters (a + b) s = (u, i + j) ∧
      (byteLength t + i * 2 ≤ byteLength s ∧
        ∀ v, stripOuter? t = some v → byteLength v + 2 ≤ byteLength t) ∧
      (byteLength s / 2 ≤ a → stripOuter? t = none) := by
  have hfirst : (stripOuters a s).1 = t := congrArg Prod.fst ha
  refine ⟨?_, ⟨?_, fun v hv => byteLength_stripOuter? hv⟩, ?_⟩
  · have hsplit : stripOuters (a + b) s = ((stripOuters b (stripOuters a s).1).1,
        (stripOuters a s).2 + (stripOuters b (stripOuters a s).1).2) := repeatAtMost_add a b s
    rw [hsplit, ha, hb]
  · have hcost := byteLength_stripOuters a s
    rwa [ha] at hcost
  · intro hhalf
    have hnone := stripOuter?_stripOuters hhalf
    rwa [hfirst] at hnone

/-- The four groups of a text of nine bytes are stripped in runs of four and of one. -/
theorem stripOuters_add_nested :
    stripOuters 4 "{{{{7}}}}".toList = (['7'], 4) ∧ stripOuters 1 ['7'] = (['7'], 0) ∧
      stripOuters (4 + 1) "{{{{7}}}}".toList = (['7'], 4 + 0) ∧ stripOuter? ['7'] = none := by
  have ha : stripOuters 4 "{{{{7}}}}".toList = (['7'], 4) := by decide
  have hb : stripOuters 1 ['7'] = (['7'], 0) := by decide
  obtain ⟨hsum, -, hdone⟩ := stripOuters_add ha hb
  exact ⟨ha, hb, hsum, hdone (by decide)⟩

end TidyTex.Text
