import TidyTex.Proofs.Occurrence
import TidyTex.Proofs.Relation
import TidyTex.Proofs.Symbol

/-! A text with one relation, written as a symbol, is cut right behind that symbol.

    What is written for a symbol is a command, and a cut behind a command takes the letters along
    that come next. Folding keeps the two apart, with a space where a letter follows:

        2x·≥qr   ──▶   2x\cdot\ge qr   ──▶   qr
        2x·≥−1   ──▶   2x\cdot\ge-1    ──▶   -1

    Neither side can add to the command or take its place: a sign has its first character nowhere
    else, so it cannot reach over from the left, and behind the command there is no letter for it
    (`eq_of_isInfix_append_command`). So the cut gives the whole of the right-hand side
    (`rightHandSide_foldSymbols_append`). -/

namespace TidyTex

open Text

/-- The symbols of relations at which a text is cut. -/
def relationSymbols : List Char := ['≈', '≥', '≤']

theorem exists_stem_of_mem_relationSymbols :
    ∀ r ∈ relationSymbols, ∃ name ∈ relationStems, sign? r = some (.command name) := by
  rw [relationSymbols, List.forall_mem_cons, List.forall_mem_cons, List.forall_mem_singleton]
  exact ⟨⟨"approx", by decide, rfl⟩, ⟨"ge", by decide, rfl⟩, ⟨"le", by decide, rfl⟩⟩

/-- A sign is a character and letters behind it. That character is no space, and it is in none of
    the names with which a command for a relation begins. -/
theorem exists_spelling_eq_cons {sign : Sign} (h : sign ∈ relationSigns) :
    ∃ a l, sign.spelling = a :: l ∧ (∀ c ∈ l, c.isAlpha = true) ∧ a ≠ ' ' ∧
      ∀ name ∈ relationStems, a ∉ name.toList := by
  have hsigns : ∀ sign ∈ relationSigns, sign.spelling.tail.all Char.isAlpha = true ∧
      sign.spelling.head? ≠ some ' ' ∧
        ∀ name ∈ relationStems, sign.spelling.head? ∉ name.toList.map some := by
    decide
  obtain ⟨a, l, hs⟩ := List.exists_cons_of_ne_nil sign.spelling_ne_nil
  obtain ⟨hl, hspace, ha⟩ := hsigns sign h
  rw [hs] at hl hspace ha
  exact ⟨a, l, hs, List.all_eq_true.1 hl, fun h => hspace (congrArg some h),
    fun name hname hmem => ha name hname (List.mem_map_of_mem hmem)⟩

/-! ### Folding both sides -/

theorem Sign.gap_command (name : String) (s : Text) :
    (command name).gap s = if startsWithLetter s then [' '] else [] := rfl

theorem Sign.gap_append (sign : Sign) {s : Text} (h : startsWithLetter s = false) (p : Text) :
    sign.gap (p ++ s) = sign.gap p := by
  cases p with
  | cons c p => cases sign <;> rfl
  | nil =>
    cases sign with
    | symbol c => rfl
    | command name =>
      rw [List.nil_append, gap_command, h]
      rfl

namespace Text

/-- Two texts are folded each for itself when no letter comes between them. -/
theorem foldSymbols_append {s : Text} (h : startsWithLetter s = false) (p : Text) :
    foldSymbols (p ++ s) = foldSymbols p ++ foldSymbols s := by
  induction p with
  | nil => rfl
  | cons c p ih =>
    rw [List.cons_append]
    cases hc : sign? c with
    | none => rw [foldSymbols_of_none hc, foldSymbols_of_none hc, ih, List.cons_append]
    | some sign =>
      rw [foldSymbols_of_some hc, foldSymbols_of_some hc, sign.gap_append h, ih,
        List.append_assoc, List.append_assoc, List.append_assoc]

/-- Where a text does not start with a letter, the folded text does not either. -/
theorem startsWithLetter_foldSymbols {s : Text} (h : startsWithLetter s = false) :
    startsWithLetter (foldSymbols s) = false := by
  cases s with
  | nil => rfl
  | cons c s =>
    cases hc : sign? c with
    | none =>
      rw [foldSymbols_of_none hc]
      exact h
    | some sign =>
      rw [foldSymbols_of_some hc]
      rcases Sign.spelling_cases hc with hs | ⟨e, name, hs, -⟩ <;> rw [hs] <;> rfl

/-- Behind a command for a symbol there is no letter. -/
theorem startsWithLetter_gap_append (name : String) (s : Text) :
    startsWithLetter ((Sign.command name).gap s ++ foldSymbols s) = false := by
  rw [Sign.gap_command]
  cases h : startsWithLetter s with
  | false => exact startsWithLetter_foldSymbols h
  | true => rfl

/-! ### The cut -/

/-- Where no letter follows a part of a text, letters that begin the text begin that part. -/
theorem isPrefix_append_iff_of_isAlpha {l x z : Text} (hl : ∀ c ∈ l, c.isAlpha = true)
    (hz : startsWithLetter z = false) : l <+: x ++ z ↔ l <+: x := by
  cases z with
  | nil => rw [List.append_nil]
  | cons c z =>
    refine isPrefix_append_cons_iff fun hmem => ?_
    have hc := hl c hmem
    rw [startsWithLetter, List.head?_cons, Option.any_some, hc] at hz
    cases hz

/-- Around a command for a relation the only sign is that command, unless there is one on either
    side or a letter follows. -/
theorem eq_of_isInfix_append_command {sign : Sign} (hsign : sign ∈ relationSigns) {name : String}
    (hname : name ∈ relationStems) {x z : Text} (hx : ¬ sign.spelling <:+: x)
    (hz : ¬ sign.spelling <:+: z) (hletter : startsWithLetter z = false)
    (h : sign.spelling <:+: x ++ (command name ++ z)) : sign = .command name := by
  have hsame : ∀ sign ∈ relationSigns, ∀ name ∈ relationStems,
      sign.spelling <+: command name → sign = .command name := by
    decide
  obtain ⟨a, l, hs, hl, -, ha⟩ := exists_spelling_eq_cons hsign
  have hback : '\\' ∉ l := fun hmem => absurd (hl _ hmem) (by decide)
  rw [hs] at hx hz h
  rw [command, List.cons_append, infix_append_cons_iff hback, List.infix_cons_iff] at h
  -- A sign on the left, at the backslash of the command, or behind the backslash. The name does not
  -- have the first character of a sign, so one behind the backslash lies behind the name.
  rcases h with h | h | h
  · exact absurd h hx
  · rw [List.cons_prefix_cons, isPrefix_append_iff_of_isAlpha hl hletter] at h
    refine hsame sign hsign name hname ?_
    rw [hs, command, List.cons_prefix_cons]
    exact h
  · exact absurd (isInfix_of_isInfix_append (ha name hname) h) hz

/-- A text in which one sign alone occurs is cut behind that sign. -/
theorem rightHandSide_of_only {sign : Sign} (hsign : sign ∈ relationSigns) {s t : Text}
    (ht : sign.afterLast? s = some t)
    (honly : ∀ other ∈ relationSigns, other.spelling <:+: s → other = sign) :
    rightHandSide s = trim t := by
  rw [rightHandSide]
  cases hcut : relationSigns.findSome? fun sign => sign.afterLast? s with
  | none =>
    have hnone := List.findSome?_eq_none_iff.1 hcut _ hsign
    rw [ht] at hnone
    cases hnone
  | some u =>
    obtain ⟨other, hother, hu⟩ := List.exists_of_findSome?_eq_some hcut
    have hoccurs : other.spelling <:+: s := by
      by_contra hno
      rw [Sign.afterLast?_eq_none_iff.2 hno] at hu
      cases hu
    obtain rfl := honly other hother hoccurs
    rw [ht] at hu
    rw [Option.getD_some, Option.some.inj hu]

/-- A command for a relation that is the only sign and that no letter follows is cut right behind
    itself. -/
theorem rightHandSide_append_command {name : String} (hname : name ∈ relationStems) {x z : Text}
    (hx : ∀ sign ∈ relationSigns, ¬ sign.spelling <:+: x)
    (hz : ∀ sign ∈ relationSigns, ¬ sign.spelling <:+: z) (hletter : startsWithLetter z = false) :
    rightHandSide (x ++ (command name ++ z)) = trim z := by
  have hstems : ∀ name ∈ relationStems, .command name ∈ relationSigns ∧ '\\' ∉ name.toList := by
    decide
  obtain ⟨hmem, hback⟩ := hstems name hname
  have hlast : cutLast? (command name) (x ++ (command name ++ z)) = some ⟨x, z⟩ :=
    cutLast?_append_cons (fun h => hz _ hmem (isInfix_of_isInfix_append hback h)) x
  have hafter : (Sign.command name).afterLast? (x ++ (command name ++ z)) = some z := by
    rw [Sign.afterLast?, Sign.spelling, hlast, Option.map_some, Sign.passOver]
    exact congrArg (some ·.after) (run_append_of_head? (List.forall_mem_nil _) hletter)
  exact rightHandSide_of_only hmem hafter fun sign hsign =>
    eq_of_isInfix_append_command hsign hname (hx sign hsign) (hz sign hsign) hletter

/-- Blanks in front of a text are trimmed away. -/
theorem trim_append_of_isBlank {x : Text} (h : ∀ c ∈ x, isBlank c = true) (s : Text) :
    trim (x ++ s) = trim s := by
  rw [trim, trimLeft, List.dropWhile_append_of_pos h, trim, trimLeft]

/-- A text with a symbol of a relation, and with no sign of one on either side of it, is cut so that
    the right-hand side is kept as it is, but for the blanks at its ends. -/
theorem rightHandSide_foldSymbols_append {r : Char} (hr : r ∈ relationSymbols) {p q : Text}
    (hp : ∀ sign ∈ relationSigns, ¬ sign.spelling <:+: foldSymbols p)
    (hq : ∀ sign ∈ relationSigns, ¬ sign.spelling <:+: foldSymbols q) :
    rightHandSide (foldSymbols (p ++ r :: q)) = trim (foldSymbols q) := by
  have hletters : ∀ q ∈ symbols, q.1.isAlpha = false := by decide
  obtain ⟨name, hname, hsign⟩ := exists_stem_of_mem_relationSymbols r hr
  have hletter : startsWithLetter (r :: q) = false := hletters _ (mem_symbols_of_sign? hsign)
  have hgap := (Sign.command name).gap_cases q
  have hnone : ∀ sign ∈ relationSigns,
      ¬ sign.spelling <:+: (Sign.command name).gap q ++ foldSymbols q := by
    intro sign hmem h
    obtain ⟨a, l, hs, -, hspace, -⟩ := exists_spelling_eq_cons hmem
    rw [hs] at h
    refine hq sign hmem ?_
    rw [hs]
    refine isInfix_of_isInfix_append ?_ h
    rcases hgap with hg | hg <;> simp [hg, hspace]
  have hblank : ∀ c ∈ (Sign.command name).gap q, isBlank c = true := by
    rcases hgap with hg | hg <;> rw [hg]
    · nofun
    · exact List.forall_mem_singleton.2 rfl
  rw [foldSymbols_append hletter, foldSymbols_of_some hsign, List.append_assoc, Sign.spelling,
    rightHandSide_append_command hname hp hnone (startsWithLetter_gap_append name q),
    trim_append_of_isBlank hblank]

theorem rightHandSide_foldSymbols_append_letters :
    rightHandSide (foldSymbols ("2x·".toList ++ '≥' :: "qr".toList)) = "qr".toList := by
  have hp : ∀ sign ∈ relationSigns, ¬ sign.spelling <:+: foldSymbols "2x·".toList := by decide
  have hq : ∀ sign ∈ relationSigns, ¬ sign.spelling <:+: foldSymbols "qr".toList := by decide
  have htrim : trim (foldSymbols "qr".toList) = "qr".toList := by decide +kernel
  rw [rightHandSide_foldSymbols_append (by decide) hp hq, htrim]

end Text

end TidyTex
