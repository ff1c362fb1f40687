import ContextFree.Text.Blank
import ContextFree.Text.Lines

/-!
# Lines that were written one after the other

Lines are written with a line feed behind each.  `lines_append` takes off the first of them, and
`lines_flatMap` gives them all back.  A written line must not have a line feed in it, nor a
carriage return at its end, which would be dropped.  `Text.IsSpaced` is a way to be sure of both:
no white space but the space.

`lines_cases` is what `lines` does with one item, and `lines_append_kept` what it does with a piece
that is kept.  `eq_append_of_lines` goes the other way, from the lines to what they were cut from.
`Text.lines_induction` is for statements about all texts that are proved line by line.
-/

namespace ContextFree

/-! ## Lines of anything -/

section

variable {α : Type} [DecidableEq α]

/-- Lines with a piece put before the first of them. -/
def extendFirst (piece : List α) : List (List α) → List (List α)
  | [] => [piece]
  | line :: others => (piece ++ line) :: others

/-- A line feed, and one carriage return before it, are all that is dropped. -/
theorem lines_cases (lf cr a : α) (rest : List α) :
    a = lf ∧ lines lf cr (a :: rest) = [] :: lines lf cr rest ∨
      a ≠ lf ∧ a = cr ∧ rest.head? = some lf ∧ lines lf cr (a :: rest) = lines lf cr rest ∨
      a ≠ lf ∧ (a = cr → rest.head? ≠ some lf) ∧
        lines lf cr (a :: rest) = extendFirst [a] (lines lf cr rest) := by
  rw [lines]
  by_cases hlf : a = lf
  · exact .inl ⟨hlf, if_pos hlf⟩
  · by_cases hcr : a = cr ∧ rest.head? = some lf
    · exact .inr (.inl ⟨hlf, hcr.1, hcr.2, by rw [if_neg hlf, if_pos hcr]⟩)
    · refine .inr (.inr ⟨hlf, not_and.1 hcr, ?_⟩)
      rw [if_neg hlf, if_neg hcr]
      cases lines lf cr rest <;> rfl

/-- A piece without a line feed, and without a carriage return that is dropped, is kept. -/
theorem lines_append_kept {lf cr : α} {piece rest : List α} (hne : piece ≠ []) (hlf : lf ∉ piece)
    (hcr : piece.getLast? = some cr → rest.head? ≠ some lf) :
    lines lf cr (piece ++ rest) = extendFirst piece (lines lf cr rest) := by
  induction piece with
  | nil => exact absurd rfl hne
  | cons a piece ih =>
    obtain ⟨hfirst, hlf⟩ := List.ne_and_not_mem_of_not_mem_cons hlf
    rcases lines_cases lf cr a (piece ++ rest) with ⟨ha, -⟩ | ⟨-, ha, hhead, -⟩ | ⟨-, -, hlines⟩
    · exact absurd ha.symm hfirst
    · cases piece with
      | nil => exact absurd hhead (hcr (by simp [ha]))
      | cons b piece =>
        have hb : b = lf := by simpa using hhead
        exact absurd (hb ▸ List.mem_cons_self) hlf
    · rw [List.cons_append, hlines]
      cases piece with
      | nil => rfl
      | cons b piece =>
        rw [ih (List.cons_ne_nil b piece) hlf (by simpa using hcr)]
        cases lines lf cr rest <;> rfl

/-- The first line of a text is what stands before the first line feed. -/
theorem lines_append {lf cr : α} {line : List α} (hlf : lf ∉ line)
    (hcr : line.getLast? ≠ some cr) (rest : List α) :
    lines lf cr (line ++ lf :: rest) = line :: lines lf cr rest := by
  have hfirst : lines lf cr (lf :: rest) = [] :: lines lf cr rest := if_pos rfl
  by_cases hne : line = []
  · rw [hne, List.nil_append, hfirst]
  · rw [lines_append_kept hne hlf fun hlast => absurd hlast hcr, hfirst, extendFirst,
      List.append_nil]

/-- A carriage return before a line feed is dropped with it, and what stands before both is kept. -/
theorem lines_append_carriageReturn {lf cr : α} (hne : cr ≠ lf) {line : List α} (hlf : lf ∉ line)
    (rest : List α) : lines lf cr (line ++ cr :: lf :: rest) = line :: lines lf cr rest := by
  have hfirst : lines lf cr (cr :: lf :: rest) = [] :: lines lf cr rest := by
    simp [lines, hne]
  by_cases hempty : line = []
  · rw [hempty, List.nil_append, hfirst]
  · have hhead : line.getLast? = some cr → (cr :: lf :: rest).head? ≠ some lf := fun _ hhead =>
      hne (Option.some.inj hhead)
    rw [lines_append_kept hempty hlf hhead, hfirst, extendFirst, List.append_nil]

/-- What has no line feed is one line, unless it is empty. -/
theorem lines_of_not_mem {lf cr : α} {line : List α} (hne : line ≠ []) (hlf : lf ∉ line) :
    lines lf cr line = [line] := by
  have hkept : lines lf cr (line ++ []) = extendFirst line (lines lf cr []) :=
    lines_append_kept hne hlf fun _ => by simp
  rwa [List.append_nil] at hkept

/-- Lines that were written with a line feed behind each are read back. -/
theorem lines_flatMap {lf cr : α} {written : List (List α)} (hlf : ∀ line ∈ written, lf ∉ line)
    (hcr : ∀ line ∈ written, line.getLast? ≠ some cr) :
    lines lf cr (written.flatMap fun line => line ++ [lf]) = written := by
  induction written with
  | nil => rfl
  | cons line written ih =>
    obtain ⟨hline, hlf⟩ := List.forall_mem_cons.1 hlf
    obtain ⟨hlast, hcr⟩ := List.forall_mem_cons.1 hcr
    rw [List.flatMap_cons, List.append_assoc, List.singleton_append, lines_append hline hlast,
      ih hlf hcr]

theorem lines_eq_nil_iff {lf cr : α} {items : List α} : lines lf cr items = [] ↔ items = [] := by
  induction items with
  | nil => simp [lines]
  | cons a items ih =>
    rcases lines_cases lf cr a items with ⟨-, hlines⟩ | ⟨-, -, hhead, hlines⟩ | ⟨-, -, hlines⟩
    · simp [hlines]
    · have hne : items ≠ [] := by
        rintro rfl
        simp at hhead
      simp [hlines, ih, hne]
    · rw [hlines]
      cases lines lf cr items <;> simp [extendFirst]

/-- What ends a line: a line feed, alone or after a carriage return, or else nothing, if nothing
comes after the line. -/
theorem eq_append_of_lines {lf cr : α} {items line : List α} {others : List (List α)}
    (h : lines lf cr items = line :: others) :
    ∃ ending rest, items = line ++ ending ++ rest ∧ lines lf cr rest = others ∧
      (ending = [lf] ∨ ending = [cr, lf] ∨ ending = [] ∧ rest = []) := by
  induction items generalizing line with
  | nil => simp [lines] at h
  | cons a items ih =>
    rcases lines_cases lf cr a items with ⟨rfl, hlines⟩ | ⟨-, rfl, hhead, hlines⟩ | ⟨-, -, hlines⟩
    · obtain ⟨rfl, hothers⟩ := List.cons_eq_cons.1 (hlines.symm.trans h)
      exact ⟨[a], items, rfl, hothers, .inl rfl⟩
    · obtain ⟨rest, rfl⟩ := List.head?_eq_some_iff.1 hhead
      have hlf : lines lf a (lf :: rest) = [] :: lines lf a rest := by simp [lines]
      obtain ⟨rfl, hothers⟩ := List.cons_eq_cons.1 (hlf.symm.trans (hlines.symm.trans h))
      exact ⟨[a, lf], rest, rfl, hothers, .inr (.inl rfl)⟩
    · rw [hlines] at h
      cases hitems : lines lf cr items with
      | nil =>
        rw [hitems] at h
        obtain ⟨rfl, rfl⟩ := List.cons_eq_cons.1 h
        obtain rfl := lines_eq_nil_iff.1 hitems
        exact ⟨[], [], rfl, hitems, .inr (.inr ⟨rfl, rfl⟩)⟩
      | cons first others' =>
        rw [hitems] at h
        obtain ⟨rfl, rfl⟩ := List.cons_eq_cons.1 h
        obtain ⟨ending, rest, rfl, hrest, hending⟩ := ih hitems
        exact ⟨ending, rest, rfl, hrest, hending⟩

end

/-! ## Lines of text -/

namespace Text

/-- Whether the only white space in a text is the space. -/
def IsSpaced (text : Text) : Prop := ∀ c ∈ text, c = ' ' ∨ isBlank c = false

-- named, so that the members of the text are tried and not all characters
instance (text : Text) : Decidable text.IsSpaced :=
  List.decidableBAll (fun c => c = ' ' ∨ isBlank c = false) text

theorem IsSpaced.append {first second : Text} (hfirst : first.IsSpaced)
    (hsecond : second.IsSpaced) : (first ++ second).IsSpaced :=
  List.forall_mem_append.2 ⟨hfirst, hsecond⟩

theorem IsSpaced.intercalate {separator : Text} {pieces : List Text}
    (hseparator : separator.IsSpaced) (hpieces : ∀ piece ∈ pieces, piece.IsSpaced) :
    IsSpaced (separator.intercalate pieces) := by
  induction pieces with
  | nil => simp [IsSpaced]
  | cons piece pieces ih =>
    obtain ⟨hfirst, hpieces⟩ := List.forall_mem_cons.1 hpieces
    cases pieces with
    | nil => simpa using hfirst
    | cons next pieces =>
      rw [List.intercalate_cons_cons]
      exact (hfirst.append hseparator).append (ih hpieces)

theorem IsSpaced.not_mem {text : Text} (h : text.IsSpaced) {c : Char} (hblank : isBlank c = true)
    (hspace : c ≠ ' ') : c ∉ text := by
  intro hc
  rcases h c hc with heq | hletter
  · exact hspace heq
  · simp [hblank] at hletter

/-- Texts whose only white space is the space are read back as lines. -/
theorem lines_of_isSpaced {written : List Text} (h : ∀ line ∈ written, line.IsSpaced) :
    Text.lines (written.flatMap fun line => line ++ ['\n']) = written := by
  refine lines_flatMap (fun line hline => ?_) (fun line hline => ?_)
  · exact (h line hline).not_mem (by decide) (by decide)
  · intro hlast
    exact (h line hline).not_mem (by decide) (by decide) (List.mem_of_getLast? hlast)

/-- A text is built from its lines: the last one has no line feed, and the others are put before it,
each with a line feed behind it. -/
@[elab_as_elim]
theorem lines_induction {motive : Text → Prop} (last : ∀ line : Text, '\n' ∉ line → motive line)
    (next : ∀ line rest : Text, '\n' ∉ line → motive rest → motive (line ++ '\n' :: rest))
    (text : Text) : motive text := by
  by_cases hlf : '\n' ∈ text
  · obtain ⟨line, rest, htext, hline⟩ := List.eq_append_cons_of_mem hlf
    rw [htext]
    exact next line rest hline (lines_induction last next rest)
  · exact last text hlf
termination_by text.length
decreasing_by
  rw [htext, List.length_append, List.length_cons]
  omega

end Text

end ContextFree
