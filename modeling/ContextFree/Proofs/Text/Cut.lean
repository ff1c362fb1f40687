import ContextFree.Text.Blank
import Mathlib.Data.List.Basic

/-!
# Where a text is cut

`Text.cut?` cuts a text at the first occurrence of a separator.  The lemmas here say where this is.

* `Text.length_le_of_cut?` says that no occurrence stands further left, and `Text.not_infix_of_cut?`
  that there is none before the cut.
* `Text.cut?_append_of_ends` says that a text is cut where its separator was put, unless the
  separator begins before.  `Text.cut?_append` and `Text.cut?_append_of_getLast?` are two ways to be
  sure of this: a letter of the separator that is missing in the text, and a text without the
  separator that ends with a foreign letter.
* `Text.pieces` cuts a text at every occurrence, and `Text.pieces_intercalate` says that this gives
  back what was joined.
* `Text.isInfix_trim` and `Text.trim_of_not_blank` are about the white space around what was cut.
-/

namespace ContextFree

namespace Text

variable {text separator before rest : Text}

/-! ## The first occurrence -/

theorem cut?_of_after? (h : text.after? separator = some rest) :
    text.cut? separator = some ([], rest) := by
  cases text with
  | nil => simp [cut?, h]
  | cons c text => simp [cut?, h]

/-- A text is cut at the first occurrence of the separator: no other one begins further left. -/
theorem length_le_of_cut? (h : text.cut? separator = some (before, rest)) {earlier later : Text}
    (htext : text = earlier ++ separator ++ later) : before.length ≤ earlier.length := by
  induction text generalizing before rest earlier with
  | nil =>
    have hlength := congrArg List.length (eq_of_cut? h)
    simp only [List.length_nil, List.length_append] at hlength
    omega
  | cons c text ih =>
    cases earlier with
    | nil =>
      have hafter : after? (c :: text) separator = some later := after?_eq_some.2 htext
      obtain ⟨rfl, -⟩ := Prod.mk.inj (Option.some.inj (h.symm.trans (cut?_of_after? hafter)))
      exact Nat.le_refl _
    | cons e earlier =>
      obtain ⟨-, htext⟩ := List.cons_eq_cons.1 htext
      rw [cut?] at h
      split at h
      · obtain ⟨rfl, -⟩ := Prod.mk.inj (Option.some.inj h)
        exact Nat.zero_le _
      · obtain ⟨⟨b, r⟩, hcut, heq⟩ := Option.map_eq_some_iff.1 h
        obtain ⟨rfl, -⟩ := Prod.mk.inj heq
        exact Nat.succ_le_succ (ih hcut htext)

theorem not_infix_of_cut? (hne : separator ≠ []) (h : text.cut? separator = some (before, rest)) :
    ¬ separator <:+: before := by
  intro hoccurs
  obtain ⟨earlier, later, hbefore⟩ := hoccurs
  have htext : text = earlier ++ separator ++ (later ++ separator ++ rest) := by
    rw [eq_of_cut? h, ← hbefore]
    simp
  have hle := length_le_of_cut? h htext
  have hlength := congrArg List.length hbefore
  have hpos := List.length_pos_iff.2 hne
  simp only [List.length_append] at hlength
  omega

/-! ## Where a separator was put -/

/-- A text is cut where its separator was put, if the separator does not begin at an end of what
stands before. -/
theorem cut?_append_of_ends
    (h : ∀ last : Text, last ≠ [] → last <:+ text →
      (last ++ (separator ++ rest)).after? separator = none) :
    (text ++ (separator ++ rest)).cut? separator = some (text, rest) := by
  induction text with
  | nil => exact cut?_of_after? (after?_append separator rest)
  | cons c text ih =>
    have hafter := h (c :: text) (List.cons_ne_nil c text) (List.suffix_refl _)
    have hrest := ih fun last hne hlast => h last hne (hlast.trans (List.suffix_cons c text))
    rw [List.cons_append] at hafter ⊢
    rw [cut?, hafter, hrest]
    rfl

/-- A separator cannot begin inside a text if it has a letter that is neither in the text nor
earlier in the separator. -/
theorem after?_append_eq_none {text start : Text} {c : Char} (hne : text ≠ [])
    (htext : c ∉ text) (hstart : c ∉ start) (last rest : Text) :
    (text ++ (start ++ c :: last ++ rest)).after? (start ++ c :: last) = none := by
  rw [Option.eq_none_iff_forall_ne_some]
  intro tail htail
  -- The letter would have to stand before the place where it stands first.
  have heq : (text ++ start) ++ (c :: (last ++ rest)) = start ++ (c :: (last ++ tail)) := by
    simpa using Text.after?_eq_some.1 htail
  rcases List.append_eq_append_iff.1 heq with ⟨between, hstart', -⟩ | ⟨between, hboth, hrest⟩
  · have hlength := congrArg List.length hstart'
    simp only [List.length_append] at hlength
    exact hne (List.eq_nil_of_length_eq_zero (by omega))
  · cases between with
    | nil =>
      have hlength := congrArg List.length hboth
      simp only [List.length_append, List.length_nil] at hlength
      exact hne (List.eq_nil_of_length_eq_zero (by omega))
    | cons b between =>
      obtain ⟨rfl, -⟩ := List.cons.inj hrest
      have hmem : c ∈ text ++ start := by simp [hboth]
      exact (List.mem_append.1 hmem).elim htext hstart

/-- A text is cut where its separator was put, if some letter of the separator is neither in the
text before it nor earlier in the separator. -/
theorem cut?_append {text start : Text} {c : Char} (htext : c ∉ text) (hstart : c ∉ start)
    (last rest : Text) :
    cut? (text ++ (start ++ c :: last ++ rest)) (start ++ c :: last) = some (text, rest) := by
  refine cut?_append_of_ends fun ending hne hending => ?_
  exact after?_append_eq_none hne (fun hc => htext (hending.subset hc)) hstart last rest

/-- A text is cut where its separator was put, if the text does not have the separator in it and
ends with a letter that the separator does not have. -/
theorem cut?_append_of_getLast? {c : Char} (habsent : ¬ separator <:+: text)
    (hlast : text.getLast? = some c) (hc : c ∉ separator) (rest : Text) :
    (text ++ (separator ++ rest)).cut? separator = some (text, rest) := by
  refine cut?_append_of_ends fun ending hne hending => ?_
  rw [Option.eq_none_iff_forall_ne_some]
  intro later hlater
  rcases List.append_eq_append_iff.1 (after?_eq_some.1 hlater) with
    ⟨more, hseparator, -⟩ | ⟨more, hbegins, -⟩
  · -- the last letter of the text would be a letter of the separator
    have hmem : c ∈ ending := by
      obtain ⟨start, rfl⟩ := hending
      rw [List.getLast?_append_of_ne_nil _ hne] at hlast
      exact List.mem_of_getLast? hlast
    exact hc (hseparator ▸ List.mem_append_left more hmem)
  · have hstart : separator <+: ending := ⟨more, hbegins.symm⟩
    exact habsent (hstart.isInfix.trans hending.isInfix)

/-- A text is not cut at a separator with a letter that the text does not have. -/
theorem cut?_eq_none_of_not_mem {text separator : Text} {c : Char} (hc : c ∈ separator)
    (htext : c ∉ text) : text.cut? separator = none := by
  rw [Option.eq_none_iff_forall_ne_some]
  intro parts hparts
  have heq : text = parts.1 ++ separator ++ parts.2 := eq_of_cut? hparts
  exact htext (by simp [heq, hc])

/-! ## Cutting everywhere -/

theorem length_lt_of_cut? (hne : separator ≠ []) (h : text.cut? separator = some (before, rest)) :
    rest.length < text.length := by
  have hlength := congrArg List.length (eq_of_cut? h)
  have hpos := List.length_pos_iff.2 hne
  simp only [List.length_append] at hlength
  omega

/-- The pieces of a text between the occurrences of a separator, which are found from left to
right.  An empty separator is found once. -/
def pieces (text separator : Text) : List Text :=
  match h : text.cut? separator with
  | none => [text]
  | some (before, rest) =>
    if hne : separator = [] then [before, rest]
    else
      have := length_lt_of_cut? hne h
      before :: pieces rest separator
termination_by text.length

theorem pieces_of_cut?_eq_none (h : text.cut? separator = none) :
    text.pieces separator = [text] := by
  rw [pieces]
  split
  · rfl
  · next hcut => simp [h] at hcut

theorem pieces_of_cut? (hne : separator ≠ []) (h : text.cut? separator = some (before, rest)) :
    text.pieces separator = before :: rest.pieces separator := by
  rw [pieces]
  split
  · next hcut => simp [h] at hcut
  · next hcut =>
    obtain ⟨rfl, rfl⟩ := Prod.mk.inj (Option.some.inj (h.symm.trans hcut))
    rw [dif_neg hne]

/-- Cutting everywhere gives back the texts that were joined, if some letter of the separator is
neither in them nor earlier in the separator. -/
theorem pieces_intercalate {start : Text} {c : Char} (hstart : c ∉ start) (last : Text)
    {texts : List Text} (hne : texts ≠ []) (htexts : ∀ text ∈ texts, c ∉ text) :
    pieces ((start ++ c :: last).intercalate texts) (start ++ c :: last) = texts := by
  have hc : c ∈ start ++ c :: last := by simp
  induction texts with
  | nil => exact absurd rfl hne
  | cons text texts ih =>
    obtain ⟨htext, htexts⟩ := List.forall_mem_cons.1 htexts
    cases texts with
    | nil =>
      rw [List.intercalate_singleton]
      exact pieces_of_cut?_eq_none (cut?_eq_none_of_not_mem hc htext)
    | cons next texts =>
      have hcut := cut?_append htext hstart last ((start ++ c :: last).intercalate (next :: texts))
      rw [List.intercalate_cons_cons, List.append_assoc,
        pieces_of_cut? (List.ne_nil_of_mem hc) hcut, ih (List.cons_ne_nil next texts) htexts]

/-! ## Around a part -/

theorem isInfix_trim (text : Text) : text.trim <:+: text := by
  have hend : text.trim <+: text.trimStart := by
    have hreverse := List.dropWhile_suffix isBlank (l := text.trimStart.reverse)
    rw [trim, trimEnd, ← List.reverse_suffix, List.reverse_reverse]
    exact hreverse
  exact hend.isInfix.trans (List.dropWhile_suffix isBlank).isInfix

/-- A text that begins and ends with letters has nothing to trim. -/
theorem trim_of_not_blank {first last : Char} (hfirst : isBlank first = false)
    (hlast : isBlank last = false) (inner : Text) :
    trim (first :: (inner ++ [last])) = first :: (inner ++ [last]) := by
  simp [trim, trimStart, trimEnd, hfirst, hlast]

end Text

end ContextFree
