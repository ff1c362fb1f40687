import ContextFree.Proofs.Vocabulary.Split

/-!
# The longest symbol first

A text may have several splits, and `split?` gives one of them.  This module says which one.

* `IsSplit` lists the ways to split a text, in words that mention no search.
* `TakesLonger` compares two sequences of symbols at the first place where they differ.  The split
  that `split?` gives takes a longer symbol there than any other split
  (`eq_or_takesLonger_of_split?`).
* Lengths.  `TakesLonger.sizes_lt` turns this into the order of the lists of lengths, for every way
  to measure texts that grows with them.  Characters and bytes are two of them.

`split?_greatest` puts them together.
-/

namespace ContextFree

/-! ## Measuring texts -/

namespace Text

/-- Whether a way to measure texts gives more for a text than for what begins it. -/
def Grows (size : Text → Nat) : Prop :=
  ∀ text rest : Text, rest ≠ [] → size text < size (text ++ rest)

theorem grows_length : Grows List.length := by
  intro text rest hrest
  have hpos := List.length_pos_iff.2 hrest
  rw [List.length_append]
  omega

theorem grows_utf8Length : Grows utf8Length := by
  intro text rest hrest
  have hne : (String.ofList rest).utf8ByteSize ≠ 0 := by
    intro hzero
    exact hrest (String.ofList_eq_empty_iff.1 (String.utf8ByteSize_eq_zero_iff.1 hzero))
  rw [utf8Length, utf8Length, String.ofList_append, String.utf8ByteSize_append]
  omega

end Text

/-- The sizes of symbols, one after the other. -/
def Symbol.sizes (size : Text → Nat) (symbols : List Symbol) : List Nat :=
  symbols.map fun s => size s.text

namespace Vocabulary

variable {v : Vocabulary} {text : Text} {xs ys : List Symbol}

/-! ## Splits -/

/-- A way to split a text: symbols of the vocabulary that spell it, none of them empty. -/
structure IsSplit (v : Vocabulary) (text : Text) (symbols : List Symbol) : Prop where
  subset : symbols ⊆ v
  letters : ∀ s ∈ symbols, s.text ≠ []
  spell : Symbol.spell symbols = text

theorem isSplit_nil_iff : v.IsSplit [] ys ↔ ys = [] := by
  constructor
  · intro h
    cases ys with
    | nil => rfl
    | cons y ys =>
      have hne := h.letters y List.mem_cons_self
      exact absurd (List.append_eq_nil_iff.1 h.spell).1 hne
  · rintro rfl
    exact ⟨List.nil_subset v, List.forall_mem_nil _, rfl⟩

/-- A split of a text that is not empty is a symbol that begins the text, and a split of the
rest. -/
theorem isSplit_cons_iff {c : Char} :
    v.IsSplit (c :: text) ys ↔
      ∃ s tail rest, ys = s :: tail ∧ s ∈ v ∧ s.text ≠ [] ∧ c :: text = s.text ++ rest ∧
        v.IsSplit rest tail := by
  constructor
  · intro h
    cases ys with
    | nil => exact absurd h.spell (List.cons_ne_nil c text).symm
    | cons s tail =>
      obtain ⟨hs, hsub⟩ := List.cons_subset.1 h.subset
      obtain ⟨hne, hletters⟩ := List.forall_mem_cons.1 h.letters
      exact ⟨s, tail, Symbol.spell tail, rfl, hs, hne, h.spell.symm, hsub, hletters, rfl⟩
  · rintro ⟨s, tail, rest, rfl, hs, hne, htext, htail⟩
    refine ⟨List.cons_subset.2 ⟨hs, htail.subset⟩, List.forall_mem_cons.2 ⟨hne, htail.letters⟩, ?_⟩
    rw [Symbol.spell_cons, htail.spell, htext]

theorem isSplit_of_split? (h : v.split? text = some xs) : v.IsSplit text xs := by
  obtain ⟨hspell, hsub, hletters⟩ := spell_of_split? h
  exact ⟨hsub, hletters, hspell⟩

theorem IsSplit.isSome_split? (h : v.IsSplit text ys) : (v.split? text).isSome := by
  rw [← h.spell]
  exact isSome_split?_spell h.subset h.letters

/-! ## Which split it is -/

/-- Whether, where two sequences of symbols first differ, the first one takes a longer symbol, which
the symbol of the second one begins. -/
inductive TakesLonger : List Symbol → List Symbol → Prop
  | here {x y : Symbol} {xs ys : List Symbol} {more : Text} (htext : x.text = y.text ++ more)
      (hmore : more ≠ []) : TakesLonger (x :: xs) (y :: ys)
  | later {x : Symbol} {xs ys : List Symbol} (h : TakesLonger xs ys) :
      TakesLonger (x :: xs) (x :: ys)

/-- A split that `split?` gives takes a longer symbol where another split differs from it.  The
induction is on the symbols that it gives: as long as they are taken, both splits have the same rest
to go on with. -/
theorem eq_or_takesLonger_of_split? (h : v.split? text = some xs) (hys : v.IsSplit text ys) :
    ys = xs ∨ TakesLonger xs ys := by
  induction xs generalizing text ys with
  | nil =>
    obtain rfl : [] = text := (isSplit_of_split? h).spell
    exact .inl (isSplit_nil_iff.1 hys)
  | cons x xs ih =>
    cases text with
    | nil => simp at h
    | cons c text =>
      obtain ⟨x', xs', rest, hcons, -, -, hx, hrest, hlongest⟩ := of_split?_cons h
      obtain ⟨rfl, rfl⟩ := List.cons_eq_cons.1 hcons
      obtain ⟨y, ys, others, rfl, hy, hne, hothers, hys⟩ := isSplit_cons_iff.1 hys
      have hle : y.text.length ≤ x.text.length :=
        hlongest y hy (canBegin_iff.2 ⟨hne, others, hothers, hys.isSome_split?⟩)
      obtain ⟨more, htext⟩ : y.text <+: x.text :=
        List.prefix_of_prefix_length_le ⟨others, hothers.symm⟩ ⟨rest, hx.symm⟩ hle
      by_cases hmore : more = []
      · rw [hmore, List.append_nil] at htext
        obtain rfl : y = x := Symbol.eq_of_text_eq htext
        have heq : others = rest := List.append_cancel_left (hothers.symm.trans hx)
        exact (ih hrest (heq ▸ hys)).imp (congrArg (y :: ·)) .later
      · exact .inr (.here htext.symm hmore)

/-- Longer symbols have greater sizes, so the lists of sizes compare at the same place. -/
theorem TakesLonger.sizes_lt {size : Text → Nat} (hsize : Text.Grows size)
    (h : TakesLonger xs ys) :
    List.Lex (· < ·) (Symbol.sizes size ys) (Symbol.sizes size xs) := by
  induction h with
  | @here x y _ _ more htext hmore =>
    have hlt : size y.text < size x.text := htext ▸ hsize y.text more hmore
    exact .rel hlt
  | later _ ih => exact .cons ih

/-- Whether a split has the greatest list of sizes of all splits of its text, and is the only one
that has it. -/
def IsGreatestSplit (size : Text → Nat) (v : Vocabulary) (text : Text) (xs : List Symbol) : Prop :=
  v.IsSplit text xs ∧ ∀ ys, v.IsSplit text ys →
    ys = xs ∨ List.Lex (· < ·) (Symbol.sizes size ys) (Symbol.sizes size xs)

/-- What `split?` gives is the greatest split, whichever way its symbols are measured. -/
theorem split?_eq_some_iff {size : Text → Nat} (hsize : Text.Grows size) :
    v.split? text = some xs ↔ IsGreatestSplit size v text xs := by
  constructor
  · intro h
    refine ⟨isSplit_of_split? h, fun ys hys => ?_⟩
    exact (eq_or_takesLonger_of_split? h hys).imp_right fun hlonger => hlonger.sizes_lt hsize
  · rintro ⟨hxs, hgreatest⟩
    obtain ⟨zs, hzs⟩ := Option.isSome_iff_exists.1 hxs.isSome_split?
    rcases hgreatest zs (isSplit_of_split? hzs) with rfl | hlt
    · exact hzs
    · rcases eq_or_takesLonger_of_split? hzs hxs with rfl | hlonger
      · exact hzs
      · exact absurd hlt (List.lt_asymm (hlonger.sizes_lt hsize))

/-- Splits do not depend on the order of a vocabulary and on how often it has a symbol. -/
theorem isSplit_congr {w : Vocabulary} (h : ∀ s, s ∈ w ↔ s ∈ v) :
    w.IsSplit text xs ↔ v.IsSplit text xs :=
  ⟨fun hw => ⟨fun s hs => (h s).1 (hw.subset hs), hw.letters, hw.spell⟩,
    fun hv => ⟨fun s hs => (h s).2 (hv.subset hs), hv.letters, hv.spell⟩⟩

/-- A text is split whenever it can be.  Of all its splits the one is given whose list of lengths
is the greatest, first length first, and it is the same whether lengths are counted in characters
or in bytes.  The order of the vocabulary and repeated symbols make no difference. -/
theorem split?_greatest (v : Vocabulary) (text : Text) :
    ((∃ xs, v.split? text = some xs) ↔ ∃ xs, v.IsSplit text xs) ∧
      (∀ xs, v.split? text = some xs ↔ IsGreatestSplit List.length v text xs) ∧
      (∀ xs, v.split? text = some xs ↔ IsGreatestSplit Text.utf8Length v text xs) ∧
      ∀ w : Vocabulary, (∀ s, s ∈ w ↔ s ∈ v) → w.split? text = v.split? text := by
  refine ⟨?_, fun xs => split?_eq_some_iff Text.grows_length,
    fun xs => split?_eq_some_iff Text.grows_utf8Length, fun w hw => ?_⟩
  · constructor
    · rintro ⟨xs, h⟩
      exact ⟨xs, isSplit_of_split? h⟩
    · rintro ⟨xs, h⟩
      exact Option.isSome_iff_exists.1 h.isSome_split?
  · refine Option.ext fun xs => ?_
    rw [split?_eq_some_iff Text.grows_length, split?_eq_some_iff Text.grows_length]
    simp only [IsGreatestSplit, isSplit_congr hw]

/-- The longest symbol comes first, and is given up where what it leaves cannot be split. -/
example : split? ["a", "ab", "bc"] "abab".toList = some [("ab" : Symbol), "ab"] ∧
    split? ["a", "ab", "bc"] "abc".toList = some [("a" : Symbol), "bc"] := by decide

end Vocabulary

end ContextFree
