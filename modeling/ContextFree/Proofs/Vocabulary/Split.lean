import ContextFree.Proofs.Vocabulary.Decodable

/-!
# Splitting undoes spelling

`split?` works on the splits of all ends of a text at once.  The lemmas here bring it back to a
recursion on the text: `of_split?_cons` says what the split of a text that is not empty looks like,
and `isSome_split?_cons` when there is one.  From these follow, by induction on the sequence of
symbols, that a split spells the text (`spell_of_split?`), that a spelled text has a split
(`isSome_split?_spell`), and that over an unambiguous vocabulary it is the sequence that was
spelled (`Unambiguous.split?_spell`).

Over any other vocabulary some sequence is not given back, so the test for unique decodability is a
test for splitting (`isDecodable_iff_split?_spell`).
-/

namespace ContextFree

namespace Vocabulary

/-! ## One step of a split -/

@[simp] theorem split?_nil (v : Vocabulary) : v.split? [] = some [] := rfl

theorem drop_splitEnds (v : Vocabulary) {text : Text} {i : Nat} (hi : i ≤ text.length) :
    (v.splitEnds text).drop i = v.splitEnds (text.drop i) := by
  induction text generalizing i with
  | nil =>
    have hzero : i = 0 := by simpa using hi
    simp [hzero]
  | cons c text ih =>
    cases i with
    | zero => rfl
    | succ i => exact ih (by simpa using hi)

/-- After a symbol comes the split of what the symbol leaves. -/
theorem splitAfter_splitEnds (v : Vocabulary) {c : Char} {text rest : Text} {s : Symbol}
    (hne : s.text ≠ []) (htext : c :: text = s.text ++ rest) :
    splitAfter (v.splitEnds text) s = v.split? rest := by
  obtain ⟨b, letters, hs⟩ := List.exists_cons_of_ne_nil hne
  rw [hs, List.cons_append] at htext
  obtain ⟨-, rfl⟩ := List.cons_eq_cons.1 htext
  have hdrop : (v.splitEnds (letters ++ rest)).drop letters.length =
      v.splitEnds ((letters ++ rest).drop letters.length) := drop_splitEnds v (by simp)
  rw [splitAfter, hs, List.length_cons, Nat.add_sub_cancel, ← List.head?_drop, hdrop,
    List.drop_left, split?]

theorem canBegin_iff {v : Vocabulary} {c : Char} {text : Text} {s : Symbol} :
    canBegin (c :: text) (v.splitEnds text) s = true ↔
      s.text ≠ [] ∧ ∃ rest, c :: text = s.text ++ rest ∧ (v.split? rest).isSome := by
  simp only [canBegin, Bool.and_eq_true, Bool.not_eq_true', List.isEmpty_eq_false_iff,
    Option.isSome_iff_exists, Text.after?_eq_some]
  constructor
  · intro h
    obtain ⟨⟨hne, rest, htext⟩, tail, htail⟩ := h
    rw [splitAfter_splitEnds v hne htext] at htail
    exact ⟨hne, rest, htext, tail, htail⟩
  · intro h
    obtain ⟨hne, rest, htext, tail, htail⟩ := h
    rw [← splitAfter_splitEnds v hne htext] at htail
    exact ⟨⟨hne, rest, htext⟩, tail, htail⟩

/-- A split begins with a symbol that leaves a text with a split, and goes on with that split.
No longer symbol leaves such a text. -/
theorem of_split?_cons {v : Vocabulary} {c : Char} {text : Text} {xs : List Symbol}
    (h : v.split? (c :: text) = some xs) :
    ∃ s tail rest, xs = s :: tail ∧ s ∈ v ∧ s.text ≠ [] ∧ c :: text = s.text ++ rest ∧
      v.split? rest = some tail ∧
      ∀ t ∈ v, canBegin (c :: text) (v.splitEnds text) t = true →
        t.text.length ≤ s.text.length := by
  simp only [split?, splitEnds, splitWith, List.head?_cons, Option.join_some,
    Option.bind_eq_some_iff, Option.map_eq_some_iff] at h
  obtain ⟨s, hmax, tail, htail, rfl⟩ := h
  obtain ⟨hs, hbegin⟩ := List.mem_filter.1 (List.maxOn?_mem hmax)
  obtain ⟨hne, rest, htext, -⟩ := canBegin_iff.1 hbegin
  rw [splitAfter_splitEnds v hne htext] at htail
  refine ⟨s, tail, rest, rfl, hs, hne, htext, htail, ?_⟩
  intro t ht htbegin
  have hle := List.le_apply_get_maxOn?_of_mem (f := fun s : Symbol => s.text.length)
    (List.mem_filter.2 ⟨ht, htbegin⟩)
  simpa [hmax] using hle

/-- A text has a split if some symbol leaves a text with a split. -/
theorem isSome_split?_cons {v : Vocabulary} {c : Char} {text rest : Text} {s : Symbol}
    (hs : s ∈ v) (hne : s.text ≠ []) (htext : c :: text = s.text ++ rest)
    (hrest : (v.split? rest).isSome) : (v.split? (c :: text)).isSome := by
  have hbegin : canBegin (c :: text) (v.splitEnds text) s = true :=
    canBegin_iff.2 ⟨hne, rest, htext, hrest⟩
  have hfirst := List.isSome_maxOn?_of_mem (f := fun s : Symbol => s.text.length)
    (List.mem_filter.2 ⟨hs, hbegin⟩)
  obtain ⟨t, hmax⟩ := Option.isSome_iff_exists.1 hfirst
  obtain ⟨-, htbegin⟩ := List.mem_filter.1 (List.maxOn?_mem hmax)
  obtain ⟨htne, trest, htrest, htail⟩ := canBegin_iff.1 htbegin
  rw [← splitAfter_splitEnds v htne htrest] at htail
  simpa [split?, splitEnds, splitWith, hmax] using htail

/-! ## Splits and spellings -/

/-- A split spells the text with symbols of the vocabulary, none of them empty. -/
theorem spell_of_split? {v : Vocabulary} {text : Text} {xs : List Symbol}
    (h : v.split? text = some xs) :
    Symbol.spell xs = text ∧ xs ⊆ v ∧ ∀ s ∈ xs, s.text ≠ [] := by
  induction xs generalizing text with
  | nil =>
    cases text with
    | nil => simp
    | cons c text =>
      obtain ⟨s, tail, -, hnil, -⟩ := of_split?_cons h
      exact absurd hnil (List.cons_ne_nil s tail).symm
  | cons x xs ih =>
    cases text with
    | nil => simp at h
    | cons c text =>
      obtain ⟨s, tail, rest, hcons, hs, hne, htext, htail, -⟩ := of_split?_cons h
      obtain ⟨rfl, rfl⟩ := List.cons_eq_cons.1 hcons
      obtain ⟨hspell, hsub, hletters⟩ := ih htail
      refine ⟨by rw [htext, Symbol.spell_cons, hspell], List.cons_subset.2 ⟨hs, hsub⟩, ?_⟩
      exact List.forall_mem_cons.2 ⟨hne, hletters⟩

/-- What is spelled by symbols of the vocabulary that are not empty has a split. -/
theorem isSome_split?_spell {v : Vocabulary} {xs : List Symbol} (hsub : xs ⊆ v)
    (hletters : ∀ s ∈ xs, s.text ≠ []) : (v.split? (Symbol.spell xs)).isSome := by
  induction xs with
  | nil => rfl
  | cons s xs ih =>
    obtain ⟨hs, hsub⟩ := List.cons_subset.1 hsub
    obtain ⟨hne, hletters⟩ := List.forall_mem_cons.1 hletters
    obtain ⟨c, letters, htext⟩ := List.exists_cons_of_ne_nil hne
    have hspell : c :: (letters ++ Symbol.spell xs) = s.text ++ Symbol.spell xs := by
      rw [htext, List.cons_append]
    rw [Symbol.spell_cons, ← hspell]
    exact isSome_split?_cons hs hne hspell (ih hsub hletters)

/-- Over an unambiguous vocabulary a split gives back the sequence that was spelled. -/
theorem Unambiguous.split?_spell {v : Vocabulary} (hv : v.Unambiguous) {xs : List Symbol}
    (hsub : xs ⊆ v) : v.split? (Symbol.spell xs) = some xs := by
  have hletters : ∀ s ∈ xs, s.text ≠ [] := fun s hs =>
    text_ne_nil_of_mem hv.empty_not_mem (hsub hs)
  obtain ⟨ys, hys⟩ := Option.isSome_iff_exists.1 (isSome_split?_spell hsub hletters)
  obtain ⟨hspell, hysub, -⟩ := spell_of_split? hys
  rw [hys, hv ys xs hysub hsub hspell]

/-- A vocabulary over which every spelled sequence is given back is unambiguous, because two
sequences with one spelling have one split. -/
theorem unambiguous_of_split?_spell {v : Vocabulary}
    (h : ∀ xs : List Symbol, xs ⊆ v → v.split? (Symbol.spell xs) = some xs) :
    v.Unambiguous := by
  intro xs ys hxs hys hspell
  have heq : some xs = some ys := by
    rw [← h xs hxs, hspell, h ys hys]
  exact Option.some.inj heq

/-- The test holds of a vocabulary exactly if splitting undoes spelling for every sequence of its
symbols.  The search for overhangs and the search for a split know nothing of each other. -/
theorem isDecodable_iff_split?_spell (v : Vocabulary) :
    v.isDecodable = true ↔
      ∀ xs : List Symbol, (∀ s ∈ xs, s ∈ v) → v.split? (Symbol.spell xs) = some xs := by
  rw [isDecodable_iff_overhang, ← unambiguous_iff]
  constructor
  · intro hv xs hxs
    exact hv.split?_spell hxs
  · intro h
    exact unambiguous_of_split?_spell h

/-- With the empty symbol splitting gives something back, but not the sequence that was spelled. -/
example : isDecodable ["", "a"] = false ∧
    split? ["", "a"] (Symbol.spell ["a", ""]) = some [("a" : Symbol)] := by decide +kernel

end Vocabulary

end ContextFree
