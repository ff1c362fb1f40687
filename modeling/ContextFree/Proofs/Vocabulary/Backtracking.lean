import ContextFree.Proofs.Vocabulary.Longest

/-!
# Splitting by backtracking

`split?` computes the splits of all ends of a text at once.  The same can be done by a search: try
the symbols that begin the text, those with the most bytes first, and give a symbol up where the
rest of the text cannot be split.  The search visits an end of the text once for every way to come
there, so it can take very long, but it says most plainly what a split is.

* `candidates` are the symbols that are tried.  `mem_candidates` says which ones these are, and
  `pairwise_candidates` in which order they stand.
* `backtrack` is the search.  `findSome?_candidates` is one step of it, where the rests of the text
  are split by `split?`: the first candidate that does not fail begins the split.

`split?_eq_backtrack` says that both ways to split come to the same.
-/

namespace ContextFree

namespace Text

/-- A beginning that is not smaller than the text is the whole text. -/
theorem Grows.eq_of_prefix {size : Text → Nat} (hsize : Grows size) {beginning text : Text}
    (hbegins : beginning <+: text) (hle : size text ≤ size beginning) : beginning = text := by
  obtain ⟨rest, hrest⟩ := hbegins
  by_contra hne
  have hmore : rest ≠ [] := by
    intro hnil
    rw [hnil, List.append_nil] at hrest
    exact hne hrest
  have hlt := hsize beginning rest hmore
  rw [hrest] at hlt
  omega

end Text

/-- What a search through a sorted list finds does not stand behind anything else that it could
find. -/
theorem exists_findSome?_eq {α β : Type} {before : α → α → Prop} {as : List α} {a : α}
    {f : α → Option β} (hsorted : as.Pairwise before) (ha : a ∈ as) (hfa : (f a).isSome) :
    ∃ b ∈ as, (f b).isSome ∧ as.findSome? f = f b ∧ (a = b ∨ before b a) := by
  induction as with
  | nil => contradiction
  | cons b as ih =>
    obtain ⟨hb, hsorted⟩ := List.pairwise_cons.1 hsorted
    by_cases hfb : (f b).isSome
    · refine ⟨b, List.mem_cons_self, hfb, List.findSome?_cons_of_isSome hfb, ?_⟩
      exact (List.mem_cons.1 ha).imp_right (hb a)
    · have hne : a ≠ b := fun heq => hfb (heq ▸ hfa)
      obtain ⟨d, hd, hfd, heq, hbefore⟩ := ih hsorted (List.mem_of_ne_of_mem hne ha)
      refine ⟨d, List.mem_cons_of_mem b hd, hfd, ?_, hbefore⟩
      rw [List.findSome?_cons_of_isNone (by simpa using hfb), heq]

namespace Vocabulary

variable {v : Vocabulary} {text : Text} {s : Symbol} {xs : List Symbol}

/-! ## What is tried -/

/-- The symbols that are not empty and begin a text, those with the most bytes first. -/
def candidates (v : Vocabulary) (text : Text) : List Symbol :=
  (v.filter fun s => !s.text.isEmpty && s.text.isPrefixOf text).mergeSort fun s t =>
    t.text.utf8Length ≤ s.text.utf8Length

theorem mem_candidates : s ∈ v.candidates text ↔ s ∈ v ∧ s.text ≠ [] ∧ s.text <+: text := by
  unfold candidates
  rw [List.mem_mergeSort, List.mem_filter, Bool.and_eq_true, Bool.not_eq_true',
    List.isEmpty_eq_false_iff, List.isPrefixOf_iff_prefix]

/-- No symbol has more bytes than one that is tried before it. -/
theorem pairwise_candidates (v : Vocabulary) (text : Text) :
    (v.candidates text).Pairwise fun s t => t.text.utf8Length ≤ s.text.utf8Length := by
  have hsorted : (v.candidates text).Pairwise fun s t =>
      decide (t.text.utf8Length ≤ s.text.utf8Length) = true := by
    unfold candidates
    apply List.pairwise_mergeSort
    · intro a b c hab hbc
      rw [decide_eq_true_eq] at hab hbc ⊢
      omega
    · intro a b
      rw [Bool.or_eq_true, decide_eq_true_eq, decide_eq_true_eq]
      omega
  exact hsorted.imp of_decide_eq_true

/-! ## The search -/

/-- Splits a text into symbols of the vocabulary that are not empty, by trying one symbol after the
other. -/
def backtrack (v : Vocabulary) : Text → Option (List Symbol)
  | [] => some []
  | c :: text =>
    (v.candidates (c :: text)).attach.findSome? fun s =>
      (backtrack v ((c :: text).drop s.val.text.length)).map (s.val :: ·)
termination_by text => text.length
decreasing_by
  obtain ⟨-, hne, -⟩ := mem_candidates.1 s.property
  have hpos := List.length_pos_iff.2 hne
  rw [List.length_drop, List.length_cons]
  omega

theorem backtrack_nil (v : Vocabulary) : v.backtrack [] = some [] := by
  rw [backtrack]

theorem backtrack_cons (v : Vocabulary) (c : Char) (text : Text) :
    v.backtrack (c :: text) = (v.candidates (c :: text)).findSome? fun s =>
      (v.backtrack ((c :: text).drop s.text.length)).map (s :: ·) := by
  rw [backtrack]
  conv => rhs; rw [← List.attach_map_subtype_val (v.candidates (c :: text)), List.findSome?_map]
  rfl

/-- A candidate that leaves a text with a split can begin a split. -/
theorem isSplit_of_candidate {tail : List Symbol} (hs : s ∈ v.candidates text)
    (htail : v.split? (text.drop s.text.length) = some tail) : v.IsSplit text (s :: tail) := by
  obtain ⟨hmem, hne, rest, hrest⟩ := mem_candidates.1 hs
  rw [← hrest, List.drop_left] at htail
  have hsplit := isSplit_of_split? htail
  refine ⟨List.cons_subset.2 ⟨hmem, hsplit.subset⟩, List.forall_mem_cons.2 ⟨hne, hsplit.letters⟩, ?_⟩
  rw [Symbol.spell_cons, hsplit.spell, hrest]

/-- Of the candidates that leave a text with a split, only the symbol that `split?` takes has as many
bytes as that symbol. -/
theorem eq_of_candidate {c : Char} {tail : List Symbol} {t : Symbol}
    (hsplit : v.split? (c :: text) = some (s :: tail)) (ht : t ∈ v.candidates (c :: text))
    (hothers : (v.split? ((c :: text).drop t.text.length)).isSome)
    (hle : s.text.utf8Length ≤ t.text.utf8Length) : t = s := by
  obtain ⟨s', tail', rest, hcons, -, -, hs, -, hlongest⟩ := of_split?_cons hsplit
  obtain ⟨rfl, rfl⟩ := List.cons_eq_cons.1 hcons
  obtain ⟨hmem, hne, others, hrest⟩ := mem_candidates.1 ht
  rw [← hrest, List.drop_left] at hothers
  have hshorter : t.text.length ≤ s.text.length :=
    hlongest t hmem (canBegin_iff.2 ⟨hne, others, hrest.symm, hothers⟩)
  have hbegins : t.text <+: s.text :=
    List.prefix_of_prefix_length_le ⟨others, hrest⟩ ⟨rest, hs.symm⟩ hshorter
  exact Symbol.eq_of_text_eq (Text.grows_utf8Length.eq_of_prefix hbegins hle)

/-- One step of the search.  The first candidate that leaves a text with a split is the symbol that
`split?` takes. -/
theorem findSome?_candidates {c : Char} {attempt : Symbol → Option (List Symbol)}
    (hattempt : ∀ s ∈ v.candidates (c :: text),
      attempt s = (v.split? ((c :: text).drop s.text.length)).map (s :: ·)) :
    (v.candidates (c :: text)).findSome? attempt = v.split? (c :: text) := by
  cases hsplit : v.split? (c :: text) with
  | none =>
    rw [List.findSome?_eq_none_iff]
    intro s hs
    rw [hattempt s hs, Option.map_eq_none_iff]
    cases htail : v.split? ((c :: text).drop s.text.length) with
    | none => rfl
    | some tail =>
      have hsome := (isSplit_of_candidate hs htail).isSome_split?
      rw [hsplit] at hsome
      contradiction
  | some xs =>
    obtain ⟨s, tail, rest, rfl, hs, hne, htext, htail, -⟩ := of_split?_cons hsplit
    have hcandidate : s ∈ v.candidates (c :: text) := mem_candidates.2 ⟨hs, hne, rest, htext.symm⟩
    have hright : attempt s = some (s :: tail) := by
      rw [hattempt s hcandidate, htext, List.drop_left, htail]
      rfl
    obtain ⟨t, ht, hfound, hfirst, hbefore⟩ := exists_findSome?_eq
      (v.pairwise_candidates (c :: text)) hcandidate (Option.isSome_of_eq_some hright)
    have hle : s.text.utf8Length ≤ t.text.utf8Length := by
      rcases hbefore with heq | hle
      · exact heq ▸ Nat.le_refl _
      · exact hle
    rw [hattempt t ht, Option.isSome_map] at hfound
    rw [hfirst, eq_of_candidate hsplit ht hfound hle, hright]

/-- The search comes to the same split. -/
theorem split?_eq_backtrack (v : Vocabulary) (text : Text) : v.split? text = v.backtrack text := by
  induction hlength : text.length using Nat.strongRecOn generalizing text with
  | ind n ih =>
    cases text with
    | nil => rw [backtrack_nil, split?_nil]
    | cons c text =>
      rw [backtrack_cons]
      apply Eq.symm
      apply findSome?_candidates
      intro s hs
      -- What a candidate leaves is shorter than the text, since it is not empty.
      obtain ⟨-, hne, -⟩ := mem_candidates.1 hs
      have hpos := List.length_pos_iff.2 hne
      have hshorter : ((c :: text).drop s.text.length).length < n := by
        rw [List.length_drop, hlength]
        rw [List.length_cons] at hlength
        omega
      rw [ih _ hshorter _ rfl]

end Vocabulary

end ContextFree
