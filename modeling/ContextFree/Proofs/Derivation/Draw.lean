import ContextFree.Derivation.Draw

/-!
# Draws and their words

A source of words deals them one at a time, and a draw looks at the next word only: either the word
counts and settles the draw, or the draw goes on without it.

* `Words.next` is the next word, and `Words.Deals` says which words were dealt in all.
* `Words.draw_of_counts` and `Words.draw_of_not_counts` are the two cases of a draw, and
  `Words.exists_deals_draw` is what a whole draw does to the source.
-/

namespace ContextFree

namespace Words

/-! ## Dealing words -/

/-- The next word that a source deals, and the source after it. -/
def next (words : Words) : UInt32 × Words :=
  match words.upcoming with
  | [] => (0, ⟨[], words.taken + 1⟩)
  | w :: rest => (w, ⟨rest, words.taken + 1⟩)

/-- A source deals the words of a list, one after the other, and then another source is left. -/
inductive Deals : Words → List UInt32 → Words → Prop
  | nil (words : Words) : Deals words [] words
  | cons {words rest last : Words} {w : UInt32} {dealt : List UInt32} :
      words.next = (w, rest) → Deals rest dealt last → Deals words (w :: dealt) last

theorem Deals.append {words between last : Words} {dealt further : List UInt32}
    (h : words.Deals dealt between) (hfurther : between.Deals further last) :
    words.Deals (dealt ++ further) last := by
  induction h with
  | nil => exact hfurther
  | cons hnext _ ih => exact .cons hnext (ih hfurther)

/-! ## The words of a draw -/

variable {words rest : Words} {w : UInt32} {n : Nat}

/-- A draw ends with the next word if the word counts. -/
theorem draw_of_counts (hnext : words.next = (w, rest)) (h : 0 < n) (hw : counts w n = true) :
    words.draw h = (⟨upperHalf w n, upperHalf_lt w h⟩, rest) := by
  obtain ⟨upcoming, taken⟩ := words
  cases upcoming with
  | nil =>
    obtain ⟨rfl, rfl⟩ := Prod.mk.inj hnext
    have hzero : upperHalf 0 n = 0 := by simp [upperHalf]
    simp [draw, drawFrom, hzero]
  | cons v upcoming =>
    obtain ⟨rfl, rfl⟩ := Prod.mk.inj hnext
    exact if_pos hw

/-- A draw goes on without the next word if the word does not count. -/
theorem draw_of_not_counts (hnext : words.next = (w, rest)) (h : 0 < n)
    (hw : counts w n = false) : words.draw h = rest.draw h := by
  obtain ⟨upcoming, taken⟩ := words
  cases upcoming with
  | nil =>
    obtain ⟨rfl, rfl⟩ := Prod.mk.inj hnext
    -- the word zero counts for every draw
    simp [counts] at hw
  | cons v upcoming =>
    obtain ⟨rfl, rfl⟩ := Prod.mk.inj hnext
    exact if_neg (by simp [hw])

/-- A draw takes words from its source, and nothing else. -/
theorem exists_deals_draw (words : Words) (h : 0 < n) :
    ∃ dealt, words.Deals dealt (words.draw h).2 := by
  obtain ⟨upcoming, taken⟩ := words
  induction upcoming generalizing taken with
  | nil => exact ⟨_, .cons rfl (.nil _)⟩
  | cons w upcoming ih =>
    have hnext : next ⟨w :: upcoming, taken⟩ = (w, ⟨upcoming, taken + 1⟩) := rfl
    cases hw : counts w n with
    | true =>
      rw [draw_of_counts hnext h hw]
      exact ⟨_, .cons hnext (.nil _)⟩
    | false =>
      obtain ⟨dealt, hdealt⟩ := ih (taken + 1)
      rw [draw_of_not_counts hnext h hw]
      exact ⟨_, .cons hnext hdealt⟩

end Words

end ContextFree
