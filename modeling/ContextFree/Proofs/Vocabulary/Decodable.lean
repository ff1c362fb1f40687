import ContextFree.Vocabulary.Decodable
import Mathlib.Tactic.ByContra

/-!
# What the search for overhangs decides

`isDecodable` is a search over overhangs, and nothing in it mentions sequences of symbols.  This
module proves that the search decides a property of sequences: no text is spelled by two of them
(`Unambiguous`).

There are three groups.

* Overhangs.  `Overhang` is the least set of texts that the rules of the search generate.
  `mem_firstOverhangs` and `mem_follow` say that `firstOverhangs` and `follow` compute these rules.
* Sequences.  `Overhang.exists_spell` rebuilds two different sequences from an overhang, and
  `overhang_nil_of_spell_eq` follows two sequences with one spelling down to the empty overhang.
* The search.  `Chase.Tracks` is the invariant of a round.  It holds at the start, a round keeps it
  (`Chase.Tracks.round`), and where the search ends it makes the verdict right
  (`Chase.Tracks.settle_eq_false_iff`).
-/

namespace ContextFree

namespace Vocabulary

/-- No text is spelled by two different sequences of symbols of the vocabulary. -/
def Unambiguous (v : Vocabulary) : Prop :=
  ∀ xs ys : List Symbol, xs ⊆ v → ys ⊆ v → Symbol.spell xs = Symbol.spell ys → xs = ys

/-- A part of an unambiguous vocabulary is unambiguous. -/
theorem Unambiguous.of_subset {v w : Vocabulary} (hv : v.Unambiguous) (hsub : w ⊆ v) :
    w.Unambiguous := by
  intro xs ys hxs hys hspell
  exact hv xs ys (List.Subset.trans hxs hsub) (List.Subset.trans hys hsub) hspell

/-- The empty symbol spells the same as no symbol. -/
theorem Unambiguous.empty_not_mem {v : Vocabulary} (hv : v.Unambiguous) : ⟨[]⟩ ∉ v := by
  intro hmem
  have heq := hv [⟨[]⟩] [] (by simpa using hmem) (List.nil_subset v) rfl
  exact absurd heq (List.cons_ne_nil _ _)

/-- Only the empty symbol has no letters. -/
theorem text_ne_nil_of_mem {v : Vocabulary} (hempty : ⟨[]⟩ ∉ v) {s : Symbol} (hs : s ∈ v) :
    s.text ≠ [] := by
  intro htext
  have heq : s = ⟨[]⟩ := Symbol.eq_of_text_eq htext
  exact hempty (heq ▸ hs)

/-! ## Overhangs -/

/-- The overhangs that symbols of a vocabulary can leave: of one symbol beyond another one that
begins it, of a symbol beyond an overhang, and of an overhang beyond a symbol. -/
inductive Overhang (v : Vocabulary) : Text → Prop where
  | first {a b : Symbol} {d : Text} (ha : a ∈ v) (hb : b ∈ v) (htext : b.text = a.text ++ d)
      (hne : d ≠ []) : Overhang v d
  | next {d e : Text} {s : Symbol} (hd : Overhang v d) (hs : s ∈ v)
      (htext : s.text = d ++ e ∨ d = s.text ++ e) : Overhang v e

theorem overhang?_eq_some_iff {d e : Text} {s : Symbol} :
    overhang? d s = some e ↔ s.text = d ++ e ∨ d = s.text ++ e := by
  unfold overhang?
  rw [Option.or_eq_some_iff, Text.after?_eq_some, Text.after?_eq_some]
  constructor
  · intro h
    rcases h with h | ⟨_, h⟩
    · exact Or.inl h
    · exact Or.inr h
  · intro h
    rcases h with h | h
    · exact Or.inl h
    · cases hafter : s.text.after? d with
      | none => exact Or.inr ⟨rfl, h⟩
      | some rest =>
        -- Each of the two begins the other, so nothing is left over.
        have hrest : s.text = d ++ rest := Text.after?_eq_some.1 hafter
        have hlength := congrArg List.length hrest
        rw [h, List.length_append, List.length_append] at hlength
        have he : e = [] := List.eq_nil_of_length_eq_zero (by omega)
        rw [he, List.append_nil] at h
        exact Or.inl (by simp [h, he])

theorem mem_firstOverhangs {v : Vocabulary} {d : Text} :
    d ∈ v.firstOverhangs ↔ ∃ a ∈ v, ∃ b ∈ v, b.text = a.text ++ d ∧ d ≠ [] := by
  simp only [firstOverhangs, List.mem_flatMap, List.mem_filterMap, Option.filter_eq_some_iff,
    Text.after?_eq_some]
  simp

theorem mem_follow {v : Vocabulary} {overhangs : List Text} {e : Text} :
    e ∈ v.follow overhangs ↔
      ∃ d ∈ overhangs, ∃ s ∈ v, s.text = d ++ e ∨ d = s.text ++ e := by
  simp only [follow, List.mem_flatMap, List.mem_filterMap, overhang?_eq_some_iff]

/-! ## Overhangs and sequences -/

/-- An overhang is what one sequence of symbols has beyond another one that begins with a
different symbol. -/
theorem Overhang.exists_spell {v : Vocabulary} {d : Text} (h : v.Overhang d) :
    ∃ a b xs ys, a ≠ b ∧ a :: xs ⊆ v ∧ b :: ys ⊆ v ∧
      Symbol.spell (b :: ys) = Symbol.spell (a :: xs) ++ d := by
  induction h with
  | @first a b d ha hb htext hne =>
    refine ⟨a, b, [], [], ?_, by simpa using ha, by simpa using hb, by simp [htext]⟩
    intro hab
    subst hab
    exact hne (List.self_eq_append_right.1 htext)
  | @next d e s _ hs htext ih =>
    obtain ⟨a, b, xs, ys, hab, hxs, hys, hspell⟩ := ih
    have hxs' : a :: (xs ++ [s]) ⊆ v := by
      rw [← List.cons_append]
      exact List.append_subset.2 ⟨hxs, by simpa using hs⟩
    rcases htext with htext | htext
    · -- The symbol goes beyond the overhang, so the two sequences change places.
      refine ⟨b, a, ys, xs ++ [s], hab.symm, hys, hxs', ?_⟩
      rw [← List.cons_append, Symbol.spell_append, hspell]
      simp [htext]
    · refine ⟨a, b, xs ++ [s], ys, hab, hxs', hys, ?_⟩
      rw [← List.cons_append, Symbol.spell_append, hspell]
      simp [htext]

/-- Where an overhang and one sequence spell the same as another sequence, the empty overhang can
be reached.  Each step takes one symbol off, and the two sequences may change places. -/
theorem Overhang.nil_of_spell_eq {v : Vocabulary} {d : Text} {xs ys : List Symbol}
    (h : v.Overhang d) (hxs : xs ⊆ v) (hys : ys ⊆ v)
    (hspell : Symbol.spell xs = d ++ Symbol.spell ys) : v.Overhang [] := by
  cases xs with
  | nil =>
    have hd : d = [] := (List.append_eq_nil_iff.1 hspell.symm).1
    exact hd ▸ h
  | cons s xs =>
    obtain ⟨hs, hxs⟩ := List.cons_subset.1 hxs
    rw [Symbol.spell_cons] at hspell
    rcases List.append_eq_append_iff.1 hspell with ⟨e, hd, hrest⟩ | ⟨e, htext, hrest⟩
    · exact (h.next hs (Or.inr hd)).nil_of_spell_eq hxs hys hrest
    · exact (h.next hs (Or.inl htext)).nil_of_spell_eq hys hxs hrest
termination_by xs.length + ys.length

/-- Two sequences with one spelling that begin with different symbols lead to the empty
overhang. -/
theorem overhang_nil_of_head_ne {v : Vocabulary} {a b : Symbol} {xs ys : List Symbol} {d : Text}
    (hab : a ≠ b) (hxs : a :: xs ⊆ v) (hys : b :: ys ⊆ v) (htext : b.text = a.text ++ d)
    (hspell : Symbol.spell xs = d ++ Symbol.spell ys) : v.Overhang [] := by
  obtain ⟨ha, hxs⟩ := List.cons_subset.1 hxs
  obtain ⟨hb, hys⟩ := List.cons_subset.1 hys
  have hne : d ≠ [] := by
    intro hd
    rw [hd, List.append_nil] at htext
    exact hab (Symbol.eq_of_text_eq htext.symm)
  exact (Overhang.first ha hb htext hne).nil_of_spell_eq hxs hys hspell

/-- Two different sequences with one spelling lead to the empty overhang. -/
theorem overhang_nil_of_spell_eq {v : Vocabulary} (hempty : ⟨[]⟩ ∉ v) {xs ys : List Symbol}
    (hxs : xs ⊆ v) (hys : ys ⊆ v) (hspell : Symbol.spell xs = Symbol.spell ys)
    (hne : xs ≠ ys) : v.Overhang [] := by
  induction xs generalizing ys with
  | nil =>
    cases ys with
    | nil => exact absurd rfl hne
    | cons b ys =>
      have hb := text_ne_nil_of_mem hempty (hys List.mem_cons_self)
      exact absurd (List.append_eq_nil_iff.1 hspell.symm).1 hb
  | cons a xs ih =>
    cases ys with
    | nil =>
      have ha := text_ne_nil_of_mem hempty (hxs List.mem_cons_self)
      exact absurd (List.append_eq_nil_iff.1 hspell).1 ha
    | cons b ys =>
      by_cases hab : a = b
      · subst hab
        have htail := List.append_cancel_left hspell
        refine ih (List.cons_subset.1 hxs).2 (List.cons_subset.1 hys).2 htail ?_
        intro heq
        rw [heq] at hne
        exact hne rfl
      · rcases List.append_eq_append_iff.1 hspell with ⟨d, htext, hrest⟩ | ⟨d, htext, hrest⟩
        · exact overhang_nil_of_head_ne hab hxs hys htext hrest
        · exact overhang_nil_of_head_ne (Ne.symm hab) hys hxs htext hrest

/-- A vocabulary is unambiguous exactly if it lacks the empty symbol and no chain of overhangs
comes down to nothing. -/
theorem unambiguous_iff {v : Vocabulary} : v.Unambiguous ↔ ⟨[]⟩ ∉ v ∧ ¬ v.Overhang [] := by
  constructor
  · intro hv
    refine ⟨hv.empty_not_mem, fun h => ?_⟩
    obtain ⟨a, b, xs, ys, hab, hxs, hys, hspell⟩ := h.exists_spell
    rw [List.append_nil] at hspell
    exact hab (List.cons_eq_cons.1 (hv _ _ hxs hys hspell.symm)).1
  · intro h xs ys hxs hys hspell
    obtain ⟨hempty, hnil⟩ := h
    by_contra hne
    exact hnil (overhang_nil_of_spell_eq hempty hxs hys hspell hne)

/-! ## The search -/

namespace Chase

/-- What a state of the search knows.  Its overhangs are overhangs of the vocabulary, every first
overhang and every follower of what has been followed is known, and no overhang that has been
followed is empty. -/
structure Tracks (v : Vocabulary) (chase : Chase) : Prop where
  sound : ∀ d ∈ chase.overhangs, v.Overhang d
  first : ∀ d ∈ v.firstOverhangs, d ∈ chase.followed ∨ d ∈ chase.overhangs
  closed : ∀ d ∈ chase.followed, ∀ e ∈ v.follow [d], e ∈ chase.followed ∨ e ∈ chase.overhangs
  nonempty : [] ∉ chase.followed

theorem tracks_start (v : Vocabulary) : (start v).Tracks v where
  sound d hd := by
    obtain ⟨a, ha, b, hb, htext, hne⟩ : ∃ a ∈ v, ∃ b ∈ v, b.text = a.text ++ d ∧ d ≠ [] := by
      rw [← mem_firstOverhangs]
      simpa [start, Std.TreeSet.mem_ofList] using hd
    exact .first ha hb htext hne
  first d hd := Or.inr (by simpa [start, Std.TreeSet.mem_ofList] using hd)
  closed d hd := absurd hd (by simp [start])
  nonempty := by simp [start]

/-- After a round everything that was known has been followed. -/
theorem mem_followed_round {v : Vocabulary} {chase next : Chase} {d : Text}
    (h : chase.round v = .inr next) :
    d ∈ next.followed ↔ d ∈ chase.followed ∨ d ∈ chase.overhangs := by
  obtain ⟨_, _, rfl⟩ := round_eq_inr.1 h
  simp only [Std.TreeSet.mem_insertMany_list, List.contains_iff_mem, mem_fresh]
  by_cases hd : d ∈ chase.followed <;> simp [hd]

theorem mem_overhangs_round {v : Vocabulary} {chase next : Chase} {d : Text}
    (h : chase.round v = .inr next) : d ∈ next.overhangs ↔ d ∈ v.follow chase.fresh := by
  obtain ⟨_, _, rfl⟩ := round_eq_inr.1 h
  simp [Std.TreeSet.mem_ofList]

theorem Tracks.round {v : Vocabulary} {chase next : Chase} (ht : chase.Tracks v)
    (h : chase.round v = .inr next) : next.Tracks v where
  sound e he := by
    rw [mem_overhangs_round h, mem_follow] at he
    obtain ⟨d, hd, s, hs, htext⟩ := he
    exact (ht.sound d (mem_fresh.1 hd).1).next hs htext
  first d hd := Or.inl ((mem_followed_round h).2 (ht.first d hd))
  closed d hd e he := by
    by_cases hold : d ∈ chase.followed
    · exact Or.inl ((mem_followed_round h).2 (ht.closed d hold e he))
    · have hover := ((mem_followed_round h).1 hd).resolve_left hold
      obtain ⟨d', hd', s, hs, htext⟩ := mem_follow.1 he
      obtain rfl := List.mem_singleton.1 hd'
      refine Or.inr ((mem_overhangs_round h).2 (mem_follow.2 ⟨d', ?_, s, hs, htext⟩))
      exact mem_fresh.2 ⟨hover, hold⟩
  nonempty hnil := by
    obtain ⟨hempty, _, _⟩ := round_eq_inr.1 h
    exact ((mem_followed_round h).1 hnil).elim ht.nonempty hempty

/-- Where nothing new is left, every overhang has been followed. -/
theorem Tracks.mem_followed {v : Vocabulary} {chase : Chase} (ht : chase.Tracks v)
    (hdone : chase.fresh = []) {d : Text} (hd : v.Overhang d) : d ∈ chase.followed := by
  have hover : ∀ e ∈ chase.overhangs, e ∈ chase.followed := by
    intro e he
    by_contra hnew
    exact absurd (mem_fresh.2 ⟨he, hnew⟩) (by simp [hdone])
  induction hd with
  | first ha hb htext hne =>
    exact (ht.first _ (mem_firstOverhangs.2 ⟨_, ha, _, hb, htext, hne⟩)).elim id (hover _)
  | next _ hs htext ih =>
    refine (ht.closed _ ih _ (mem_follow.2 ⟨_, ?_, _, hs, htext⟩)).elim id (hover _)
    exact List.mem_singleton_self _

theorem round_eq_inl {v : Vocabulary} {chase : Chase} {verdict : Bool}
    (h : chase.round v = .inl verdict) :
    verdict = false ∧ [] ∈ chase.overhangs ∨
      verdict = true ∧ [] ∉ chase.overhangs ∧ chase.fresh = [] := by
  unfold Chase.round at h
  split at h
  · next hnil => exact Or.inl ⟨(Sum.inl.inj h).symm, hnil⟩
  · next hnil =>
    split at h
    · next hfresh => exact Or.inr ⟨(Sum.inl.inj h).symm, hnil, hfresh⟩
    · simp at h

/-- The search finds the empty overhang if there is one, and only then. -/
theorem Tracks.settle_eq_false_iff {v : Vocabulary} {chase : Chase} (hends : chase.OfEnds v)
    (ht : chase.Tracks v) : chase.settle v hends = false ↔ v.Overhang [] := by
  fun_induction settle v chase hends with
  | case1 chase hends verdict hround =>
    rcases round_eq_inl hround with ⟨rfl, hnil⟩ | ⟨rfl, _, hdone⟩
    · exact iff_of_true rfl (ht.sound _ hnil)
    · exact iff_of_false (by simp) fun h => ht.nonempty (ht.mem_followed hdone h)
  | case2 chase hends next hround ih => exact ih (ht.round hround)

end Chase

/-! ## The test -/

/-- The test looks for the empty symbol and then for the empty overhang. -/
theorem isDecodable_iff_overhang {v : Vocabulary} :
    v.isDecodable = true ↔ ⟨[]⟩ ∉ v ∧ ¬ v.Overhang [] := by
  have hsettle := (Chase.tracks_start v).settle_eq_false_iff (Chase.ofEnds_start v)
  rw [← hsettle]
  simp [isDecodable]

/-- The test decides unique decodability: it holds of a vocabulary exactly if two sequences of
its symbols are equal whenever their spellings are. -/
theorem isDecodable_iff (v : Vocabulary) :
    v.isDecodable = true ↔
      ∀ xs ys : List Symbol, (∀ s ∈ xs, s ∈ v) → (∀ s ∈ ys, s ∈ v) →
        Symbol.spell xs = Symbol.spell ys → xs = ys :=
  isDecodable_iff_overhang.trans unambiguous_iff.symm

end Vocabulary

end ContextFree
