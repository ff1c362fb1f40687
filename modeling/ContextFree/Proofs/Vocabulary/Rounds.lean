import ContextFree.Proofs.Vocabulary.Decodable
import Mathlib.Data.Finset.Card

/-!
# How many rounds the search takes

The overhangs of the search are made anew in each round, and they can go round in a circle, so
their number says nothing about the end of the search.  What grows is the set of overhangs that have
been followed, and it cannot grow beyond the ends of symbols.

* `ends` is the finite set of these ends, each of them once and without the empty one.
* `Chase.after` is the sequence of states that the search goes through.
* `Chase.HasFollowed` says what is known after a number of rounds.  It holds at the start, a round
  keeps it (`Chase.HasFollowed.round`), so it holds of every state of the sequence
  (`Chase.HasFollowed.after`), and it bounds the number of rounds by the number of ends
  (`Chase.HasFollowed.le_card_ends`).
* `Chase.exists_after_settle` finds the round that gives the verdict of `Chase.settle`.
* `search_within_ends` puts this together for the search that `isDecodable` makes.
-/

namespace ContextFree

namespace Vocabulary

variable {v : Vocabulary}

/-- The ends of the symbols of a vocabulary that are not empty.  An end that several symbols have
is counted once. -/
def ends (v : Vocabulary) : Finset Text := (v.flatMap fun s => s.text.ends).toFinset

theorem mem_ends {d : Text} : d ∈ v.ends ↔ d ≠ [] ∧ v.IsEnd d := by
  simp only [ends, List.mem_toFinset, List.mem_flatMap, Text.mem_ends, IsEnd]
  constructor
  · rintro ⟨s, hs, hne, hsuffix⟩
    exact ⟨hne, s, hs, hsuffix⟩
  · rintro ⟨hne, s, hs, hsuffix⟩
    exact ⟨s, hs, hne, hsuffix⟩

namespace Chase

variable {chase next last : Chase} {n m : Nat}

/-! ## The sequence of states -/

/-- The state after a number of rounds, if none of them settles the search. -/
def after (v : Vocabulary) : Nat → Chase → Option Chase
  | 0, chase => some chase
  | n + 1, chase => (chase.round v).getRight?.bind (after v n)

theorem after_succ_eq_some :
    chase.after v (n + 1) = some last ↔
      ∃ next, chase.round v = .inr next ∧ next.after v n = some last := by
  rw [after, Option.bind_eq_some_iff]
  simp only [Sum.getRight?_eq_some_iff]

/-- The verdict is given by some round, after the rounds before it have settled nothing. -/
theorem exists_after_settle (hends : chase.OfEnds v) :
    ∃ n last, chase.after v n = some last ∧ last.round v = .inl (chase.settle v hends) := by
  fun_induction settle v chase hends with
  | case1 chase hends verdict hround => exact ⟨0, chase, rfl, hround⟩
  | case2 chase hends next hround ih =>
    obtain ⟨n, last, hlast, hverdict⟩ := ih
    exact ⟨n + 1, last, after_succ_eq_some.2 ⟨next, hround, hlast⟩, hverdict⟩

/-! ## What has been followed -/

/-- A round that does not settle the search loses nothing of what has been followed, and adds an
end of a symbol that is not empty. -/
theorem exists_followed_round (hends : chase.OfEnds v) (h : chase.round v = .inr next) :
    (∀ d ∈ chase.followed, d ∈ next.followed) ∧
      ∃ d ∈ next.followed, d ∉ chase.followed ∧ d ≠ [] ∧ v.IsEnd d := by
  refine ⟨fun d hd => (mem_followed_round h).2 (.inl hd), ?_⟩
  obtain ⟨d, hd, hne, hend⟩ := hends.exists_fresh h
  obtain ⟨hover, hnew⟩ := mem_fresh.1 hd
  exact ⟨d, (mem_followed_round h).2 (.inr hover), hnew, hne, hend⟩

/-- What a state has followed, as a set whose members can be counted. -/
def trail (chase : Chase) : Finset Text := chase.followed.toList.toFinset

@[simp] theorem mem_trail {d : Text} : d ∈ chase.trail ↔ d ∈ chase.followed := by
  simp [trail]

/-- What is known of a state after `n` rounds.  Its overhangs are ends of symbols, and at least `n`
different overhangs have been followed, all of them ends of symbols and none of them empty. -/
structure HasFollowed (v : Vocabulary) (n : Nat) (chase : Chase) : Prop where
  ofEnds : chase.OfEnds v
  subset : chase.trail ⊆ v.ends
  le_card : n ≤ chase.trail.card

theorem hasFollowed_start (v : Vocabulary) : (start v).HasFollowed v 0 where
  ofEnds := ofEnds_start v
  subset d hd := absurd (mem_trail.1 hd) (by simp [start])
  le_card := Nat.zero_le _

theorem HasFollowed.round (hn : chase.HasFollowed v n) (h : chase.round v = .inr next) :
    next.HasFollowed v (n + 1) where
  ofEnds := hn.ofEnds.round h
  subset d hd := by
    rcases (mem_followed_round h).1 (mem_trail.1 hd) with hold | hover
    · exact hn.subset (mem_trail.2 hold)
    · obtain ⟨hempty, -, -⟩ := round_eq_inr.1 h
      exact mem_ends.2 ⟨fun hnil => hempty (hnil ▸ hover), hn.ofEnds d hover⟩
  le_card := by
    obtain ⟨hkeeps, d, hd, hnew, -, -⟩ := exists_followed_round hn.ofEnds h
    have hsubset : chase.trail ⊆ next.trail := by
      intro e he
      exact mem_trail.2 (hkeeps e (mem_trail.1 he))
    have hgrows : chase.trail ⊂ next.trail :=
      (Finset.ssubset_iff_of_subset hsubset).2
        ⟨d, mem_trail.2 hd, fun hold => hnew (mem_trail.1 hold)⟩
    exact Nat.lt_of_le_of_lt hn.le_card (Finset.card_lt_card hgrows)

theorem HasFollowed.after (hn : chase.HasFollowed v n) (h : chase.after v m = some last) :
    last.HasFollowed v (n + m) := by
  -- The first round is taken off, so both the state and its count have to be general.
  induction m generalizing chase n with
  | zero =>
    obtain rfl := Option.some.inj h
    exact hn
  | succ m ih =>
    obtain ⟨next, hround, hrest⟩ := after_succ_eq_some.1 h
    rw [← Nat.succ_add_eq_add_succ]
    exact ih (hn.round hround) hrest

/-- There are no more rounds that settle nothing than there are ends. -/
theorem HasFollowed.le_card_ends (hn : chase.HasFollowed v n) : n ≤ v.ends.card :=
  Nat.le_trans hn.le_card (Finset.card_le_card hn.subset)

theorem hasFollowed_of_after_start (h : (start v).after v n = some chase) :
    chase.HasFollowed v n := by
  have hn := (hasFollowed_start v).after h
  rwa [Nat.zero_add] at hn

end Chase

/-! ## The search of the test -/

/-- The search always comes to an end.  In every state that it goes through, each overhang is an end
of a symbol, and a round that does not settle the search keeps what has been followed and adds an
end that is new and not empty.  So there are at most as many such rounds as there are ends, each of
them counted once and the empty one left out, and the next round gives the verdict of the test. -/
theorem search_within_ends (v : Vocabulary) :
    (∀ n chase, (Chase.start v).after v n = some chase →
      n ≤ v.ends.card ∧ (∀ d ∈ chase.overhangs, v.IsEnd d) ∧
        ∀ next, chase.round v = .inr next →
          (∀ d ∈ chase.followed, d ∈ next.followed) ∧
            ∃ d ∈ next.followed, d ∉ chase.followed ∧ d ≠ [] ∧ v.IsEnd d) ∧
    ∃ n last verdict, (Chase.start v).after v n = some last ∧ last.round v = .inl verdict ∧
      v.isDecodable = (⟨[]⟩ ∉ v && verdict) := by
  constructor
  · intro n chase hchase
    have hn := Chase.hasFollowed_of_after_start hchase
    refine ⟨hn.le_card_ends, hn.ofEnds, fun next hround => ?_⟩
    exact Chase.exists_followed_round hn.ofEnds hround
  · obtain ⟨n, last, hlast, hverdict⟩ := Chase.exists_after_settle (Chase.ofEnds_start v)
    exact ⟨n, last, _, hlast, hverdict, rfl⟩

/-- The overhangs of this vocabulary go round in a circle: `b` leads to `c`, and `c` leads to `b`. -/
def circling : Vocabulary := ["a", "ab", "bc", "cb"]

/-- The second round follows `c` and comes back to `b`.  This has been followed already, so the
search ends there, well within the six ends of the vocabulary. -/
theorem circling_search_within_ends :
    ∃ chase next : Chase,
      (Chase.start circling).after circling 1 = some chase ∧ chase.round circling = .inr next ∧
      (∀ d ∈ chase.overhangs, circling.IsEnd d) ∧
      (∃ d ∈ next.followed, d ∉ chase.followed ∧ d ≠ [] ∧ circling.IsEnd d) ∧
      ∃ n ≤ 6, ∃ last, (Chase.start circling).after circling n = some last ∧
        last.round circling = .inl circling.isDecodable := by
  have hafter : (Chase.start circling).after circling 1 =
      some ⟨.ofList [['c']] Text.order, .ofList [['b']] Text.order⟩ := rfl
  have hround : Chase.round circling ⟨.ofList [['c']] Text.order, .ofList [['b']] Text.order⟩ =
      .inr ⟨.ofList [['b']] Text.order, .ofList [['b'], ['c']] Text.order⟩ := rfl
  have hcard : circling.ends.card = 6 := by decide +kernel
  have hempty : ⟨[]⟩ ∉ circling := by decide
  obtain ⟨hstates, n, last, verdict, hlast, hverdict, hdecodable⟩ := search_within_ends circling
  obtain ⟨-, hends, hgrows⟩ := hstates 1 _ hafter
  have hn : n ≤ 6 := hcard ▸ (hstates n last hlast).1
  rw [decide_eq_true hempty, Bool.true_and] at hdecodable
  exact ⟨_, _, hafter, hround, hends, (hgrows _ hround).2, n, hn, last, hlast,
    hdecodable ▸ hverdict⟩

end Vocabulary

end ContextFree
