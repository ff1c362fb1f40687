import ContextFree.Proofs.Automaton.Simulation
import ContextFree.Proofs.Derivation.Draw
import ContextFree.Proofs.Derivation.Random

/-!
# The limit of steps only cuts off

The loop behind `Grammar.derive` is given a limit, but its steps do not depend on it: from one
source of words there is one sequence of steps, and a limit says how far it is followed.

* `Progress.after` is this sequence.  Each step of it adds one production
  (`Progress.length_rules_of_after`) and takes words from the source
  (`Progress.exists_deals_after`), and it ends where there is nothing to replace
  (`Progress.after_of_lt`).
* `Progress.finish_cases` says where the loop stops: at the end of the sequence, if that is within
  the limit, and at the limit otherwise.
* `Grammar.derive_of_step` says that a random derivation goes on with the next step of the sequence,
  wherever it has come.
* `Grammar.derive_cutoff` compares the outcomes under all limits.
-/

namespace ContextFree

/-- Choosing takes words from its source, and nothing else. -/
theorem Words.exists_deals_choose {α : Type} (words : Words) (items : List α) (h : items ≠ []) :
    ∃ dealt, words.Deals dealt (words.choose items h).2 := by
  rw [choose]
  exact words.exists_deals_draw _

namespace Progress

variable {d : Declaration} {p last : Progress} {n m : Nat}

/-! ## The sequence of steps -/

/-- Where a number of steps leads, if there are so many. -/
def after (d : Declaration) : Nat → Progress → Option Progress
  | 0, p => some p
  | n + 1, p => (p.step? d).bind (after d n)

theorem after_add (d : Declaration) (n m : Nat) (p : Progress) :
    p.after d (n + m) = (p.after d n).bind (after d m) := by
  induction n generalizing p with
  | zero => simp [after]
  | succ n ih =>
    rw [Nat.succ_add, after, after, Option.bind_assoc]
    exact congrArg _ (funext ih)

/-- There are no steps after the one that leaves nothing to replace. -/
theorem after_of_lt (h : p.after d n = some last) (hend : last.step? d = none) (hlt : n < m) :
    p.after d m = none := by
  obtain ⟨k, rfl⟩ := Nat.exists_eq_add_of_lt hlt
  rw [Nat.add_assoc, after_add, h, Option.bind_some, after, hend, Option.bind_none]

theorem length_rules_of_after (h : p.after d n = some last) :
    last.rules.length = p.rules.length + n := by
  induction n generalizing p with
  | zero =>
    obtain rfl := Option.some.inj h
    rfl
  | succ n ih =>
    obtain ⟨next, hstep, hrest⟩ := Option.bind_eq_some_iff.1 h
    obtain ⟨r, rule, rest, -, -, -, -, rfl⟩ := step?_eq_some hstep
    rw [ih hrest, List.length_cons]
    omega

theorem exists_deals_after (h : p.after d n = some last) :
    ∃ dealt, p.words.Deals dealt last.words := by
  induction n generalizing p with
  | zero =>
    obtain rfl := Option.some.inj h
    exact ⟨[], .nil _⟩
  | succ n ih =>
    obtain ⟨next, hstep, hrest⟩ := Option.bind_eq_some_iff.1 h
    obtain ⟨r, rule, rest, hrules, -, -, hchoose, rfl⟩ := step?_eq_some hstep
    obtain ⟨dealt, hdealt⟩ := p.words.exists_deals_choose (d.rulesFor r.head) hrules
    obtain ⟨further, hfurther⟩ := ih hrest
    rw [hchoose] at hdealt
    exact ⟨dealt ++ further, hdealt.append hfurther⟩

/-- The words that were dealt up to a step are the first ones that were dealt up to a later step. -/
theorem exists_deals_of_le {stop : Progress} (hstop : p.after d n = some stop)
    (hlast : p.after d m = some last) (hle : n ≤ m) :
    ∃ dealt further, p.words.Deals dealt stop.words ∧
      p.words.Deals (dealt ++ further) last.words := by
  obtain ⟨k, rfl⟩ := Nat.exists_eq_add_of_le hle
  rw [after_add, hstop, Option.bind_some] at hlast
  obtain ⟨dealt, hdealt⟩ := exists_deals_after hstop
  obtain ⟨further, hfurther⟩ := exists_deals_after hlast
  exact ⟨dealt, further, hdealt, hdealt.append hfurther⟩

/-! ## Following the sequence -/

/-- The loop follows the steps up to where there is nothing to replace, or up to the limit. -/
theorem finish_cases (d : Declaration) (limit : Nat) (p : Progress) :
    (∃ n ≤ limit, ∃ last, p.after d n = some last ∧ last.step? d = none ∧
        p.finish d limit = .ok last) ∨
      ∃ last, p.after d limit = some last ∧ last.step? d ≠ none ∧
        p.finish d limit = .error last := by
  induction limit generalizing p with
  | zero =>
    cases hstep : p.step? d with
    | none => exact .inl ⟨0, Nat.le_refl _, p, rfl, hstep, finish_of_step?_eq_none hstep 0⟩
    | some next => exact .inr ⟨p, rfl, by simp [hstep], finish_zero hstep⟩
  | succ limit ih =>
    cases hstep : p.step? d with
    | none =>
      exact .inl ⟨0, Nat.zero_le _, p, rfl, hstep, finish_of_step?_eq_none hstep _⟩
    | some next =>
      have hafter : ∀ n, p.after d (n + 1) = next.after d n := fun n => by
        rw [after, hstep, Option.bind_some]
      rw [finish_succ hstep]
      rcases ih next with ⟨n, hn, last, hlast, hend, hfinish⟩ | ⟨last, hlast, hopen, hfinish⟩
      · exact .inl ⟨n + 1, Nat.succ_le_succ hn, last, (hafter n).trans hlast, hend, hfinish⟩
      · exact .inr ⟨last, (hafter limit).trans hlast, hopen, hfinish⟩

/-- From any place of the sequence the loop goes on with what is left of the limit. -/
theorem finish_add (h : p.after d n = some last) (limit : Nat) :
    p.finish d (n + limit) = last.finish d limit := by
  induction n generalizing p with
  | zero =>
    obtain rfl := Option.some.inj h
    rw [Nat.zero_add]
  | succ n ih =>
    obtain ⟨next, hstep, hrest⟩ := Option.bind_eq_some_iff.1 h
    rw [Nat.succ_add, finish_succ hstep, ih hrest]

/-- A limit at which the sequence of steps has ended makes no difference. -/
theorem finish_of_le (h : p.after d n = some last) (hend : last.step? d = none) {limit : Nat}
    (hle : n ≤ limit) : p.finish d limit = .ok last := by
  rcases finish_cases d limit p with
    ⟨m, -, other, hother, hend', hfinish⟩ | ⟨other, hother, hopen, -⟩
  · rcases Nat.lt_trichotomy n m with hlt | rfl | hlt
    · simp [after_of_lt h hend hlt] at hother
    · rw [hfinish, Option.some.inj (hother.symm.trans h)]
    · simp [after_of_lt hother hend' hlt] at h
  · rcases Nat.lt_or_eq_of_le hle with hlt | rfl
    · simp [after_of_lt h hend hlt] at hother
    · obtain rfl := Option.some.inj (hother.symm.trans h)
      exact absurd hend hopen

/-- A limit before the end of the sequence is where the loop stops. -/
theorem finish_of_lt (h : p.after d n = some last) {limit : Nat} (hlt : limit < n) :
    ∃ stop, p.finish d limit = .error stop := by
  rcases finish_cases d limit p with ⟨m, hm, other, hother, hend, -⟩ | ⟨stop, -, -, hfinish⟩
  · simp [after_of_lt hother hend (Nat.lt_of_le_of_lt hm hlt)] at h
  · exact ⟨stop, hfinish⟩

end Progress

namespace Grammar

variable {g : Grammar} {words : Words} {limit : Nat} {last : Progress}

theorem derive_of_ok
    (h : Progress.finish g.toDeclaration limit ⟨[g.start], [], [], words⟩ = .ok last) :
    g.derive words limit = (.ok last.derivation, last.words) := by
  rw [derive, h]

theorem derive_of_error
    (h : Progress.finish g.toDeclaration limit ⟨[g.start], [], [], words⟩ = .error last) :
    g.derive words limit = (.error ⟨limit⟩, last.words) := by
  rw [derive, h]

/-- Each step of a random derivation is one of `Progress.step?`.  Where some steps have led, the
derivation goes on with this step, if the limit allows one more. -/
theorem derive_of_step {n : Nat} {p next : Progress}
    (hp : Progress.after g.toDeclaration n ⟨[g.start], [], [], words⟩ = some p)
    (hstep : p.step? g.toDeclaration = some next) (limit : Nat) :
    g.derive words (n + (limit + 1)) =
      match next.finish g.toDeclaration limit with
      | .ok last => (.ok last.derivation, last.words)
      | .error last => (.error ⟨n + (limit + 1)⟩, last.words) := by
  have hfinish : Progress.finish g.toDeclaration (n + (limit + 1)) ⟨[g.start], [], [], words⟩ =
      next.finish g.toDeclaration limit := by
    rw [Progress.finish_add hp, Progress.finish_succ hstep]
  cases hnext : next.finish g.toDeclaration limit with
  | ok last => exact derive_of_ok (hfinish.trans hnext)
  | error last => exact derive_of_error (hfinish.trans hnext)

/-- The words that are left are those after as many steps as were taken.  If the limit was exceeded,
then it is the number of these steps. -/
theorem exists_after_derive (g : Grammar) (words : Words) (limit : Nat) :
    ∃ n last, Progress.after g.toDeclaration n ⟨[g.start], [], [], words⟩ = some last ∧
      (g.derive words limit).2 = last.words ∧
      ((g.derive words limit).1 = .error ⟨limit⟩ ∧ n = limit ∨
        (g.derive words limit).1 = .ok last.derivation ∧ last.step? g.toDeclaration = none) := by
  rcases Progress.finish_cases g.toDeclaration limit ⟨[g.start], [], [], words⟩ with
    ⟨n, hn, last, hlast, hend, hfinish⟩ | ⟨last, hlast, hopen, hfinish⟩
  · rw [derive_of_ok hfinish]
    exact ⟨n, last, hlast, rfl, .inr ⟨rfl, hend⟩⟩
  · rw [derive_of_error hfinish]
    exact ⟨limit, last, hlast, rfl, .inl ⟨rfl, rfl⟩⟩

/-- If the sequence of steps ends, then it is its end that the limit is compared with. -/
theorem derive_of_end {n : Nat}
    (hlast : Progress.after g.toDeclaration n ⟨[g.start], [], [], words⟩ = some last)
    (hend : last.step? g.toDeclaration = none) (limit : Nat) :
    (n ≤ limit → g.derive words limit = (.ok last.derivation, last.words)) ∧
      (limit < n → (g.derive words limit).1 = .error ⟨limit⟩) := by
  constructor
  · intro hle
    exact derive_of_ok (Progress.finish_of_le hlast hend hle)
  · intro hlt
    obtain ⟨stop, hstop⟩ := Progress.finish_of_lt hlast hlt
    rw [derive_of_error hstop]

/-- Where a limit is exceeded, a greater limit lets more words be dealt, after the same ones. -/
theorem exists_deals_derive (hexceeded : (g.derive words limit).1 = .error ⟨limit⟩) (more : Nat) :
    ∃ dealt further, words.Deals dealt (g.derive words limit).2 ∧
      words.Deals (dealt ++ further) (g.derive words (limit + more)).2 := by
  obtain ⟨n, stop, hstop, hwords, ⟨-, rfl⟩ | ⟨hok, -⟩⟩ := g.exists_after_derive words limit
  · obtain ⟨m, last, hlast, hwords', hreached⟩ := g.exists_after_derive words (n + more)
    have hle : n ≤ m := by
      rcases hreached with ⟨-, rfl⟩ | ⟨-, hend⟩
      · exact Nat.le_add_right _ _
      · refine Nat.le_of_not_lt fun hlt => ?_
        simp [Progress.after_of_lt hlast hend hlt] at hstop
    rw [hwords, hwords']
    exact Progress.exists_deals_of_le hstop hlast hle
  · simp [hok] at hexceeded

/-- A limit of steps does nothing but cut off.  Either it is exceeded whatever it is, or there is
one derivation that is given within every limit from its own number of steps on, always with the
same words left, and no smaller limit is enough for it.  Where a limit is exceeded, the words that
were dealt until then are the first ones that are dealt under any greater limit. -/
theorem derive_cutoff (g : Grammar) (words : Words) :
    ((∀ limit, (g.derive words limit).1 = .error ⟨limit⟩) ∨
      ∃ (e : Derivation) (rest : Words), ∀ limit,
        (e.rules.length ≤ limit → g.derive words limit = (.ok e, rest)) ∧
        (limit < e.rules.length → (g.derive words limit).1 = .error ⟨limit⟩)) ∧
    ∀ limit more, (g.derive words limit).1 = .error ⟨limit⟩ →
      ∃ dealt further, words.Deals dealt (g.derive words limit).2 ∧
        words.Deals (dealt ++ further) (g.derive words (limit + more)).2 := by
  refine ⟨?_, fun limit more hexceeded => exists_deals_derive hexceeded more⟩
  by_cases hends : ∃ n last,
      Progress.after g.toDeclaration n ⟨[g.start], [], [], words⟩ = some last ∧
        last.step? g.toDeclaration = none
  · obtain ⟨n, last, hlast, hend⟩ := hends
    have hlength : last.derivation.rules.length = n := by
      simpa [Progress.derivation] using Progress.length_rules_of_after hlast
    refine .inr ⟨last.derivation, last.words, ?_⟩
    rw [hlength]
    exact derive_of_end hlast hend
  · refine .inl fun limit => ?_
    obtain ⟨n, last, hlast, -, ⟨hexceeded, -⟩ | ⟨-, hend⟩⟩ := g.exists_after_derive words limit
    · exact hexceeded
    · exact absurd ⟨n, last, hlast, hend⟩ hends

/-- The first word here chooses the empty body, which leaves nothing to replace.  This takes one
step, so that of all limits only zero is exceeded. -/
theorem nested_derive_cutoff :
    (nested.derive ⟨[2147483648], 0⟩ 0).1 = .error ⟨0⟩ ∧
      (∀ limit, 1 ≤ limit →
        nested.derive ⟨[2147483648], 0⟩ limit = (.ok ⟨[["S"], []], [⟨"S", []⟩]⟩, ⟨[], 1⟩)) ∧
      ∃ dealt further, Words.Deals ⟨[2147483648], 0⟩ dealt (nested.derive ⟨[2147483648], 0⟩ 0).2 ∧
        Words.Deals ⟨[2147483648], 0⟩ (dealt ++ further)
          (nested.derive ⟨[2147483648], 0⟩ 1).2 := by
  have hzero : (nested.derive ⟨[2147483648], 0⟩ 0).1 = .error ⟨0⟩ := by decide +kernel
  have hone : nested.derive ⟨[2147483648], 0⟩ 1 = (.ok ⟨[["S"], []], [⟨"S", []⟩]⟩, ⟨[], 1⟩) := by
    decide +kernel
  obtain ⟨hcutoff, hprefix⟩ := derive_cutoff nested ⟨[2147483648], 0⟩
  refine ⟨hzero, fun limit hlimit => ?_, hprefix 0 1 hzero⟩
  rcases hcutoff with hall | ⟨e, rest, he⟩
  · simpa [hone] using hall 1
  · have hlength : e.rules.length ≤ 1 := Nat.le_of_not_lt fun hlt => by
      simpa [hone] using (he 1).2 hlt
    rw [(he limit).1 (Nat.le_trans hlength hlimit), ← (he 1).1 hlength, hone]

end Grammar

end ContextFree
