import ContextFree.Proofs.Automaton.Language
import ContextFree.Proofs.Derivation.Random

/-!
# The automaton follows what was generated

The generator replaces the first symbol that is the head of a production, wherever it stands.  The
automaton replaces the symbol after what it has read.  Where bodies read one input symbol, and a
derivation ends in input symbols only, the two are the same place at every step.

* Leftmost derivations.  What stands before the place of a step is never replaced later
  (`IsLeftmost.prefix_sentence`), so it consists of symbols of the sentence.
* The place of a step.  `Declaration.before_eq_reads` finds it in a form that has been read in part,
  and `IsLeftmost.derivesBy_take` follows the whole derivation.
* The run.  `Grammar.placesOf` says where the transitions of the run stand in the automaton, and
  `Grammar.run_of_derive` is the main result.
-/

namespace ContextFree

open Automaton

namespace Declaration

variable {d : Declaration} {e : Derivation}

/-! ## Leftmost derivations -/

namespace IsLeftmost

theorem sentence_eq (h : d.IsLeftmost e) : e.forms[e.rules.length]? = some e.sentence := by
  have hlast : e.forms.getLast? = e.forms[e.rules.length]? := by
    rw [List.getLast?_eq_getElem?, h.length, Nat.add_sub_cancel]
  have hlt : e.rules.length < e.forms.length := by
    have hlength := h.length
    omega
  rw [Derivation.sentence, hlast, List.getElem?_eq_getElem hlt]
  rfl

/-- A step keeps what a form begins with, as long as there are no heads in it. -/
theorem prefix_fill {done : Form} (hdone : ∀ s ∈ done, ¬ d.IsHead s) {r : Redex}
    (hhead : d.IsHead r.head) (hbegins : done <+: r.form) (body : List Symbol) :
    done <+: r.fill body := by
  have hplace : r.before ++ [r.head] <+: r.form :=
    ⟨r.after, by rw [Redex.form, List.append_assoc, List.singleton_append]⟩
  rcases List.prefix_or_prefix_of_prefix hbegins hplace with hshort | hlong
  · rcases List.prefix_concat_iff.1 hshort with heq | hbefore
    · have hmem : r.head ∈ done := by simp [heq]
      exact absurd hhead (hdone _ hmem)
    · exact (hbefore.trans (List.prefix_append _ _)).trans (List.prefix_append _ _)
  · have hmem : r.head ∈ done := hlong.subset (by simp)
    exact absurd hhead (hdone _ hmem)

/-- What a form begins with stays to the end, as long as there are no heads in it.  The induction
is on the steps that are left. -/
theorem prefix_sentence (h : d.IsLeftmost e) {done : Form} (hdone : ∀ s ∈ done, ¬ d.IsHead s)
    (left : Nat) : ∀ (i : Nat) (form : Form), i + left = e.rules.length →
      e.forms[i]? = some form → done <+: form → done <+: e.sentence := by
  induction left with
  | zero =>
    intro i form hi hform hbegins
    obtain rfl : i = e.rules.length := hi
    obtain rfl : form = e.sentence := Option.some.inj (hform.symm.trans h.sentence_eq)
    exact hbegins
  | succ left ih =>
    intro i form hi hform hbegins
    have hlt : i < e.rules.length := by omega
    obtain ⟨hp, r, hhead, hbefore, hafter, -⟩ := h.step i _ (List.getElem?_eq_getElem hlt)
    obtain rfl : form = r.form := Option.some.inj (hform.symm.trans hbefore)
    exact ih (i + 1) _ (by omega) hafter (prefix_fill hdone ⟨_, hp, hhead⟩ hbegins _)

end IsLeftmost

/-! ## The place of a step -/

/-- In a form that has been read in part, a place with input symbols before it and none at it comes
directly after what was read. -/
theorem before_eq_reads (hd : d.WellFormed) {r : Redex} {read rest : Form}
    (hform : r.form = read ++ rest) (hread : ∀ s ∈ read, s ∈ d.inputs) (hrest : rest ⊆ d.heads)
    (hbefore : ∀ s ∈ r.before, s ∈ d.inputs) (hhead : r.head ∈ d.heads) :
    r.before = read := by
  have hnot : ∀ s ∈ d.heads, s ∉ d.inputs := fun s hs hmem => hd.not_mem_heads hmem hs
  have htake : ∀ (first second : Form), (∀ s ∈ first, s ∈ d.inputs) →
      (∀ s ∈ second.head?, s ∈ d.heads) →
      (first ++ second).takeWhile (fun s => decide (s ∈ d.inputs)) = first := by
    intro first second hfirst hsecond
    rw [List.takeWhile_append_of_pos (by simpa using hfirst)]
    cases second with
    | nil => simp
    | cons s second => simp [hnot s (hsecond s rfl)]
  have hleft := htake r.before (r.head :: r.after) hbefore (by simpa using hhead)
  have hright := htake read rest hread fun s hs => hrest (List.mem_of_head? hs)
  rw [← hleft, ← hright, ← hform, Redex.form]

/-- A derivation that ends in input symbols replaces the symbol after what was read, at every step.
What is not read yet is all replaced, since every body reads at most its first symbol. -/
theorem IsLeftmost.derivesBy_take (hd : d.WellFormed)
    (hshape : ∀ p ∈ d.rules, d.ReadsOne p.body) (h : d.IsLeftmost e)
    (hsentence : ∀ s ∈ e.sentence, s ∈ d.inputs) (i : Nat) (hi : i ≤ e.rules.length) :
    ∃ rest, rest ⊆ d.heads ∧ (∀ s ∈ Production.reads (e.rules.take i), s ∈ d.inputs) ∧
      e.forms[i]? = some (Production.reads (e.rules.take i) ++ rest) ∧
      d.DerivesBy Redex.IsAfterReads (e.rules.take i)
        (Production.reads (e.rules.take i) ++ rest) := by
  induction i with
  | zero =>
    have hstart : [d.start] ⊆ d.heads := List.cons_subset.2 ⟨hd.start_mem, List.nil_subset _⟩
    exact ⟨[d.start], hstart, List.forall_mem_nil _, h.first, DerivesBy.start⟩
  | succ i ih =>
    obtain ⟨rest, hrest, hread, hform, hderives⟩ := ih (Nat.le_of_succ_le hi)
    obtain ⟨hp, r, hhead, hbefore, hafter, hplain⟩ :=
      h.step i _ (List.getElem?_eq_getElem (Nat.lt_of_succ_le hi))
    have heq : r.form = Production.reads (e.rules.take i) ++ rest :=
      Option.some.inj (hbefore.symm.trans hform)
    -- what stands before the place stays, so it is made of symbols of the sentence
    have hkept : r.before <+: e.sentence :=
      h.prefix_sentence hplain (e.rules.length - i) i r.form (by omega) hbefore
        (List.prefix_append _ _)
    have hinputs : ∀ s ∈ r.before, s ∈ d.inputs := fun s hs => hsentence s (hkept.subset hs)
    have hplace : Redex.IsAfterReads (e.rules.take i) r :=
      before_eq_reads hd heq hread hrest hinputs (hhead ▸ hd.head_mem _ hp)
    rw [← heq] at hderives
    have hstep := DerivesBy.step hderives hp hhead hplace
    have htake : e.rules.take (i + 1) = e.rules.take i ++ [e.rules[i]] :=
      List.take_succ_eq_append_getElem (Nat.lt_of_succ_le hi)
    rw [htake]
    rw [hplace.fill_eq] at hstep hafter
    refine ⟨e.rules[i].body.tail ++ r.after, ?_, ?_, hafter, hstep⟩
    · have hafter : r.after ⊆ d.heads := by
        have htail : r.head :: r.after = rest := by
          rw [Redex.form, hplace] at heq
          exact List.append_cancel_left heq
        rw [← htail] at hrest
        exact List.subset_of_cons_subset hrest
      exact List.append_subset.2 ⟨(hshape _ hp).tail_subset, hafter⟩
    · rw [Production.reads_concat]
      exact List.forall_mem_append.2 ⟨hread, (hshape _ hp).head?_mem⟩

/-- A derivation that ends in input symbols is read to its end, because nothing that is left could
be replaced. -/
theorem IsLeftmost.reads_eq_sentence (hd : d.WellFormed)
    (hshape : ∀ p ∈ d.rules, d.ReadsOne p.body) (h : d.IsLeftmost e)
    (hsentence : ∀ s ∈ e.sentence, s ∈ d.inputs) :
    Production.reads e.rules = e.sentence ∧
      d.DerivesBy Redex.IsAfterReads e.rules (Production.reads e.rules) := by
  obtain ⟨rest, hrest, -, hform, hderives⟩ :=
    h.derivesBy_take hd hshape hsentence e.rules.length (Nat.le_refl _)
  rw [List.take_length] at hform hderives
  have heq : Production.reads e.rules ++ rest = e.sentence :=
    Option.some.inj (hform.symm.trans h.sentence_eq)
  have hnil : rest = [] := by
    refine List.eq_nil_iff_forall_not_mem.2 fun s hs => ?_
    have hmem : s ∈ e.sentence := heq ▸ List.mem_append_right _ hs
    exact hd.not_mem_heads (hsentence s hmem) (hrest hs)
  rw [hnil, List.append_nil] at heq hderives
  exact ⟨heq, hderives⟩

end Declaration

/-! ## The run -/

namespace Grammar

variable {g : Grammar}

/-- The places of the transitions that follow a derivation: the opening one, one for each of its
productions, and the closing one. -/
def placesOf (g : Grammar) (ps : List Production) : List Nat :=
  0 :: ps.map (fun p => 2 + g.rules.idxOf p) ++ [1]

/-- The transition of a production stands two places after the production. -/
theorem transitions_placesOf {ps : List Production} (hps : ∀ p ∈ ps, p ∈ g.rules) :
    (g.placesOf ps).map (fun place => (g.automaton true).transitions[place]?) =
      (g.openingTransition :: ps.map Production.toTransition ++
        [Declaration.closingTransition]).map some := by
  have hrule : ∀ p ∈ ps,
      (g.automaton true).transitions[2 + g.rules.idxOf p]? = some p.toTransition := by
    intro p hp
    have hindex : g.rules[g.rules.idxOf p]? = some p := List.getElem?_idxOf (hps p hp)
    have htransitions : (g.automaton true).transitions = g.openingTransition ::
        Declaration.closingTransition :: g.rules.map Production.toTransition := rfl
    rw [htransitions, Nat.add_comm, List.getElem?_cons_succ, List.getElem?_cons_succ,
      List.getElem?_map, hindex, Option.map_some]
  simp only [placesOf, List.map_append, List.map_cons, List.map_map, List.map_nil]
  congr 2
  exact List.map_congr_left hrule

/-- The automaton follows what was generated, if every body is empty or one input symbol followed
only by symbols that are replaced, and the derivation ends in input symbols.

The transitions of its productions fire in turn, between the opening and the closing one.  After
each of them, what was read and then what is above the bottom marker is the form that the
derivation had reached.  The run ends accepting, and has read the sentence. -/
theorem run_of_derive (g : Grammar) (hshape : ∀ p ∈ g.rules, g.ReadsOne p.body)
    {words left : Words} {limit : Nat} {e : Derivation}
    (hderive : g.derive words limit = (.ok e, left))
    (hsentence : ∀ s ∈ e.sentence, s ∈ g.inputs) :
    ∃ ts : List Transition,
      (g.placesOf e.rules).map (fun place => (g.automaton true).transitions[place]?) =
        ts.map some ∧
      (∀ i ≤ e.rules.length, ∃ rest,
        (g.automaton true).fireAll (g.automaton true).initial (ts.take (i + 1)) =
          .ok ⟨working, rest ++ [Symbol.bottom]⟩ ∧
        e.forms[i]? = some (Transition.reads (ts.take (i + 1)) ++ rest)) ∧
      (g.automaton true).fireAll (g.automaton true).initial ts =
        .ok ⟨closing, [Symbol.bottom]⟩ ∧
      (g.automaton true).accepts ⟨closing, [Symbol.bottom]⟩ = true ∧
      Transition.reads ts = e.sentence := by
  have hleftmost := isLeftmost_of_derive hderive
  have hfollow := hleftmost.derivesBy_take g.wellFormed hshape hsentence
  have hrules : ∀ p ∈ e.rules, p ∈ g.rules := by
    intro p hp
    obtain ⟨i, hi⟩ := List.getElem?_of_mem hp
    exact (hleftmost.step i p hi).1
  obtain ⟨hreads, hderives⟩ := hleftmost.reads_eq_sentence g.wellFormed hshape hsentence
  refine ⟨_, transitions_placesOf hrules, fun i hi => ?_, ?_, accepts_iff.2 rfl, ?_⟩
  · obtain ⟨rest, -, -, hform, hderives⟩ := hfollow i hi
    have htake : (g.openingTransition :: e.rules.map Production.toTransition ++
        [Declaration.closingTransition]).take (i + 1) =
        g.openingTransition :: (e.rules.take i).map Production.toTransition := by
      rw [List.cons_append, List.take_succ_cons, List.take_append_of_le_length (by simpa using hi),
        List.map_take]
    rw [htake, reads_following]
    exact ⟨rest, fireAll_eq_ok_iff_stage.2 (Stage.following hderives), hform⟩
  · exact fireAll_eq_ok_iff_stage.2 (Stage.finished hderives)
  · rw [reads_finished]
    exact hreads

/-- The words choose the longer production for `S` first and the erasing one then, and the
automaton follows the derivation to its end. -/
theorem nested_run_of_derive :
    nested.derive ⟨[0, 0x80000000, 0], 0⟩ 3 =
        (.ok ⟨[["S"], ["a", "S", "B"], ["a", "B"], ["a", "b"]],
          [⟨"S", ["a", "S", "B"]⟩, ⟨"S", []⟩, ⟨"B", ["b"]⟩]⟩, ⟨[], 3⟩) ∧
      ∃ ts : List Transition,
        [0, 2, 3, 4, 1].map (fun place => (nested.automaton true).transitions[place]?) =
          ts.map some ∧
        (nested.automaton true).fireAll (nested.automaton true).initial ts =
          .ok ⟨closing, [Symbol.bottom]⟩ ∧
        Transition.reads ts = ["a", "b"] := by
  have hderive : nested.derive ⟨[0, 0x80000000, 0], 0⟩ 3 =
      (.ok ⟨[["S"], ["a", "S", "B"], ["a", "B"], ["a", "b"]],
        [⟨"S", ["a", "S", "B"]⟩, ⟨"S", []⟩, ⟨"B", ["b"]⟩]⟩, ⟨[], 3⟩) := by
    decide +kernel
  obtain ⟨ts, hplaces, -, hrun, -, hreads⟩ :=
    run_of_derive nested (by decide) hderive (by decide)
  exact ⟨hderive, ts, hplaces, hrun, hreads⟩

end Grammar

end ContextFree
