import ContextFree.Proofs.Automaton.Run
import ContextFree.Proofs.Derivation.Limit
import ContextFree.Proofs.Derivation.Possible
import Mathlib.Data.List.Perm.Basic

/-!
# The order of declaration

Symbols and productions are declared in an order, and much follows it: the transitions of the
automaton, the successors that it offers, and the productions that a word of a draw stands for.
What can be reached and what can be derived do not depend on it.

* `Declaration.Permuted` is a declaration in another order, and `Permuted.wellFormed` says that it
  is as good as the first one.
* `Automaton.reachable_perm` follows two automata whose transitions come in different orders.
* `Grammar.drawable` collects what can be derived at random.  `Grammar.mem_drawable_iff` says what
  this is without a word, so it is the same for both orders.
* `Declaration.Permuted.same_behaviour` puts these together.
-/

namespace ContextFree

/-! ## Declarations -/

namespace Declaration

/-- Two declarations with the same start symbol, and with the same symbols and productions in
another order. -/
structure Permuted (d e : Declaration) : Prop where
  inputs : d.inputs.Perm e.inputs
  heads : d.heads.Perm e.heads
  start : d.start = e.start
  rules : d.rules.Perm e.rules

/-- The check accepts exactly what is well formed. -/
theorem exists_check_iff {d : Declaration} : (∃ g, d.check = .ok g) ↔ d.WellFormed := by
  rw [← exists_check_eq_ok_iff]
  constructor
  · intro h
    obtain ⟨g, hg⟩ := h
    exact ⟨g, hg, (check_eq_ok_iff.1 hg).symm⟩
  · intro h
    obtain ⟨g, hg, -⟩ := h
    exact ⟨g, hg⟩

namespace Permuted

variable {d e : Declaration}

theorem symm (h : d.Permuted e) : e.Permuted d :=
  ⟨h.inputs.symm, h.heads.symm, h.start.symm, h.rules.symm⟩

theorem vocabulary (h : d.Permuted e) : d.vocabulary.Perm e.vocabulary := h.inputs.append h.heads

theorem wellFormed (h : d.Permuted e) (hd : d.WellFormed) : e.WellFormed where
  nodup := h.vocabulary.nodup_iff.1 hd.nodup
  not_reserved s hs := hd.not_reserved s (h.vocabulary.mem_iff.2 hs)
  not_malformed s hs := hd.not_malformed s (h.vocabulary.mem_iff.2 hs)
  unambiguous := hd.unambiguous.of_subset (h.vocabulary.append_right _).symm.subset
  start_mem := h.start ▸ h.heads.mem_iff.1 hd.start_mem
  head_mem p hp := h.heads.mem_iff.1 (hd.head_mem p (h.rules.mem_iff.2 hp))
  body_subset p hp := List.Subset.trans (hd.body_subset p (h.rules.mem_iff.2 hp))
    h.vocabulary.subset

theorem isHead_iff (h : d.Permuted e) {s : Symbol} : d.IsHead s ↔ e.IsHead s := by
  simp only [IsHead, h.rules.mem_iff]

theorem isLeftmost (h : d.Permuted e) {x : Derivation} (hx : d.IsLeftmost x) :
    e.IsLeftmost x where
  first := h.start ▸ hx.first
  length := hx.length
  step i p hp := by
    obtain ⟨hmem, r, hhead, hform, hnext, hbefore⟩ := hx.step i p hp
    exact ⟨h.rules.mem_iff.1 hmem, r, hhead, hform, hnext, fun s hs =>
      mt h.isHead_iff.2 (hbefore s hs)⟩

end Permuted

end Declaration

/-! ## Automata -/

namespace Automaton

/-- Two automata that start alike, and have the same input symbols and transitions in another
order. -/
structure Permuted (m n : Automaton) : Prop where
  inputAlphabet : m.inputAlphabet.Perm n.inputAlphabet
  transitions : m.transitions.Perm n.transitions
  initial : m.initial = n.initial

variable {m n : Automaton} {c : Configuration} {input : Option Symbol}

theorem Permuted.symm (h : m.Permuted n) : n.Permuted m :=
  ⟨h.inputAlphabet.symm, h.transitions.symm, h.initial.symm⟩

/-- One step offers the same successors in another order. -/
theorem Permuted.exists_successors (h : m.Permuted n) {cs : List Configuration}
    (hm : m.successors c input = .ok cs) : ∃ ds, n.successors c input = .ok ds ∧ cs.Perm ds := by
  obtain ⟨ts, hts, hne, rfl⟩ := successors_eq_ok_iff.1 hm
  obtain ⟨hread, top, htop, rfl⟩ := applicable_eq_ok_iff.1 hts
  have hfits := h.transitions.filter fun t => t.fits c.state input top
  have happlicable := applicable_eq_ok_iff.2
    ⟨fun s hs => h.inputAlphabet.mem_iff.1 (hread s hs), top, htop, rfl⟩
  have hne' : (n.transitions.filter fun t => t.fits c.state input top) ≠ [] := fun hnil =>
    hne (hnil ▸ hfits).eq_nil
  exact ⟨_, successors_eq_ok_iff.2 ⟨_, happlicable, hne', rfl⟩, hfits.map c.move⟩

/-- Whatever is offered, the same configurations are reached, each in as many ways.  The induction
is on the inputs. -/
theorem reachable_perm (h : m.Permuted n) (inputs : List (Option Symbol)) (c : Configuration) :
    (m.reachable inputs c).Perm (n.reachable inputs c) := by
  induction inputs generalizing c with
  | nil => exact List.Perm.refl _
  | cons input inputs ih =>
    rw [reachable, reachable]
    cases hm : m.successors c input with
    | ok cs =>
      obtain ⟨ds, hn, hperm⟩ := h.exists_successors hm
      rw [hn]
      exact hperm.flatMap fun next _ => ih next
    | error refusal =>
      cases hn : n.successors c input with
      | ok ds =>
        obtain ⟨cs, hcs, -⟩ := h.symm.exists_successors hn
        simp [hm] at hcs
      | error other => exact List.Perm.refl _

end Automaton

theorem Declaration.Permuted.automaton {g k : Grammar}
    (h : g.toDeclaration.Permuted k.toDeclaration) (fromOpening : Bool) :
    (g.automaton fromOpening).Permuted (k.automaton fromOpening) where
  inputAlphabet := h.inputs
  transitions := by
    have hopening : g.openingTransition = k.openingTransition := by
      rw [openingTransition, openingTransition, h.start]
    show (g.openingTransition :: _).Perm (k.openingTransition :: _)
    rw [hopening]
    exact ((h.rules.map Production.toTransition).cons _).cons _
  initial := by simp [Automaton.initial, Grammar.automaton, h.start]

/-! ## Derivations -/

namespace Grammar

/-- The derivations that some source of words gives within a limit. -/
def drawable (g : Grammar) (limit : Nat) : Set Derivation :=
  {e | ∃ words, (g.derive words limit).1 = .ok e}

/-- What can be drawn within a limit are the leftmost derivations that come to their end within
it, if there are fewer productions than words. -/
theorem mem_drawable_iff {g : Grammar} (hrules : g.rules.length < Words.wordCount) {limit : Nat}
    {e : Derivation} :
    e ∈ g.drawable limit ↔
      g.IsLeftmost e ∧ e.rules.length ≤ limit ∧ ∀ s ∈ e.sentence, ¬ g.IsHead s := by
  constructor
  · intro h
    obtain ⟨words, hderive⟩ := h
    exact ended_of_derive (Prod.ext hderive rfl)
  · intro h
    obtain ⟨hleftmost, hle, hdone⟩ := h
    obtain ⟨words, -, hfinish⟩ := hleftmost.exists_words hrules
    have hend : (Progress.reached e ⟨[], 0 + e.rules.length⟩).step? g.toDeclaration = none :=
      Progress.step?_eq_none_iff.2 hdone
    have hlast := hfinish (limit - e.rules.length) 0 []
    rw [Nat.sub_add_cancel hle, Progress.finish_of_step?_eq_none hend] at hlast
    refine ⟨⟨words ++ [], 0⟩, ?_⟩
    rw [derive_of_ok hlast, Progress.derivation_reached hleftmost.forms_ne_nil]

end Grammar

/-- The order in which symbols and productions are declared does not matter.

A declaration is accepted if and only if it is accepted in another order.  If it is, then the two
automata reach the same configurations, whatever is offered to them, and each in as many ways.  With
fewer productions than words, the same derivations can be drawn within every limit. -/
theorem Declaration.Permuted.same_behaviour {d e : Declaration} (h : d.Permuted e) :
    ((∃ g, d.check = .ok g) ↔ ∃ k, e.check = .ok k) ∧
      ∀ g k : Grammar, d.check = .ok g → e.check = .ok k →
        (∀ (fromOpening : Bool) (inputs : List (Option Symbol)),
          ((g.automaton fromOpening).reachable inputs (g.automaton fromOpening).initial).Perm
            ((k.automaton fromOpening).reachable inputs (k.automaton fromOpening).initial)) ∧
        (g.rules.length < Words.wordCount → ∀ limit, g.drawable limit = k.drawable limit) := by
  refine ⟨?_, fun g k hg hk => ?_⟩
  · rw [exists_check_iff, exists_check_iff]
    exact ⟨h.wellFormed, h.symm.wellFormed⟩
  · obtain rfl := check_eq_ok_iff.1 hg
    obtain rfl := check_eq_ok_iff.1 hk
    refine ⟨fun fromOpening inputs => ?_, fun hrules limit => ?_⟩
    · have hautomaton := h.automaton fromOpening
      rw [← hautomaton.initial]
      exact Automaton.reachable_perm hautomaton inputs _
    · have hrules' : k.rules.length < Words.wordCount := h.rules.length_eq ▸ hrules
      ext x
      rw [Grammar.mem_drawable_iff hrules, Grammar.mem_drawable_iff hrules']
      simp only [h.isHead_iff]
      exact and_congr_left' ⟨h.isLeftmost, h.symm.isLeftmost⟩

/-- A grammar with two productions that read the same symbol. -/
def Grammar.twoWays : Grammar where
  inputs := ["a", "b"]
  heads := ["S", "T"]
  start := "S"
  rules := [⟨"S", ["a", "S"]⟩, ⟨"S", ["a", "T"]⟩, ⟨"T", ["b"]⟩]
  faults_eq_nil := by decide +kernel

/-- The same grammar, declared the other way round. -/
def Grammar.twoWaysBack : Grammar where
  inputs := ["b", "a"]
  heads := ["T", "S"]
  start := "S"
  rules := [⟨"T", ["b"]⟩, ⟨"S", ["a", "T"]⟩, ⟨"S", ["a", "S"]⟩]
  faults_eq_nil := by decide +kernel

/-- Reading one `a` leads to the same two configurations in both, but not in the same order.  One
source of words gives a derivation for the first grammar, and exceeds the limit for the other. -/
theorem Grammar.twoWays_same_behaviour :
    twoWays.toDeclaration.Permuted twoWaysBack.toDeclaration ∧
      (twoWays.automaton true).reachable [none, some "a"] (twoWays.automaton true).initial =
        [⟨Automaton.working, ["S", Symbol.bottom]⟩, ⟨Automaton.working, ["T", Symbol.bottom]⟩] ∧
      (twoWaysBack.automaton true).reachable [none, some "a"]
          (twoWaysBack.automaton true).initial =
        [⟨Automaton.working, ["T", Symbol.bottom]⟩, ⟨Automaton.working, ["S", Symbol.bottom]⟩] ∧
      ((twoWays.automaton true).reachable [none, some "a"] (twoWays.automaton true).initial).Perm
        ((twoWaysBack.automaton true).reachable [none, some "a"]
          (twoWaysBack.automaton true).initial) ∧
      (twoWays.derive ⟨[0x80000000], 0⟩ 2).1 =
        .ok ⟨[["S"], ["a", "T"], ["a", "b"]], [⟨"S", ["a", "T"]⟩, ⟨"T", ["b"]⟩]⟩ ∧
      (twoWaysBack.derive ⟨[0x80000000], 0⟩ 2).1 = .error ⟨2⟩ ∧
      twoWays.drawable 2 = twoWaysBack.drawable 2 := by
  have hpermuted : twoWays.toDeclaration.Permuted twoWaysBack.toDeclaration :=
    ⟨by decide, by decide, rfl, by decide⟩
  obtain ⟨-, hboth⟩ := hpermuted.same_behaviour
  obtain ⟨hreachable, hdrawable⟩ := hboth twoWays twoWaysBack
    (Declaration.check_eq_ok_iff.2 rfl) (Declaration.check_eq_ok_iff.2 rfl)
  exact ⟨hpermuted, by decide +kernel, by decide +kernel, hreachable true _, by decide +kernel,
    by decide +kernel, hdrawable (by decide) 2⟩

end ContextFree
