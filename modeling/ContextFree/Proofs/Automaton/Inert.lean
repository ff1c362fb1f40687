import ContextFree.Automaton.OfGrammar
import ContextFree.Proofs.Automaton.Marker

/-!
# Runs that begin in the start symbol

Without `fromOpening` a run of a grammar's automaton begins in the grammar's start symbol, which is
not meant as a state: nothing should move from there, and the two transitions that open and close a
run should stay out of reach.

* `Automaton.IsInert` says this of an automaton, for single moves and for whole runs.
* `Grammar.fire_initial_eq_ok_iff` lists the moves that there are all the same.  A symbol may be
  spelled like a state, and a start symbol that is spelled like `opening` or `working` is one.
* `Grammar.isInert_iff` is the main result: the automaton is inert exactly if the start symbol is
  not spelled like one of its states.
-/

namespace ContextFree

open Automaton

namespace Automaton

variable {m : Automaton} {c : Configuration}

/-- A caller is offered no successors if nothing fires on the input. -/
theorem successors_eq_error (hc : c.stack ≠ []) {input : Option Symbol}
    (hread : ∀ s ∈ input, s ∈ m.inputAlphabet)
    (hfire : ∀ t next, m.fire c t ≠ .ok next) :
    m.successors c input = .error .noApplicableTransition := by
  obtain ⟨top, below, hstack⟩ := List.exists_cons_of_ne_nil hc
  have htop : c.top? = some top := by simp [Configuration.top?, hstack]
  have hnone : (m.transitions.filter fun t => t.fits c.state input top) = [] := by
    refine List.filter_eq_nil_iff.2 fun t ht hfits => ?_
    simp only [Transition.fits, Bool.and_eq_true, decide_eq_true_eq] at hfits
    obtain ⟨⟨hsource, -⟩, htaken⟩ := hfits
    exact hfire t (c.move t) (fire_eq_ok_iff.2 ⟨ht, hsource, htaken ▸ htop, rfl⟩)
  have happlicable : m.applicable c input = .ok [] :=
    applicable_eq_ok_iff.2 ⟨hread, top, htop, hnone.symm⟩
  rw [successors, happlicable]
  rfl

/-- A run that has not begun does not accept, and it does not begin: every transition is refused,
no successors are offered on any input, and there is no run but the empty one. -/
structure IsInert (m : Automaton) : Prop where
  not_accepting : m.accepts m.initial = false
  refused : ∀ t ∈ m.transitions, m.fire m.initial t = .error .noApplicableTransition
  no_successors : ∀ input, (∀ s ∈ input, s ∈ m.inputAlphabet) →
    m.successors m.initial input = .error .noApplicableTransition
  no_run : ∀ ts c, m.fireAll m.initial ts = .ok c → ts = []

/-- It is enough that nothing fires. -/
theorem IsInert.of_fire (haccepts : m.accepts m.initial = false)
    (hfire : ∀ t next, m.fire m.initial t ≠ .ok next) : m.IsInert where
  not_accepting := haccepts
  refused t _ := by
    cases hmove : m.fire m.initial t with
    | ok next => exact absurd hmove (hfire t next)
    | error e => rw [fire_eq_error (List.cons_ne_nil _ _) hmove]
  no_successors _ hread := successors_eq_error (List.cons_ne_nil _ _) hread hfire
  no_run ts c h := by
    cases ts with
    | nil => rfl
    | cons t ts =>
      obtain ⟨next, hmove, -⟩ := fireAll_cons_eq_ok_iff.1 h
      exact absurd hmove (hfire t next)

end Automaton

namespace Grammar

variable {g : Grammar}

/-- From the start symbol, with only the bottom marker on the stack, the opening transition fires
if the symbol is spelled like `opening`, and the closing one if it is spelled like `working`.  No
production has the bottom marker as its head. -/
theorem fire_initial_eq_ok_iff {t : Transition} {next : Configuration} :
    (g.automaton false).fire (g.automaton false).initial t = .ok next ↔
      (g.start = opening ∧ t = g.openingTransition ∧
          next = ⟨working, [g.start, Symbol.bottom]⟩) ∨
        (g.start = working ∧ t = Declaration.closingTransition ∧
          next = ⟨closing, [Symbol.bottom]⟩) := by
  rw [fire_eq_ok_iff]
  constructor
  · intro h
    obtain ⟨hmem, hsource, htop, rfl⟩ := h
    rcases Declaration.mem_transitions.1 hmem with rfl | rfl | ⟨p, hp, rfl⟩
    · exact Or.inl ⟨hsource.symm, rfl, rfl⟩
    · exact Or.inr ⟨hsource.symm, rfl, rfl⟩
    · have hhead : Symbol.bottom = p.head := Option.some.inj htop
      have hdeclared : p.head ∈ g.vocabulary :=
        List.mem_append_right _ (g.wellFormed.head_mem p hp)
      exact absurd (hhead ▸ hdeclared) g.wellFormed.bottom_not_mem
  · intro h
    rcases h with ⟨hstart, rfl, rfl⟩ | ⟨hstart, rfl, rfl⟩
    · exact ⟨Declaration.mem_transitions.2 (Or.inl rfl), hstart.symm, rfl, rfl⟩
    · exact ⟨Declaration.mem_transitions.2 (Or.inr (Or.inl rfl)), hstart.symm, rfl, rfl⟩

theorem accepts_initial_iff :
    (g.automaton false).accepts (g.automaton false).initial = true ↔ g.start = closing := by
  simp [accepts, automaton, Automaton.initial]

/-- A run that begins in the start symbol cannot accept or move, exactly if the start symbol is not
spelled like a state. -/
theorem isInert_iff (g : Grammar) :
    (g.automaton false).IsInert ↔ g.start ∉ (g.automaton false).states := by
  have hstates : (g.automaton false).states = [opening, working, closing] := rfl
  rw [hstates, List.mem_cons, List.mem_cons, List.mem_singleton, not_or, not_or]
  constructor
  · intro h
    refine ⟨fun hstart => ?_, fun hstart => ?_, fun hstart => ?_⟩
    · have hmove := fire_initial_eq_ok_iff.2 (Or.inl ⟨hstart, rfl, rfl⟩)
      exact absurd (h.no_run [_] _ (fireAll_cons_eq_ok_iff.2 ⟨_, hmove, rfl⟩)) (by simp)
    · have hmove := fire_initial_eq_ok_iff.2 (Or.inr ⟨hstart, rfl, rfl⟩)
      exact absurd (h.no_run [_] _ (fireAll_cons_eq_ok_iff.2 ⟨_, hmove, rfl⟩)) (by simp)
    · exact absurd (accepts_initial_iff.2 hstart) (by simp [h.not_accepting])
  · intro h
    obtain ⟨hopening, hworking, hclosing⟩ := h
    refine IsInert.of_fire ?_ fun t next hmove => ?_
    · rw [← Bool.not_eq_true, accepts_initial_iff]
      exact hclosing
    · rcases fire_initial_eq_ok_iff.1 hmove with ⟨hstart, -⟩ | ⟨hstart, -⟩
      · exact hopening hstart
      · exact hworking hstart

/-- The start symbol of `misleading` is spelled like `working`, so the closing transition fires at
once. -/
theorem misleading_not_isInert :
    (misleading.automaton false).fire (misleading.automaton false).initial
        Declaration.closingTransition = .ok ⟨closing, [Symbol.bottom]⟩ ∧
      ¬ (misleading.automaton false).IsInert := by
  have hmove : (misleading.automaton false).fire (misleading.automaton false).initial
      Declaration.closingTransition = .ok ⟨closing, [Symbol.bottom]⟩ := rfl
  refine ⟨hmove, fun h => ?_⟩
  have hrefused := h.refused Declaration.closingTransition (by decide)
  simp [hmove] at hrefused

end Grammar

end ContextFree
