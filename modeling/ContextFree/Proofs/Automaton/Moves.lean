import ContextFree.Proofs.Automaton.Run

/-!
# The two ways to move agree

`Automaton.fire` is given a transition: it looks whether this is one of the automaton's own, and
lets it read what it reads.  `Automaton.successors` is given an input: it looks whether this belongs
to the input alphabet, and goes through all transitions.  Nothing is assumed about the automaton
here, so a transition may occur twice, and it may read what does not belong to the alphabet.

* `Automaton.fired` collects where firing leads on an input, and `Automaton.fired_eq_map_move` says
  that these are the moves of the transitions that fit.
* `Automaton.refused_input` and `Automaton.refused_empty_stack` are about what is refused before any
  transition is looked at, and `Automaton.successors_eq` about what is offered otherwise.
* `Automaton.successors_agree_with_fire` puts these together.
-/

namespace ContextFree

namespace Automaton

variable {m : Automaton} {c : Configuration} {input : Option Symbol}

/-- Where the automaton's own transitions lead that read the input and fire, in their order. -/
def fired (m : Automaton) (c : Configuration) (input : Option Symbol) : List Configuration :=
  (m.transitions.filter fun t => t.input = input).filterMap fun t => (m.fire c t).toOption

theorem toOption_fire {t : Transition} (ht : t ∈ m.transitions) {top : Symbol}
    (htop : c.top? = some top) :
    (m.fire c t).toOption = if t.fits c.state t.input top then some (c.move t) else none := by
  rw [fire, htop]
  by_cases hfits : t.fits c.state t.input top = true
  · simp [ht, hfits, Except.toOption]
  · simp [hfits, Except.toOption]

theorem fired_eq_map_move {top : Symbol} (htop : c.top? = some top) :
    m.fired c input =
      (m.transitions.filter fun t => t.fits c.state input top).map c.move := by
  rw [fired, ← List.filterMap_eq_map, List.filterMap_filter, List.filterMap_filter]
  refine List.filterMap_congr fun t ht => ?_
  by_cases hinput : t.input = input
  · subst hinput
    simp [toOption_fire ht htop]
  · simp [Transition.fits, hinput]

/-! ## What is refused at once -/

/-- What the automaton cannot read is refused, whatever is on the stack. -/
theorem refused_input {s : Symbol} (hs : s ∉ m.inputAlphabet) :
    m.applicable c (some s) = .error (.invalidSymbol s) ∧
      m.successors c (some s) = .error (.invalidSymbol s) := by
  have happlicable : m.applicable c (some s) = .error (.invalidSymbol s) := by
    simp [applicable, offer?, offer, hs, bind, Except.bind]
  refine ⟨happlicable, ?_⟩
  rw [successors, happlicable]
  rfl

/-- Without a top of the stack every move is refused, but for inputs that cannot be read anyway. -/
theorem refused_empty_stack (hinput : ∀ s ∈ input, s ∈ m.inputAlphabet) (hc : c.stack = []) :
    m.applicable c input = .error .stackUnderflow ∧
      m.successors c input = .error .stackUnderflow ∧
      ∀ t, m.fire c t = .error .stackUnderflow := by
  have htop : c.top? = none := by rw [Configuration.top?, hc, List.head?_nil]
  have happlicable : m.applicable c input = .error .stackUnderflow := by
    rw [applicable, offer?_eq_ok_iff.2 hinput, htop]
    rfl
  refine ⟨happlicable, ?_, fun t => ?_⟩
  · rw [successors, happlicable]
    rfl
  · rw [fire, htop]

/-! ## What is offered -/

/-- With something on the stack the successors are where firing leads. -/
theorem successors_eq (hinput : ∀ s ∈ input, s ∈ m.inputAlphabet) (hc : c.stack ≠ []) :
    m.successors c input =
      if m.fired c input = [] then .error .noApplicableTransition else .ok (m.fired c input) := by
  obtain ⟨top, below, hstack⟩ := List.exists_cons_of_ne_nil hc
  have htop : c.top? = some top := by simp [Configuration.top?, hstack]
  have happlicable := applicable_eq_ok_iff.2 ⟨hinput, top, htop, rfl⟩
  rw [fired_eq_map_move htop, successors, happlicable]
  cases m.transitions.filter fun t => t.fits c.state input top with
  | nil => rfl
  | cons t ts => rfl

/-- The two ways to move agree, on an automaton of any shape.

With something on the stack, and on no input or one that can be read, the successors are where the
automaton's own transitions lead that read this input and fire, in their order, and there are none
exactly if no such transition fires.  Without anything on the stack both ways are refused for want
of a top.  An input that cannot be read is refused before the stack is looked at, and a transition
that is not the automaton's own never fires. -/
theorem successors_agree_with_fire (m : Automaton) (c : Configuration) (input : Option Symbol) :
    ((∀ s ∈ input, s ∈ m.inputAlphabet) → c.stack ≠ [] →
      (∀ cs, m.successors c input = .ok cs ↔ cs = m.fired c input ∧ cs ≠ []) ∧
      (m.successors c input = .error .noApplicableTransition ↔ m.fired c input = [])) ∧
    ((∀ s ∈ input, s ∈ m.inputAlphabet) → c.stack = [] →
      m.applicable c input = .error .stackUnderflow ∧
      m.successors c input = .error .stackUnderflow ∧
      ∀ t, m.fire c t = .error .stackUnderflow) ∧
    (∀ s, input = some s → s ∉ m.inputAlphabet →
      m.applicable c input = .error (.invalidSymbol s) ∧
      m.successors c input = .error (.invalidSymbol s)) ∧
    ∀ t, t ∉ m.transitions → ∀ next, m.fire c t ≠ .ok next := by
  refine ⟨fun hinput hc => ?_, refused_empty_stack, ?_, fun t ht next hfire => ?_⟩
  · rw [successors_eq hinput hc]
    by_cases hnone : m.fired c input = []
    · rw [if_pos hnone, hnone]
      exact ⟨fun cs => by simp, by simp⟩
    · rw [if_neg hnone]
      refine ⟨fun cs => ?_, by simp [hnone]⟩
      rw [Except.ok.injEq, eq_comm]
      exact ⟨fun h => ⟨h, h ▸ hnone⟩, And.left⟩
  · rintro s rfl hs
    exact refused_input hs
  · exact ht (fire_eq_ok_iff.1 hfire).1

/-- An automaton that has one transition twice, and one that reads what is not in its alphabet. -/
def twofold : Automaton where
  states := ["p"]
  inputAlphabet := ["x"]
  stackAlphabet := ["Z"]
  transitions := [⟨"p", some "x", "Z", "p", []⟩, ⟨"p", some "x", "Z", "p", []⟩,
    ⟨"p", some "y", "Z", "p", ["Z"]⟩]
  start := "p"
  bottom := "Z"
  accepting := []

/-- On `x` one configuration is offered twice.  The input `y` cannot be read, although a transition
for it fires.  Without a top of the stack nothing is offered. -/
theorem twofold_successors :
    twofold.successors twofold.initial (some "x") = .ok [⟨"p", []⟩, ⟨"p", []⟩] ∧
      twofold.successors twofold.initial (some "y") = .error (.invalidSymbol "y") ∧
      twofold.fire twofold.initial ⟨"p", some "y", "Z", "p", ["Z"]⟩ = .ok twofold.initial ∧
      twofold.successors ⟨"p", []⟩ none = .error .stackUnderflow := by
  have hread : ∀ s ∈ (some "x" : Option Symbol), s ∈ twofold.inputAlphabet := by
    simp [twofold]
  obtain ⟨hoffered, -⟩ := successors_agree_with_fire twofold twofold.initial (some "x")
  obtain ⟨-, -, hinput, -⟩ := successors_agree_with_fire twofold twofold.initial (some "y")
  obtain ⟨-, hempty, -⟩ := successors_agree_with_fire twofold ⟨"p", []⟩ none
  refine ⟨?_, (hinput "y" rfl (by decide)).2, rfl, (hempty (by simp) rfl).2.1⟩
  exact ((hoffered hread (List.cons_ne_nil _ _)).1 _).2 ⟨by decide, List.cons_ne_nil _ _⟩

end Automaton

end ContextFree
