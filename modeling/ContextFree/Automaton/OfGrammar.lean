import ContextFree.Automaton.Basic
import ContextFree.Grammar.Fault

/-!
# The automaton of a grammar

A grammar gives an automaton that follows leftmost derivations on its stack.  It has three
states.  From `opening` it puts the start symbol on the stack; in `working` each production is a
transition that reads the first symbol of the body, takes the head off the stack and puts the
rest of the body there; and once only the bottom marker is left it may enter `closing`, where it
accepts.

The start state is by default the grammar's start symbol, from which nothing moves.  Only with
`fromOpening` does a run begin in `opening`.
-/

namespace ContextFree

namespace Automaton

/-- The state from which the start symbol is put on the stack. -/
def opening : Symbol := ⟨['a', '0']⟩

/-- The state in which productions are followed. -/
def working : Symbol := ⟨['a', '1']⟩

/-- The state in which the automaton accepts. -/
def closing : Symbol := ⟨['a', '*']⟩

end Automaton

open Automaton

/-- The transition that follows a production: it reads the first symbol of the body, if there is
one, and puts the rest of the body in the place of the head. -/
def Production.toTransition (p : Production) : Transition :=
  ⟨working, p.body.head?, p.head, working, p.body.tail⟩

namespace Declaration

/-- The transition that puts the start symbol on the stack. -/
def openingTransition (d : Declaration) : Transition :=
  ⟨opening, none, Symbol.bottom, working, [d.start, Symbol.bottom]⟩

/-- The transition that accepts once only the bottom marker is left. -/
def closingTransition : Transition := ⟨working, none, Symbol.bottom, closing, [Symbol.bottom]⟩

/-- The transitions of a declaration's automaton: the opening one, the closing one, and those of
the productions in the order of declaration. -/
def transitions (d : Declaration) : List Transition :=
  d.openingTransition :: closingTransition :: d.rules.map Production.toTransition

theorem mem_transitions {d : Declaration} {t : Transition} :
    t ∈ d.transitions ↔
      t = d.openingTransition ∨ t = closingTransition ∨ ∃ p ∈ d.rules, t = p.toTransition := by
  simp [transitions, eq_comm]

end Declaration

/-- The automaton that follows the derivations of a grammar.  With `fromOpening` its runs start
in the state `opening`, and otherwise in the grammar's start symbol. -/
def Grammar.automaton (g : Grammar) (fromOpening : Bool) : Automaton where
  states := [opening, working, closing]
  inputAlphabet := g.inputs
  stackAlphabet := g.heads ++ [Symbol.bottom]
  transitions := g.transitions
  start := if fromOpening then opening else g.start
  bottom := Symbol.bottom
  accepting := [closing]

end ContextFree
