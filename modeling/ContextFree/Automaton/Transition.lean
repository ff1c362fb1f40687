import ContextFree.Symbol

/-!
# Transitions

A transition of a stack automaton takes it from one state to another.  It may read an input
symbol, takes the top symbol off the stack, and puts a sequence of symbols in its place.
-/

namespace ContextFree

/-- A transition of a stack automaton.  It puts `push` on the stack so that the first symbol of it
is the new top. -/
structure Transition where
  source : Symbol
  input : Option Symbol
  top : Symbol
  target : Symbol
  push : List Symbol
deriving DecidableEq

namespace Transition

/-- Whether a transition leaves the given state with the given input and top of the stack. -/
def fits (t : Transition) (state : Symbol) (input : Option Symbol) (top : Symbol) : Bool :=
  t.source = state && t.input = input && t.top = top

/-- A transition is written as `(state, input, top) -> (state, push)`, where the mark for nothing
stands for an input that is not read. -/
def render (t : Transition) : Text :=
  ['('] ++ t.source.text ++ [',', ' '] ++ (t.input.getD Symbol.nothing).text ++ [',', ' '] ++
    t.top.text ++ ") -> (".toList ++ t.target.text ++ [',', ' '] ++ Symbol.spell t.push ++ [')']

end Transition

end ContextFree
