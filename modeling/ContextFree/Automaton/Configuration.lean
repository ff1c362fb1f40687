import ContextFree.Automaton.Transition

/-!
# Configurations

A configuration is where a run of a stack automaton stands: the state and the stack.  What is
left of the input is not part of it.  The stack is kept with its top first, so that a move takes
the head of the list and `move_stack` is an equation between lists.
-/

namespace ContextFree

/-- A state and a stack, its top first. -/
structure Configuration where
  state : Symbol
  stack : List Symbol
deriving DecidableEq

namespace Configuration

/-- The configuration with the given state and the stack given from the bottom to the top. -/
def ofBottomFirst (state : Symbol) (stack : List Symbol) : Configuration := ⟨state, stack.reverse⟩

/-- The stack from the bottom to the top. -/
def bottomFirst (c : Configuration) : List Symbol := c.stack.reverse

/-- The top of the stack. -/
def top? (c : Configuration) : Option Symbol := c.stack.head?

/-- Where a transition leads: it enters its target, and its symbols take the place of the top. -/
def move (c : Configuration) (t : Transition) : Configuration :=
  ⟨t.target, t.push ++ c.stack.tail⟩

@[simp] theorem move_state (c : Configuration) (t : Transition) :
    (c.move t).state = t.target := rfl

@[simp] theorem move_stack (c : Configuration) (t : Transition) :
    (c.move t).stack = t.push ++ c.stack.tail := rfl

/-- A configuration is written as `(state, stack)` with the top of the stack first. -/
def render (c : Configuration) : Text :=
  ['('] ++ c.state.text ++ [',', ' '] ++ Symbol.spell c.stack ++ [')']

end Configuration

end ContextFree
