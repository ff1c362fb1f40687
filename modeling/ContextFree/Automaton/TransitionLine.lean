import ContextFree.Automaton.Transition
import ContextFree.Text.Blank
import ContextFree.Vocabulary.Split

/-!
# Reading transitions

`Transition.ofLine` reads back what `Transition.render` writes.  White space around the two
halves does not matter.  The pushed symbols are written without anything between them, so they
are split over a vocabulary.
-/

namespace ContextFree

/-- Why a line is not a transition. -/
inductive TransitionError where
  | missingArrow
  | missingParentheses
  | fieldCount
  | unknownSymbols (text : Text)
deriving DecidableEq

/-- The message for a line that is not a transition. -/
def TransitionError.message : TransitionError → String
  | .missingArrow => "Expected `->` between the two halves of a transition"
  | .missingParentheses => "Transition halves must be parenthesised"
  | .fieldCount => "Expected `(state, input, top) -> (state, push)`"
  | .unknownSymbols text => "Could not split `" ++ String.ofList text ++ "` into known symbols"

instance : ToString TransitionError := ⟨TransitionError.message⟩

namespace Transition

/-- What stands between the parentheses of a half. -/
def unwrap? (half : Text) : Option Text :=
  match half.trim with
  | '(' :: rest => if rest.getLast? = some ')' then some rest.dropLast else none
  | _ => none

/-- The separator between the fields of a half. -/
def fieldSeparator : Text := [',', ' ']

/-- The three fields of the left half: the separator occurs exactly twice. -/
def leftFields? (half : Text) : Option (Text × Text × Text) := do
  let (state, rest) ← half.cut? fieldSeparator
  let (input, top) ← rest.cut? fieldSeparator
  if (top.cut? fieldSeparator).isNone then some (state, input, top) else none

/-- The input symbol that a field names: none if it is the mark for nothing. -/
def inputOfField (field : Text) : Option Symbol :=
  if field = Symbol.nothing.text then none else some ⟨field⟩

/-- The transition that a line describes, with the pushed symbols split over a vocabulary.
Of several faults the first in this order is reported: the arrow, the parentheses, the fields,
the pushed symbols. -/
def ofLine (v : Vocabulary) (line : Text) : Except TransitionError Transition := do
  let some (left, right) := line.cut? " -> ".toList | throw .missingArrow
  let some left := unwrap? left | throw .missingParentheses
  let some right := unwrap? right | throw .missingParentheses
  let some (source, input, top) := leftFields? left | throw .fieldCount
  let some (target, pushed) := right.cut? fieldSeparator | throw .fieldCount
  let some push := v.split? pushed | throw (.unknownSymbols pushed)
  return ⟨⟨source⟩, inputOfField input, ⟨top⟩, ⟨target⟩, push⟩

end Transition

end ContextFree
