import ContextFree.Text.Basic

/-!
# Lines

Where a line ends is decided the same way for characters and for bytes, so `lines` is about a
list of anything that has a line feed and a carriage return.
-/

namespace ContextFree

variable {α : Type} [DecidableEq α]

/-- The lines of a list.  A line ends with a line feed `lf`, which is dropped together with one
`cr` right before it.  What follows the last line feed is a line unless it is empty, and keeps
every `cr`. -/
def lines (lf cr : α) : List α → List (List α)
  | [] => []
  | a :: rest =>
    if a = lf then [] :: lines lf cr rest
    else if a = cr ∧ rest.head? = some lf then lines lf cr rest
    else
      match lines lf cr rest with
      | [] => [[a]]
      | line :: others => (a :: line) :: others

/-- The lines of a text, each of which ends at a line feed. -/
def Text.lines (text : Text) : List Text := ContextFree.lines '\n' '\r' text

/-- Items numbered from one. -/
def numbered {β : Type} (items : List β) : List (Nat × β) :=
  items.zipIdx 1 |>.map fun (item, number) => (number, item)

end ContextFree
