import ContextFree.Symbol

/-!
# Splitting a text into symbols

A vocabulary is a list of symbols.  A text that spells a sequence of them is split back by taking
the longest symbol first, wherever the rest of the text can still be split.  The empty symbol
takes no part.

The splits of all ends of the text are computed from the shortest end to the whole text, so every
end is looked at once (`splitEnds`).
-/

namespace ContextFree

/-- A vocabulary is a list of symbols, in the order in which they are declared. -/
abbrev Vocabulary := List Symbol

namespace Vocabulary

/-- How the text after a symbol is split, given the splits of all proper ends of the text that
the symbol begins, longest end first. -/
def splitAfter (ends : List (Option (List Symbol))) (s : Symbol) : Option (List Symbol) :=
  ends[s.text.length - 1]?.join

/-- Whether a symbol is not empty, begins the text, and leaves an end that can be split. -/
def canBegin (text : Text) (ends : List (Option (List Symbol))) (s : Symbol) : Bool :=
  !s.text.isEmpty && (text.after? s.text).isSome && (splitAfter ends s).isSome

/-- The split of a text that is not empty, given the splits of its proper ends: the longest
symbol that can begin it, and then the split of what that symbol leaves. -/
def splitWith (v : Vocabulary) (text : Text) (ends : List (Option (List Symbol))) :
    Option (List Symbol) :=
  ((v.filter (canBegin text ends)).maxOn? fun s => s.text.length).bind fun s =>
    (splitAfter ends s).map (s :: ·)

/-- The splits of all ends of a text, from the whole text to the empty end. -/
def splitEnds (v : Vocabulary) : Text → List (Option (List Symbol))
  | [] => [some []]
  | c :: text =>
    let ends := splitEnds v text
    v.splitWith (c :: text) ends :: ends

/-- Splits a text into symbols of the vocabulary that are not empty.  Of all ways to do so it
takes the one whose first symbol is longest, and goes on like that after it. -/
def split? (v : Vocabulary) (text : Text) : Option (List Symbol) :=
  (v.splitEnds text).head?.join

end Vocabulary

end ContextFree
