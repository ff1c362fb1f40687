import ContextFree.Symbol

/-!
# Productions

A production says that its head may be replaced by its body.  It is written as the head, an
arrow, and the spelling of the body.
-/

namespace ContextFree

/-- A production replaces its head by its body. -/
structure Production where
  head : Symbol
  body : List Symbol
deriving DecidableEq

namespace Production

/-- Whether a production replaces the given symbol. -/
def expands (p : Production) (s : Symbol) : Bool := p.head = s

/-- Whether a production replaces its head by nothing. -/
def isErasing (p : Production) : Bool := p.body.isEmpty

/-- A production is written as `head -> body`. -/
def render (p : Production) : Text := p.head.text ++ " -> ".toList ++ Symbol.spell p.body

end Production

end ContextFree
