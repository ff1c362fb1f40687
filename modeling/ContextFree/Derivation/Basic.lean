import ContextFree.Grammar.Fault

/-!
# Leftmost derivations

A sentential form is a list of symbols.  A derivation step replaces one symbol of a form by the
body of a production for it; in a leftmost derivation that symbol is always the first one that
has a production at all (`redex?`).
-/

namespace ContextFree

/-- A sentential form: the symbols that a derivation has reached. -/
abbrev Form := List Symbol

/-- The forms of a derivation, first form first, and the productions that lead from each form to
the next. -/
structure Derivation where
  forms : List Form
  rules : List Production
deriving DecidableEq

namespace Derivation

/-- The form that a derivation ends with. -/
def sentence (d : Derivation) : Form := d.forms.getLast?.getD []

/-- A derivation is written as the spellings of its forms with arrows between them. -/
def render (d : Derivation) : Text :=
  [' ', '=', '>', ' '].intercalate (d.forms.map Symbol.spell)

end Derivation

/-- The place in a form where a step happens: the symbol that is replaced and what stands on both
sides of it. -/
structure Redex where
  before : Form
  head : Symbol
  after : Form
deriving DecidableEq

namespace Redex

/-- The form with the symbol still in its place. -/
def form (r : Redex) : Form := r.before ++ r.head :: r.after

/-- The form with a body in the place of the symbol. -/
def fill (r : Redex) (body : List Symbol) : Form := r.before ++ body ++ r.after

end Redex

/-- The first symbol of a form that has a production, with what stands around it. -/
def Declaration.redex? (d : Declaration) : Form → Option Redex
  | [] => none
  | s :: rest =>
    if d.rulesFor s ≠ [] then some ⟨[], s, rest⟩
    else (d.redex? rest).map fun r => { r with before := s :: r.before }

/-- There is no place for a step exactly if no symbol of the form has a production. -/
theorem Declaration.redex?_eq_none_iff {d : Declaration} {form : Form} :
    d.redex? form = none ↔ ∀ s ∈ form, d.rulesFor s = [] := by
  induction form with
  | nil => simp [redex?]
  | cons s rest ih =>
    rw [redex?]
    split
    · next hs => simpa using fun h => absurd h hs
    · next hs =>
      have hnone : d.rulesFor s = [] := by simpa using hs
      simp [ih, hnone]

/-- What `redex?` finds is a place in the form, its symbol has a production, and no symbol before
it has one. -/
theorem Declaration.redex?_eq_some {d : Declaration} {form : Form} {r : Redex}
    (h : d.redex? form = some r) :
    r.form = form ∧ d.rulesFor r.head ≠ [] ∧ ∀ s ∈ r.before, d.rulesFor s = [] := by
  induction form generalizing r with
  | nil => simp [redex?] at h
  | cons s rest ih =>
    rw [redex?] at h
    split at h
    · next hs =>
      obtain rfl := Option.some.inj h
      simpa [Redex.form] using hs
    · next hs =>
      obtain ⟨q, hq, rfl⟩ := Option.map_eq_some_iff.1 h
      obtain ⟨hform, hhead, hbefore⟩ := ih hq
      refine ⟨by simpa [Redex.form] using hform, hhead, ?_⟩
      simpa using ⟨by simpa using hs, hbefore⟩

end ContextFree
