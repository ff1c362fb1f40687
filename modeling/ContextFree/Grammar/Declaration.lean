import ContextFree.Grammar.Production
import ContextFree.Vocabulary.Split

/-!
# Declared grammars

A declaration gives two vocabularies, a start symbol and productions, and promises nothing about
them.  The first vocabulary holds the symbols that sentences are made of and is written `Vt`; the
second holds the symbols that productions replace and is written `Vh`.
-/

namespace ContextFree

/-- The parts of a grammar as they are declared, not yet checked against each other.  Sentences
are made of `inputs`, and productions replace `heads`. -/
structure Declaration where
  inputs : List Symbol
  heads : List Symbol
  start : Symbol
  rules : List Production
deriving DecidableEq

namespace Declaration

/-- All declared symbols, inputs first. -/
def vocabulary (d : Declaration) : Vocabulary := d.inputs ++ d.heads

/-- The productions for a symbol, in the order of declaration. -/
def rulesFor (d : Declaration) (s : Symbol) : List Production :=
  d.rules.filter fun p => p.expands s

theorem mem_rulesFor {d : Declaration} {s : Symbol} {p : Production} :
    p ∈ d.rulesFor s ↔ p ∈ d.rules ∧ p.head = s := by
  simp [rulesFor, Production.expands]

/-- A declaration is written as a grammar document: the two vocabularies, the start symbol, and
the productions, one on a line. -/
def render (d : Declaration) : Text :=
  "Vt = ".toList ++ Symbol.renderSet d.inputs ++ "\nVh = ".toList ++ Symbol.renderSet d.heads ++
    "\n\nstart: ".toList ++ d.start.text ++ "\n\nP:\n".toList ++
    d.rules.flatMap fun p => p.render ++ ['\n']

end Declaration

end ContextFree
