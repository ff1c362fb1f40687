import ContextFree.Text.Basic

/-!
# Symbols

Grammars and automata are made of symbols, and a symbol is nothing but the text that spells it.
States of an automaton are symbols as well, since a grammar's start symbol can be a start state.

A sequence of symbols is written without anything between them (`spell`), a set of symbols in
braces and with commas (`renderSet`).  Two symbols have a meaning of their own: `Symbol.bottom`
marks the bottom of a stack, and `Symbol.nothing` stands where no symbol is read.
-/

namespace ContextFree

/-- A symbol is the text that spells it. -/
structure Symbol where
  text : Text
deriving DecidableEq, Inhabited

namespace Symbol

/-- The symbol that a string spells. -/
def ofString (s : String) : Symbol := ⟨s.toList⟩

instance : Coe String Symbol := ⟨ofString⟩

instance : ToString Symbol := ⟨fun s => String.ofList s.text⟩

/-- Symbols with the same letters are the same. -/
theorem eq_of_text_eq {a b : Symbol} (h : a.text = b.text) : a = b := by
  cases a
  exact congrArg Symbol.mk h

/-- The marker at the bottom of every stack of an automaton made from a grammar. -/
def bottom : Symbol := ⟨['Z', '0']⟩

/-- The mark for an empty word: an input that reads nothing, a body without symbols. -/
def nothing : Symbol := ⟨['ε']⟩

/-! ## Writing symbols -/

/-- A sequence of symbols is spelled by writing them one after the other. -/
def spell (symbols : List Symbol) : Text := symbols.flatMap text

@[simp] theorem spell_nil : spell [] = [] := rfl

@[simp] theorem spell_cons (s : Symbol) (rest : List Symbol) :
    spell (s :: rest) = s.text ++ spell rest := rfl

@[simp] theorem spell_append (first second : List Symbol) :
    spell (first ++ second) = spell first ++ spell second := by
  simp [spell]

/-- A set of symbols is written in braces, with commas between the members. -/
def renderSet (symbols : List Symbol) : Text :=
  "\x7b ".toList ++ [',', ' '].intercalate (symbols.map text) ++ " \x7d".toList

/-! ## Order -/

/-- The members of a list of symbols in ascending order, each of them once. -/
def ascending (symbols : List Symbol) : List Symbol :=
  (symbols.mergeSort fun a b => (a.text.order b.text).isLE).eraseReps

end Symbol

end ContextFree
