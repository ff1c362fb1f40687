import ContextFree.Grammar.Declaration
import ContextFree.Text.Blank
import ContextFree.Vocabulary.Decodable

/-!
# Faults of a declaration

What can be wrong with a declared grammar, and the list of all that is wrong with one.  The order
is fixed: symbols declared more than once, symbols that the automaton reserves, symbols that
cannot be written, the vocabulary as a whole, the start symbol, and then the productions one by
one.  A `Grammar` is a declaration without faults.
-/

namespace ContextFree

/-- What can be wrong with a declared grammar, with the symbol that it is about. -/
inductive Fault where
  | duplicateSymbol (s : Symbol)
  | reservedSymbol (s : Symbol)
  | malformedSymbol (s : Symbol)
  | ambiguousVocabulary
  | undefinedStart (s : Symbol)
  | undefinedHead (s : Symbol)
  | undefinedSymbol (s : Symbol)
deriving DecidableEq

/-- The message for a fault. -/
def Fault.message : Fault → String
  | .duplicateSymbol s => "Symbol `" ++ toString s ++ "` is declared more than once"
  | .reservedSymbol s => "Symbol `" ++ toString s ++ "` is reserved by the automaton"
  | .malformedSymbol s =>
    "Symbol `" ++ toString s ++ "` is empty or contains whitespace or punctuation"
  | .ambiguousVocabulary => "Some concatenation of symbols can be split in more than one way"
  | .undefinedStart s => "Start symbol `" ++ toString s ++ "` is not declared in Vh"
  | .undefinedHead s => "Rule head `" ++ toString s ++ "` is not declared in Vh"
  | .undefinedSymbol s => "Could not find declaration for `" ++ toString s ++ "`"

instance : ToString Fault := ⟨Fault.message⟩

/-! ## Faults of single symbols -/

namespace Symbol

/-- The members of a list that stand after an equal member or are among the given symbols. -/
def repeatsAfter (seen : List Symbol) : List Symbol → List Symbol
  | [] => []
  | s :: rest =>
    if s ∈ seen then s :: repeatsAfter seen rest else repeatsAfter (s :: seen) rest

/-- The symbols that only the automaton may use. -/
def reserved : List Symbol := [bottom, nothing]

/-- The characters that a grammar document or a transition gives a meaning of their own. -/
def punctuation : List Char := ['=', ',', ':', '\x7b', '\x7d', '-', ';', '(', ')']

/-- Whether a symbol is empty or has a character that separates words. -/
def isMalformed (s : Symbol) : Bool :=
  s.text.isEmpty || s.text.any fun c => isBlank c || punctuation.contains c

end Symbol

/-! ## Faults of a declaration -/

namespace Declaration

/-- The faults of the vocabularies: of single symbols first, then of all of them together with
the bottom marker, which shares stacks with them. -/
def vocabularyFaults (d : Declaration) : List Fault :=
  (Symbol.repeatsAfter [] d.vocabulary).map .duplicateSymbol ++
    (d.vocabulary.filter (Symbol.reserved.contains ·)).map .reservedSymbol ++
    (d.vocabulary.filter Symbol.isMalformed).map .malformedSymbol ++
    if Vocabulary.isDecodable (d.vocabulary ++ [Symbol.bottom]) then [] else [.ambiguousVocabulary]

/-- The fault of the start symbol, if it has one. -/
def startFaults (d : Declaration) : List Fault :=
  if d.start ∈ d.heads then [] else [.undefinedStart d.start]

/-- The faults of one production: its head first, then its body from left to right. -/
def ruleFaults (d : Declaration) (p : Production) : List Fault :=
  (if p.head ∈ d.heads then [] else [.undefinedHead p.head]) ++
    (p.body.filter (· ∉ d.vocabulary)).map .undefinedSymbol

/-- All faults of a declaration. -/
def faults (d : Declaration) : List Fault :=
  d.vocabularyFaults ++ d.startFaults ++ d.rules.flatMap d.ruleFaults

end Declaration

/-! ## Grammars -/

/-- A grammar is a declaration without faults. -/
structure Grammar extends Declaration where
  faults_eq_nil : toDeclaration.faults = []

instance : DecidableEq Grammar := fun g h =>
  decidable_of_iff (g.toDeclaration = h.toDeclaration)
    ⟨fun heq => by cases g; cases h; cases heq; rfl, fun heq => heq ▸ rfl⟩

/-- The grammar that a declaration gives, or all that is wrong with it. -/
def Declaration.check (d : Declaration) : Except (List Fault) Grammar :=
  if h : d.faults = [] then .ok ⟨d, h⟩ else .error d.faults

/-- Checking adds nothing to a declaration and takes nothing away. -/
theorem Declaration.check_eq_ok_iff {d : Declaration} {g : Grammar} :
    d.check = .ok g ↔ d = g.toDeclaration := by
  unfold check
  constructor
  · intro h
    split at h
    · exact Except.ok.inj h ▸ rfl
    · simp at h
  · rintro rfl
    rw [dif_pos g.faults_eq_nil]

/-- A declaration is refused with all of its faults, and only if it has some. -/
theorem Declaration.check_eq_error_iff {d : Declaration} {faults : List Fault} :
    d.check = .error faults ↔ d.faults = faults ∧ faults ≠ [] := by
  unfold check
  constructor
  · intro h
    split at h
    · simp at h
    · next hne => exact Except.error.inj h ▸ ⟨rfl, hne⟩
  · rintro ⟨rfl, hne⟩
    rw [dif_neg hne]

end ContextFree
