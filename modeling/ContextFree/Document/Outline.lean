import ContextFree.Document.Statement

/-!
# Outlines

An outline is what the statements of a document add up to: the sections that were given, and the
rules with the numbers of their lines.  Statements may come in any order, except that rules come
after the section that announces them.  A section that is given twice is an error, and its last
content counts.
-/

namespace ContextFree

/-- The sections of a document as far as they were given.  Rules come after they were announced,
with the numbers of their lines. -/
structure Outline where
  inputs : Option (List Symbol) := none
  heads : Option (List Symbol) := none
  start : Option Symbol := none
  announced : Bool := false
  rules : List (Nat × RuleLine) := []
deriving DecidableEq

namespace Outline

/-- The error of giving a section that was given before. -/
def repeated {α : Type} (before : Option α) (name : Text) : Option LoadError :=
  if before.isSome then some (.duplicateSection name) else none

/-- Adds what the line with the given number says, and tells what is wrong with that. -/
def add (o : Outline) (number : Nat) : Statement → Outline × Option LoadError
  | .vocabulary name symbols =>
    if name = SectionName.inputs then
      ({ o with inputs := some symbols }, repeated o.inputs name)
    else if name = SectionName.heads then
      ({ o with heads := some symbols }, repeated o.heads name)
    else (o, some (.unknownSection name))
  | .start symbol => ({ o with start := some symbol }, repeated o.start SectionName.start)
  | .productions =>
    ({ o with announced := true },
      if o.announced then some (.duplicateSection SectionName.productions) else none)
  | .rule rule =>
    if o.announced then ({ o with rules := o.rules ++ [(number, rule)] }, none)
    else (o, some .ruleOutsideProductions)

/-- Adds numbered statements in order, and collects what is wrong with them by line. -/
def addAll (o : Outline) : List (Nat × Statement) → Outline × List (Nat × LoadError)
  | [] => (o, [])
  | (number, statement) :: rest =>
    let (next, error) := o.add number statement
    let (last, errors) := next.addAll rest
    (last, error.toList.map (number, ·) ++ errors)

/-- The names of the sections that were not given. -/
def missing (o : Outline) : List Text :=
  (if o.inputs.isNone then [SectionName.inputs] else []) ++
    (if o.heads.isNone then [SectionName.heads] else []) ++
    (if o.start.isNone then [SectionName.start] else []) ++
    if o.announced then [] else [SectionName.productions]

end Outline

/-- The symbols of a body.  The mark for nothing alone is the empty body; otherwise each word is
split over the vocabulary, and the first word that cannot be split is an error. -/
def RuleLine.resolve (v : Vocabulary) (rule : RuleLine) : Except LoadError Production :=
  if rule.words = [Symbol.nothing.text] then .ok ⟨rule.head, []⟩
  else do
    let parts ← rule.words.mapM fun word =>
      match v.split? word with
      | some symbols => .ok symbols
      | none => .error (.unknownSymbols word)
    return ⟨rule.head, parts.flatten⟩

end ContextFree
