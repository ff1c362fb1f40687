import ContextFree.Document.Outline
import ContextFree.Text.Lines

/-!
# Loading grammar documents

A document is read line by line.  Blank lines and lines that start with a semicolon say nothing,
but they count when lines are numbered.  What can be wrong is reported in three stages, and each
stage is entered only if the one before it went well:

* lines that are not text or are no statement, in the order of the lines;
* sections that are unknown, repeated or missing, and rules whose bodies cannot be split;
* the faults of the declared grammar.

A document comes as text or as the bytes of a file.  Bytes are cut into lines first, so that a
line that is not text is an error of its own and the other lines are still read.
-/

namespace ContextFree

/-- The errors in a list of outcomes, in order. -/
def errorsOf {ε α : Type} (outcomes : List (Except ε α)) : List ε :=
  outcomes.filterMap fun
    | .ok _ => none
    | .error e => some e

/-- The values in a list of outcomes, in order. -/
def valuesOf {ε α : Type} (outcomes : List (Except ε α)) : List α :=
  outcomes.filterMap fun
    | .ok a => some a
    | .error _ => none

namespace Document

/-- Whether a line says something: it is neither blank nor a comment. -/
def isContent (line : Text) : Bool :=
  match line.trimStart with
  | [] => false
  | c :: _ => c ≠ ';'

/-- Whether a line takes part in a document.  A line that could not be read does. -/
def takesPart : Except ReadFault Text → Bool
  | .ok line => isContent line
  | .error _ => true

/-- What a numbered line says.  A line that could not be read is an error of the whole file. -/
def readLine (file : FileName) :
    Nat × Except ReadFault Text → Except (Located LoadError) (Nat × Statement)
  | (_, .error fault) => .error ⟨.unreadable fault, ⟨file, 0⟩⟩
  | (number, .ok line) =>
    match Statement.ofLine line with
    | .ok statement => .ok (number, statement)
    | .error e => .error ⟨e, ⟨file, number⟩⟩

/-- The declaration that an outline gives over its vocabularies, or the errors in its rules. -/
def declare (file : FileName) (inputs heads : List Symbol) (start : Symbol)
    (rules : List (Nat × RuleLine)) : Except (List (Located LoadError)) Declaration :=
  let outcomes := rules.map fun (number, rule) =>
    match rule.resolve (inputs ++ heads) with
    | .ok p => .ok p
    | .error e => .error (⟨e, ⟨file, number⟩⟩ : Located LoadError)
  match errorsOf outcomes with
  | [] => .ok ⟨inputs, heads, start, valuesOf outcomes⟩
  | errors => .error errors

/-- The grammar that numbered statements declare, or what is wrong with them.  Bodies are only
looked at when both vocabularies and the start symbol were given. -/
def assemble (file : FileName) (statements : List (Nat × Statement)) :
    Except (List (Located LoadError)) Grammar :=
  let (outline, refused) := Outline.addAll {} statements
  let errors : List (Located LoadError) :=
    refused.map (fun (number, e) => ⟨e, ⟨file, number⟩⟩) ++
      outline.missing.map fun name => ⟨.missingSection name, ⟨file, 0⟩⟩
  match outline.inputs, outline.heads, outline.start with
  | some inputs, some heads, some start =>
    match errors, declare file inputs heads start outline.rules with
    | [], .ok declaration =>
      declaration.check.mapError fun faults =>
        faults.map fun fault => ⟨.invalidGrammar fault, ⟨file, 0⟩⟩
    | errors, .ok _ => .error errors
    | errors, .error more => .error (errors ++ more)
  | _, _, _ => .error errors

/-- The grammar of a document that is given by its lines, or what is wrong with it. -/
def load (file : FileName) (lines : List (Except ReadFault Text)) :
    Except (List (Located LoadError)) Grammar :=
  let outcomes := ((numbered lines).filter fun (_, line) => takesPart line).map (readLine file)
  match errorsOf outcomes with
  | [] => assemble file (valuesOf outcomes)
  | errors => .error errors

/-- The grammar of a document that is given as text. -/
def loadText (file : FileName) (text : Text) : Except (List (Located LoadError)) Grammar :=
  load file (text.lines.map .ok)

/-- The text that bytes encode in UTF-8. -/
def decodeLine (bytes : List UInt8) : Except ReadFault Text :=
  match String.fromUTF8? bytes.toByteArray with
  | some text => .ok text.toList
  | none => .error .notText

/-- The grammar of a document that is given as the bytes of a file. -/
def loadBytes (file : FileName) (bytes : List UInt8) :
    Except (List (Located LoadError)) Grammar :=
  load file ((lines 10 13 bytes).map decodeLine)

/-- The grammar of a file, given what reading the file came to. -/
def loadFile (file : FileName) (content : Except ReadFault (List UInt8)) :
    Except (List (Located LoadError)) Grammar :=
  match content with
  | .ok bytes => loadBytes file bytes
  | .error fault => .error [⟨.unreadable fault, ⟨file, 0⟩⟩]

end Document

end ContextFree
