import ContextFree.Document.Place
import ContextFree.Grammar.Fault

/-!
# Errors of grammar documents

Everything that can be wrong with a grammar document: its bytes, a line of it, its sections, a
rule in it, or the grammar that it declares.
-/

namespace ContextFree

/-- The ways in which a file cannot be read. -/
inductive ReadFault.Kind where
  | notFound
  | notADirectory
  | nameTooLong
  | invalidName
  | invalidData
deriving DecidableEq

/-- A file, or a line of one, that cannot be read, and what the user is told about it. -/
structure ReadFault where
  kind : ReadFault.Kind
  description : String

/-- Read faults of one kind count as equal, whatever they say. -/
instance : BEq ReadFault := ⟨fun a b => a.kind = b.kind⟩

namespace ReadFault

/-- The fault of a file that does not exist. -/
def noSuchFile : ReadFault := ⟨.notFound, "No such file or directory (os error 2)"⟩

/-- The fault of a path that goes on after a file. -/
def throughFile : ReadFault := ⟨.notADirectory, "Not a directory (os error 20)"⟩

/-- The fault of a name that is longer than file names can be. -/
def longName : ReadFault := ⟨.nameTooLong, "File name too long (os error 36)"⟩

/-- The fault of a name with a NUL character in it, which would end the name. -/
def nulInName : ReadFault := ⟨.invalidName, "file name contained an unexpected NUL byte"⟩

/-- The fault of a line whose bytes are not UTF-8. -/
def notText : ReadFault := ⟨.invalidData, "stream did not contain valid UTF-8"⟩

end ReadFault

/-- What can be wrong with a grammar document. -/
inductive LoadError where
  | missingSeparator
  | unmatchedBrace
  | strayDash
  | unexpectedToken (token : Text)
  | unknownSection (name : Text)
  | duplicateSection (name : Text)
  | missingSection (name : Text)
  | ruleOutsideProductions
  | unknownSymbols (word : Text)
  | invalidGrammar (fault : Fault)
  | unreadable (fault : ReadFault)
deriving BEq

/-- The message for an error of a grammar document. -/
def LoadError.message : LoadError → String
  | .missingSeparator => "Expected `=`, `:` or `->` after the first word"
  | .unmatchedBrace => "Symbol sets must be written as `\x7b a, b, c \x7d`"
  | .strayDash => "Expected `>` after `-`"
  | .unexpectedToken token => "Unexpected `" ++ String.ofList token ++ "` encountered"
  | .unknownSection name => "Unknown section `" ++ String.ofList name ++ "`"
  | .duplicateSection name => "Section `" ++ String.ofList name ++ "` is given more than once"
  | .missingSection name => "Section `" ++ String.ofList name ++ "` is missing"
  | .ruleOutsideProductions => "Rules must come after `P:`"
  | .unknownSymbols word =>
    "Could not split `" ++ String.ofList word ++ "` into declared symbols"
  | .invalidGrammar fault => fault.message
  | .unreadable fault => "File error: " ++ fault.description

instance : ToString LoadError := ⟨LoadError.message⟩

end ContextFree
