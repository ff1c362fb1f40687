import ContextFree.Document.Token

/-!
# Statements

A line of a grammar document says one of four things: it lists a vocabulary, gives the start
symbol, opens the section of rules, or states a rule.  The body of a rule is kept as the words of
the line, because it can only be split into symbols when both vocabularies are known.
-/

namespace ContextFree

/-- A rule as it stands on its line, its body not yet split into symbols. -/
structure RuleLine where
  head : Symbol
  words : List Text
deriving DecidableEq

/-- What a line of a grammar document says. -/
inductive Statement where
  | vocabulary (name : Text) (symbols : List Symbol)
  | start (symbol : Symbol)
  | productions
  | rule (rule : RuleLine)
deriving DecidableEq

/-! ## The names of sections -/

namespace SectionName

/-- The section of the symbols that sentences are made of. -/
def inputs : Text := ['V', 't']

/-- The section of the symbols that rules replace. -/
def heads : Text := ['V', 'h']

/-- The section of the start symbol. -/
def start : Text := ['s', 't', 'a', 'r', 't']

/-- The section of the rules. -/
def productions : Text := ['P']

end SectionName

/-! ## Reading statements -/

/-- The letters of a word; any other token does not belong where a word is expected. -/
def Token.expectWord : Token → Except LoadError Text
  | .word letters => .ok letters
  | token => .error (.unexpectedToken token.text)

namespace Statement

/-- The symbol that the tokens between two commas of a set give: they have to be one word. -/
def member : List Token → Except LoadError Symbol
  | [] => .error (.unexpectedToken Token.comma.text)
  | [.word letters] => .ok ⟨letters⟩
  | .word _ :: token :: _ => .error (.unexpectedToken token.text)
  | token :: _ => .error (.unexpectedToken token.text)

/-- The members of a set, given the tokens between its braces. -/
def members (inner : List Token) : Except LoadError (List Symbol) :=
  if inner = [] then .ok [] else (inner.splitOn .comma).mapM member

/-- The members of a set, which is written in braces. -/
def symbolSet : List Token → Except LoadError (List Symbol)
  | .openBrace :: rest =>
    if rest.getLast? = some .closeBrace then members rest.dropLast else .error .unmatchedBrace
  | _ => .error .unmatchedBrace

/-- What a line with a colon says, given the name before the colon and the tokens after it. -/
def ofColon (name : Text) (rest : List Token) : Except LoadError Statement :=
  if name = SectionName.start then
    match rest with
    | [] => .error (.missingSection SectionName.start)
    | [token] => token.expectWord.map fun letters => .start ⟨letters⟩
    | _ :: token :: _ => .error (.unexpectedToken token.text)
  else if name = SectionName.productions then
    match rest with
    | [] => .ok .productions
    | token :: _ => .error (.unexpectedToken token.text)
  else .error (.unknownSection name)

/-- What a line says.  Its first token has to be a word, and the second one tells what kind of
statement it is. -/
def ofTokens : List Token → Except LoadError Statement
  | [] => .error .missingSeparator
  | first :: rest => do
    let name ← first.expectWord
    match rest with
    | .equals :: rest => return .vocabulary name (← symbolSet rest)
    | .colon :: rest => ofColon name rest
    | .arrow :: rest => return .rule ⟨⟨name⟩, ← rest.mapM Token.expectWord⟩
    | _ => throw .missingSeparator

/-- What the text of a line says. -/
def ofLine (line : Text) : Except LoadError Statement := Token.ofLine line >>= ofTokens

end Statement

end ContextFree
