import ContextFree.Document.LoadError

/-!
# Tokens

A line of a grammar document is read as punctuation and words.  White space separates words and
means nothing else.  A word is a run of characters that are neither white space nor punctuation,
as long as it can be.  A dash is punctuation only as the start of an arrow and an error
elsewhere; the second character of an arrow may stand in words.
-/

namespace ContextFree

/-- A token of a grammar document. -/
inductive Token where
  | equals
  | comma
  | colon
  | openBrace
  | closeBrace
  | arrow
  | word (letters : Text)
deriving DecidableEq

namespace Token

/-- How a token is written. -/
def text : Token → Text
  | .equals => ['=']
  | .comma => [',']
  | .colon => [':']
  | .openBrace => ['\x7b']
  | .closeBrace => ['\x7d']
  | .arrow => ['-', '>']
  | .word letters => letters

/-- The token that a character is by itself. -/
def ofChar? (c : Char) : Option Token :=
  if c = '=' then some .equals
  else if c = ',' then some .comma
  else if c = ':' then some .colon
  else if c = '\x7b' then some .openBrace
  else if c = '\x7d' then some .closeBrace
  else none

/-- Whether a character can be part of a word. -/
def isWordChar (c : Char) : Bool := !isBlank c && (ofChar? c).isNone && c ≠ '-'

/-- The tokens of a line, unless it has a dash that does not begin an arrow. -/
def ofLine (line : Text) : Except LoadError (List Token) :=
  match line with
  | [] => .ok []
  | c :: rest =>
    if isBlank c then ofLine rest
    else if c = '-' then
      match rest with
      | '>' :: rest => (ofLine rest).map (.arrow :: ·)
      | _ => .error .strayDash
    else
      match ofChar? c with
      | some token => (ofLine rest).map (token :: ·)
      | none =>
        (ofLine (rest.dropWhile isWordChar)).map (.word (c :: rest.takeWhile isWordChar) :: ·)
termination_by line.length
decreasing_by
  all_goals
    have hlength := (List.dropWhile_sublist isWordChar (l := rest)).length_le
    simp only [List.length_cons]
    omega

end Token

end ContextFree
