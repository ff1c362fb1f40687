import ContextFree.Text.Basic

/-!
# Decimal numerals

Numbers on the command line are decimal numerals in ASCII digits.  Leading zeros are allowed, and
a sign may stand before the digits.
-/

namespace ContextFree

/-- The value of a digit. -/
def digit? (c : Char) : Option Nat := if c.isDigit then some (c.toNat - '0'.toNat) else none

namespace Text

/-- The number that digits write in base ten, after the number that the digits before them
write. -/
def digitsFrom (value : Nat) : Text → Option Nat
  | [] => some value
  | c :: rest => (digit? c).bind fun d => digitsFrom (10 * value + d) rest

/-- The number that a text of at least one digit writes. -/
def digits? (text : Text) : Option Nat := if text = [] then none else digitsFrom 0 text

/-- The number that digits write with or without a plus sign before them. -/
def natural? : Text → Option Nat
  | '+' :: rest => digits? rest
  | text => digits? text

/-- The number that digits write with or without a sign before them. -/
def integer? : Text → Option Int
  | '-' :: rest => (digits? rest).map fun n => -(n : Int)
  | text => (natural? text).map Int.ofNat

end Text

end ContextFree
