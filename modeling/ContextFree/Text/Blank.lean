import ContextFree.Text.Basic

/-!
# White space

The characters that separate words are those with the Unicode property `White_Space`, twenty-five
of them.  They end words in a grammar document, may surround the halves of a transition, and may
not occur in a declared symbol.
-/

namespace ContextFree

/-- The code points with the property `White_Space`, as ranges with both ends included. -/
def blankRanges : List (Nat × Nat) :=
  [(0x09, 0x0D), (0x20, 0x20), (0x85, 0x85), (0xA0, 0xA0), (0x1680, 0x1680), (0x2000, 0x200A),
    (0x2028, 0x2029), (0x202F, 0x202F), (0x205F, 0x205F), (0x3000, 0x3000)]

/-- Whether a character is white space. -/
def isBlank (c : Char) : Bool :=
  blankRanges.any fun (low, high) => low ≤ c.toNat && c.toNat ≤ high

namespace Text

/-- A text without the white space at its start. -/
def trimStart (text : Text) : Text := text.dropWhile isBlank

/-- A text without the white space at its end. -/
def trimEnd (text : Text) : Text := (text.reverse.dropWhile isBlank).reverse

/-- A text without the white space at both ends. -/
def trim (text : Text) : Text := text.trimStart.trimEnd

end Text

end ContextFree
