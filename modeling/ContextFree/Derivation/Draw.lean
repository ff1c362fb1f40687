/-!
# Drawing a number

Random choices are made from a source of 32-bit words.  A number below `n` is drawn from a word
`w` as the upper half of the 64-bit product `w * n`.  So that every number has the same chance,
a word counts only if the lower half of the product lies within `zone n`; any other word is
passed over.

The words that a source deals are a list, and zeros after its end.  The word zero always counts,
so every draw comes to an end.
-/

namespace ContextFree

/-- A source of 32-bit words: it deals the upcoming words in order and zeros after them.  `taken`
counts all words that were dealt, zeros included. -/
structure Words where
  upcoming : List UInt32
  taken : Nat := 0
deriving DecidableEq

namespace Words

/-- How many words there are: two to the power of 32. -/
def wordCount : Nat := 4294967296

theorem toNat_lt_wordCount (w : UInt32) : w.toNat < wordCount := w.toNat_lt

/-- The greatest lower half of a product for which the word counts: one less than `n` shifted
left until it fills 32 bits.  This is meant for fewer than `wordCount` numbers.  From there on a draw
would take 64 bits, and that is left out here. -/
def zone (n : Nat) : Nat := n <<< (31 - n.log2) - 1

/-- The upper half of the 64-bit product of a word and `n`. -/
def upperHalf (w : UInt32) (n : Nat) : Nat := w.toNat * n / wordCount

/-- Whether a word counts for a draw below `n`. -/
def counts (w : UInt32) (n : Nat) : Bool := w.toNat * n % wordCount ≤ zone n

theorem upperHalf_lt (w : UInt32) {n : Nat} (h : 0 < n) : upperHalf w n < n := by
  unfold upperHalf
  rw [Nat.div_lt_iff_lt_mul (by decide), Nat.mul_comm n]
  exact Nat.mul_lt_mul_of_pos_right (toNat_lt_wordCount w) h

/-- Draws a number below `n` from a list of words, of which `taken` words were taken before. -/
def drawFrom {n : Nat} (h : 0 < n) (taken : Nat) : List UInt32 → Fin n × Words
  | [] => (⟨0, h⟩, ⟨[], taken + 1⟩)
  | w :: rest =>
    if counts w n then (⟨upperHalf w n, upperHalf_lt w h⟩, ⟨rest, taken + 1⟩)
    else drawFrom h (taken + 1) rest

/-- Draws a number below `n`, and gives the source with the words that are left. -/
def draw (words : Words) {n : Nat} (h : 0 < n) : Fin n × Words :=
  drawFrom h words.taken words.upcoming

/-- Draws a member of a list that is not empty, each position with the same chance if there are
fewer than `wordCount` of them (see `zone`). -/
def choose {α : Type} (words : Words) (items : List α) (h : items ≠ []) : α × Words :=
  let (index, rest) := words.draw (List.length_pos_iff.2 h)
  (items.get index, rest)

end Words

end ContextFree
