import ContextFree.Proofs.Document.Rules
import ContextFree.Proofs.Document.Statement
import ContextFree.Proofs.Document.TokenLine

/-!
# What a list of tokens says

`Statement.tokens` spells every statement, and `Statement.ofTokens_tokens` reads the spelling back.
This module goes the other way: whatever is read from a list of tokens, the list is the spelling of
it.  Each function that takes tokens apart has a lemma that puts them together again.

* `Statement.ofTokens_spelled` says which lists of tokens say something, and that all others are
  refused.
* `Statement.ofLine_eq_ok_iff` says the same of lines.
-/

namespace ContextFree

/-! ## Words -/

namespace Token

theorem expectWord_eq_ok_iff {t : Token} {letters : Text} :
    t.expectWord = .ok letters ↔ t = .word letters := by
  cases t <;> simp [expectWord]

theorem mapM_expectWord_eq_ok_iff {ts : List Token} {words : List Text} :
    ts.mapM expectWord = .ok words ↔ ts = words.map .word := by
  simp only [mapM_eq_ok_iff, expectWord_eq_ok_iff]
  rw [← List.forall₂_eq_eq_eq, List.forall₂_map_right_iff]

end Token

namespace Statement

variable {ts rest : List Token} {s : Statement} {symbols : List Symbol}

/-! ## Sets -/

/-- What is a member of a set is one word. -/
theorem member_eq_ok_iff {item : List Token} {s : Symbol} :
    member item = .ok s ↔ item = [.word s.text] := by
  constructor
  · intro h
    unfold member at h
    split at h
    · simp at h
    · next letters =>
      obtain rfl := Except.ok.inj h
      rfl
    · simp at h
    · simp at h
  · rintro rfl
    rfl

/-- Members are read only from words with single commas between them. -/
theorem eq_memberTokens (h : members ts = .ok symbols) : ts = memberTokens symbols := by
  rw [members] at h
  split at h
  · next hnil =>
    obtain rfl := Except.ok.inj h
    exact hnil
  · simp only [mapM_eq_ok_iff, member_eq_ok_iff] at h
    have hsplit : ts.splitOn .comma = symbols.map fun s => [.word s.text] := by
      rwa [← List.forall₂_eq_eq_eq, List.forall₂_map_right_iff]
    rw [memberTokens, ← hsplit, List.intercalate_splitOn]

/-- A set is read only from its members in braces. -/
theorem eq_of_symbolSet (h : symbolSet ts = .ok symbols) :
    ts = .openBrace :: (memberTokens symbols ++ [.closeBrace]) := by
  unfold symbolSet at h
  split at h
  · next rest =>
    split at h
    · next hlast => rw [← eq_memberTokens h, List.dropLast_append_getLast? _ hlast]
    · simp at h
  · simp at h

/-! ## Statements -/

/-- What is read after a colon is the start symbol or nothing. -/
theorem eq_tokens_of_ofColon {name : Text} (h : ofColon name rest = .ok s) :
    .word name :: .colon :: rest = s.tokens := by
  unfold ofColon at h
  split at h
  · next hname =>
    split at h
    · simp at h
    · next token =>
      obtain ⟨letters, hword, rfl⟩ := map_eq_ok_iff.1 h
      rw [hname, Token.expectWord_eq_ok_iff.1 hword]
      rfl
    · simp at h
  · split at h
    · next hname =>
      split at h
      · obtain rfl := Except.ok.inj h
        rw [hname]
        rfl
      · simp at h
    · simp at h

/-- What is read from tokens is spelled by them. -/
theorem eq_tokens_of_ofTokens (h : ofTokens ts = .ok s) : ts = s.tokens := by
  cases ts with
  | nil => simp [ofTokens] at h
  | cons first rest =>
    obtain ⟨name, hname, hkind⟩ := bind_eq_ok_iff.1 h
    obtain rfl := Token.expectWord_eq_ok_iff.1 hname
    split at hkind
    · next rest =>
      obtain ⟨symbols, hset, hs⟩ := bind_eq_ok_iff.1 hkind
      obtain rfl := Except.ok.inj hs
      rw [eq_of_symbolSet hset]
      rfl
    · exact eq_tokens_of_ofColon hkind
    · next rest =>
      obtain ⟨words, hwords, hs⟩ := bind_eq_ok_iff.1 hkind
      obtain rfl := Except.ok.inj hs
      rw [Token.mapM_expectWord_eq_ok_iff.1 hwords]
      rfl
    · simp [throw, throwThe, MonadExceptOf.throw] at hkind

theorem ofTokens_eq_ok_iff : ofTokens ts = .ok s ↔ ts = s.tokens := by
  constructor
  · exact eq_tokens_of_ofTokens
  · rintro rfl
    exact ofTokens_tokens s

/-- A list of tokens says what it spells, and says nothing if it spells nothing.

A statement is read from its spelling and from no other list of tokens.  A list that is not the
spelling of any statement is refused. -/
theorem ofTokens_spelled (ts : List Token) :
    (∀ s, ofTokens ts = .ok s ↔ ts = s.tokens) ∧
      ((∃ e, ofTokens ts = .error e) ↔ ∀ s : Statement, ts ≠ s.tokens) := by
  refine ⟨fun s => ofTokens_eq_ok_iff, ?_⟩
  cases hread : ofTokens ts with
  | ok s => simpa using ⟨s, eq_tokens_of_ofTokens hread⟩
  | error e =>
    have hspelled : ∀ s : Statement, ts ≠ s.tokens := by
      rintro s rfl
      simp [ofTokens_tokens] at hread
    simpa using hspelled

/-- A comma before the closing brace is refused. -/
example : ofTokens [.word ['V', 't'], .equals, .openBrace, .word ['x'], .comma, .closeBrace] =
    .error (.unexpectedToken [',']) := rfl

/-- A line says a statement if the spelling of it is written on the line. -/
theorem ofLine_eq_ok_iff {line : Text} : ofLine line = .ok s ↔ Token.Written line s.tokens := by
  rw [← Token.ofLine_eq_ok_iff, ofLine, bind_eq_ok_iff]
  simp [ofTokens_eq_ok_iff]

end Statement

end ContextFree
