import ContextFree.Document.Load
import ContextFree.Proofs.Document.Token
import ContextFree.Proofs.Text.Lines

/-!
# Reading written statements

A statement has one spelling as tokens (`Statement.tokens`) and one usual way to write these on a
line (`Statement.render`), the one in which grammars are written.  `ofTokens_tokens` and
`ofLine_render` say that both are read back.

A statement can be written if its words can: `IsWritable` asks of them what a well-formed
declaration asks of its symbols.
-/

namespace ContextFree

namespace Statement

/-! ## Statements and tokens -/

/-- The tokens of the members of a set, with commas between them. -/
def memberTokens (symbols : List Symbol) : List Token :=
  [Token.comma].intercalate (symbols.map fun s => [.word s.text])

/-- The tokens that spell a statement. -/
def tokens : Statement → List Token
  | .vocabulary name symbols =>
    .word name :: .equals :: .openBrace :: (memberTokens symbols ++ [.closeBrace])
  | .start symbol => [.word SectionName.start, .colon, .word symbol.text]
  | .productions => [.word SectionName.productions, .colon]
  | .rule r => .word r.head.text :: .arrow :: r.words.map .word

theorem members_memberTokens (symbols : List Symbol) :
    members (memberTokens symbols) = .ok symbols := by
  cases symbols with
  | nil => rfl
  | cons s symbols =>
    have hne : memberTokens (s :: symbols) ≠ [] := by
      cases symbols with
      | nil => simp [memberTokens]
      | cons t symbols => simp [memberTokens]
    have hsplit : (memberTokens (s :: symbols)).splitOn .comma =
        (s :: symbols).map fun s => [Token.word s.text] :=
      List.splitOn_intercalate Token.comma (by simp) (by simp)
    have hmember : ∀ symbols : List Symbol,
        (symbols.map fun s => [Token.word s.text]).mapM member = .ok symbols := by
      intro symbols
      induction symbols with
      | nil => rfl
      | cons s symbols ih => rw [List.map_cons, List.mapM_cons, ih]; rfl
    rw [members, if_neg hne, hsplit, hmember]

theorem mapM_expectWord (words : List Text) :
    (words.map Token.word).mapM Token.expectWord = .ok words := by
  induction words with
  | nil => rfl
  | cons w words ih => rw [List.map_cons, List.mapM_cons, ih]; rfl

/-- A statement is what its tokens say. -/
theorem ofTokens_tokens (s : Statement) : ofTokens s.tokens = .ok s := by
  cases s with
  | vocabulary name symbols =>
    have hset : symbolSet (.openBrace :: (memberTokens symbols ++ [.closeBrace])) =
        .ok symbols := by
      simp [symbolSet, members_memberTokens]
    simp only [ofTokens, tokens, Token.expectWord]
    rw [hset]
    rfl
  | start symbol => rfl
  | productions => rfl
  | rule r =>
    simp only [ofTokens, tokens, Token.expectWord]
    rw [mapM_expectWord]
    rfl

/-! ## Statements and lines -/

/-- The usual way to write a statement on a line. -/
def render : Statement → Text
  | .vocabulary name symbols => name ++ " = ".toList ++ Symbol.renderSet symbols
  | .start symbol => SectionName.start ++ ": ".toList ++ symbol.text
  | .productions => SectionName.productions ++ [':']
  | .rule r => r.head.text ++ " -> ".toList ++ [' '].intercalate r.words

/-- The words of a statement that are not names of sections known to the reader. -/
def words : Statement → List Symbol
  | .vocabulary name symbols => ⟨name⟩ :: symbols
  | .start symbol => [symbol]
  | .productions => []
  | .rule r => r.head :: r.words.map Symbol.mk

/-- Whether the words of a statement can be written, as the symbols of a grammar can. -/
def IsWritable (s : Statement) : Prop := ∀ w ∈ s.words, w.isMalformed = false

end Statement

/-! ## Reading lines back -/

namespace Token

/-- A well-made symbol is read back as a word from what cannot go on with it. -/
theorem ofLine_symbol_cons {s : Symbol} (hs : s.isMalformed = false) {c : Char}
    (hc : isWordChar c = false) (rest : Text) :
    ofLine (s.text ++ c :: rest) = (ofLine (c :: rest)).map (.word s.text :: ·) := by
  have hend : (Token.word s.text).EndsBefore (c :: rest) := by
    intro b hb
    obtain rfl := Option.some.inj hb
    exact hc
  exact ofLine_text_append (isReadable_of_not_malformed hs) hend

/-- A well-made symbol at the end of a line is read back as a word. -/
theorem ofLine_symbol {s : Symbol} (hs : s.isMalformed = false) :
    ofLine s.text = .ok [.word s.text] := by
  have hend : (Token.word s.text).EndsBefore [] := by
    intro b hb
    simp at hb
  have hword := ofLine_text_append (isReadable_of_not_malformed hs) hend
  rw [Token.text, List.append_nil, ofLine_nil] at hword
  exact hword

/-- The members of a set are read back up to its closing brace. -/
theorem ofLine_members {symbols : List Symbol} (hs : ∀ s ∈ symbols, s.isMalformed = false) :
    ofLine ([',', ' '].intercalate (symbols.map Symbol.text) ++ [' ', '\x7d']) =
      .ok (Statement.memberTokens symbols ++ [.closeBrace]) := by
  have hclose : ofLine [' ', '\x7d'] = .ok [.closeBrace] := by
    rw [ofLine_space, ofLine_char (c := '\x7d') rfl, ofLine_nil]
    rfl
  induction symbols with
  | nil => exact hclose
  | cons s symbols ih =>
    obtain ⟨hfirst, hs⟩ := List.forall_mem_cons.1 hs
    cases symbols with
    | nil =>
      rw [List.map_singleton, List.intercalate_singleton, ofLine_symbol_cons hfirst (by decide),
        hclose]
      rfl
    | cons t symbols =>
      have hrest := ih hs
      rw [List.map_cons] at hrest
      rw [List.map_cons, List.map_cons, List.intercalate_cons_cons, List.append_assoc,
        List.append_assoc, List.cons_append, List.cons_append, List.nil_append,
        ofLine_symbol_cons hfirst (by decide), ofLine_char (c := ',') rfl, ofLine_space, hrest]
      simp [Statement.memberTokens, Except.map]

/-- A set is read back as its members in braces. -/
theorem ofLine_renderSet {symbols : List Symbol} (hs : ∀ s ∈ symbols, s.isMalformed = false) :
    ofLine (Symbol.renderSet symbols) =
      .ok (.openBrace :: (Statement.memberTokens symbols ++ [.closeBrace])) := by
  have hopen : Symbol.renderSet symbols =
      '\x7b' :: ' ' :: ([',', ' '].intercalate (symbols.map Symbol.text) ++ [' ', '\x7d']) := rfl
  rw [hopen, ofLine_char (c := '\x7b') rfl, ofLine_space, ofLine_members hs]
  rfl

/-- Words with spaces between them are read back. -/
theorem ofLine_words {words : List Text} (hw : ∀ w ∈ words, (Symbol.mk w).isMalformed = false) :
    ofLine ([' '].intercalate words) = .ok (words.map .word) := by
  induction words with
  | nil => exact ofLine_nil
  | cons w words ih =>
    obtain ⟨hfirst, hw⟩ := List.forall_mem_cons.1 hw
    cases words with
    | nil => simpa using ofLine_symbol hfirst
    | cons w' words =>
      rw [List.intercalate_cons_cons, List.append_assoc, List.singleton_append,
        ofLine_symbol_cons hfirst (by decide), ofLine_space, ih hw]
      rfl

end Token

namespace Statement

/-- Every word on the line of a statement is followed by the end of the line, by a space or by
punctuation, so the line is read back as the tokens of the statement. -/
theorem ofLine_render_tokens {s : Statement} (hs : s.IsWritable) :
    Token.ofLine s.render = .ok s.tokens := by
  cases s with
  | vocabulary name symbols =>
    obtain ⟨hname, hsymbols⟩ := List.forall_mem_cons.1 hs
    have hline : (vocabulary name symbols).render =
        name ++ ' ' :: '=' :: ' ' :: Symbol.renderSet symbols := by
      simp [render]
    rw [hline, Token.ofLine_symbol_cons hname (by decide), Token.ofLine_space,
      Token.ofLine_char (c := '=') rfl, Token.ofLine_space, Token.ofLine_renderSet hsymbols]
    rfl
  | start symbol =>
    have hsymbol : symbol.isMalformed = false := hs symbol List.mem_cons_self
    have hname : (Symbol.mk SectionName.start).isMalformed = false := by decide
    have hline : (start symbol).render = SectionName.start ++ ':' :: ' ' :: symbol.text := by
      simp [render]
    rw [hline, Token.ofLine_symbol_cons hname (by decide), Token.ofLine_char (c := ':') rfl,
      Token.ofLine_space, Token.ofLine_symbol hsymbol]
    rfl
  | productions =>
    have hname : (Symbol.mk SectionName.productions).isMalformed = false := by decide
    rw [render, Token.ofLine_symbol_cons hname (by decide), Token.ofLine_char (c := ':') rfl,
      Token.ofLine_nil]
    rfl
  | rule r =>
    obtain ⟨hhead, hwords⟩ := List.forall_mem_cons.1 hs
    have hline : (rule r).render =
        r.head.text ++ ' ' :: '-' :: '>' :: ' ' :: [' '].intercalate r.words := by
      simp [render]
    rw [hline, Token.ofLine_symbol_cons hhead (by decide), Token.ofLine_space,
      Token.ofLine_arrow, Token.ofLine_space, Token.ofLine_words (by simpa using hwords)]
    rfl

/-- A statement is what its line says. -/
theorem ofLine_render {s : Statement} (hs : s.IsWritable) : ofLine s.render = .ok s := by
  rw [ofLine, ofLine_render_tokens hs]
  exact ofTokens_tokens s

/-! ## The characters of a line -/

theorem isSpaced_symbol {s : Symbol} (hs : s.isMalformed = false) : s.text.IsSpaced := by
  intro c hc
  exact Or.inr ((Symbol.isMalformed_eq_false_iff.1 hs).2 c hc).1

/-- The only white space on the line of a statement is the space. -/
theorem isSpaced_render {s : Statement} (hs : s.IsWritable) : s.render.IsSpaced := by
  have hwords : ∀ w ∈ s.words, w.text.IsSpaced := fun w hw => isSpaced_symbol (hs w hw)
  cases s with
  | vocabulary name symbols =>
    obtain ⟨hname, hsymbols⟩ := List.forall_mem_cons.1 hwords
    have hmembers : Text.IsSpaced ([',', ' '].intercalate (symbols.map Symbol.text)) :=
      .intercalate (by decide) (by simpa using hsymbols)
    exact (Text.IsSpaced.append hname (by decide)).append
      ((Text.IsSpaced.append (by decide) hmembers).append (by decide))
  | start symbol => exact .append (by decide) (hwords symbol List.mem_cons_self)
  | productions => decide
  | rule r =>
    obtain ⟨hhead, hbody⟩ := List.forall_mem_cons.1 hwords
    have hbody : Text.IsSpaced ([' '].intercalate r.words) :=
      .intercalate (by decide) (by simpa using hbody)
    exact (Text.IsSpaced.append hhead (by decide)).append hbody

/-- A line that begins with a well-made symbol is neither blank nor a comment. -/
theorem isContent_symbol_append {s : Symbol} (hs : s.isMalformed = false) (rest : Text) :
    Document.isContent (s.text ++ rest) = true := by
  obtain ⟨hne, hletters⟩ := Symbol.isMalformed_eq_false_iff.1 hs
  obtain ⟨c, letters, htext⟩ := List.exists_cons_of_ne_nil hne
  have hc : c ∈ s.text := by simp [htext]
  obtain ⟨hblank, hpunctuation⟩ := hletters c hc
  have hsemicolon : c ≠ ';' := by
    intro h
    subst h
    exact hpunctuation (by decide)
  simp [Document.isContent, Text.trimStart, htext, hblank, hsemicolon]

/-- The line of a statement takes part in a document. -/
theorem isContent_render {s : Statement} (hs : s.IsWritable) :
    Document.isContent s.render = true := by
  cases s with
  | vocabulary name symbols =>
    rw [render, List.append_assoc]
    exact isContent_symbol_append (hs ⟨name⟩ List.mem_cons_self) _
  | start symbol =>
    rw [render, List.append_assoc]
    exact isContent_symbol_append (s := ⟨SectionName.start⟩) (by decide) _
  | productions => decide
  | rule r =>
    rw [render, List.append_assoc]
    exact isContent_symbol_append (hs r.head List.mem_cons_self) _

end Statement

end ContextFree
