import ContextFree.Proofs.Document.Token

/-!
# The lines of a list of tokens

Reading a line takes its white space away and cuts the rest into tokens.  This module says for every
line what comes out, and for every list of tokens which lines it comes from.

* `Token.HasStrayDash` is the only way in which a line can fail to be read
  (`ofLine_eq_error_iff`).
* `Token.Written` relates a line to the tokens that are written on it, without reading it.
  `ofLine_eq_ok_iff` says that these are the tokens that are read.
* What a written line looks like is told from the relation: its letters are those of its tokens
  (`Written.flatMap_text`), and white space stands between two words (`Written.exists_gap`).
* `Token.joined` writes tokens with given gaps between them.

`ofLine_tokenises` puts these together.
-/

namespace ContextFree

namespace Token

variable {line rest : Text} {t : Token} {ts : List Token}

/-! ## Words -/

/-- The characters that end a word, besides white space. -/
def separators : List Char := ['=', ',', ':', '\x7b', '\x7d', '-']

/-- Whether letters are those of one word. -/
def IsWord (letters : Text) : Prop :=
  letters ≠ [] ∧ ∀ c ∈ letters, isBlank c = false ∧ c ∉ separators

theorem isWordChar_iff_not_mem {c : Char} :
    isWordChar c = true ↔ isBlank c = false ∧ c ∉ separators := by
  have hchar : ofChar? c = none ∧ c ≠ '-' ↔ c ∉ separators := by
    simp only [ofChar?, separators, List.mem_cons, List.not_mem_nil, or_false, not_or]
    split_ifs <;> simp_all
  rw [isWordChar_iff, hchar]

theorem isReadable_word_iff {letters : Text} : (word letters).IsReadable ↔ IsWord letters := by
  simp only [IsReadable, IsWord, isWordChar_iff_not_mem]

/-- Tokens can be read back if the letters of their words are those of words. -/
theorem forall_isReadable_iff :
    (∀ t ∈ ts, t.IsReadable) ↔ ∀ letters, word letters ∈ ts → IsWord letters := by
  constructor
  · intro h letters hmem
    exact isReadable_word_iff.1 (h _ hmem)
  · intro h t ht
    cases t with
    | word letters => exact isReadable_word_iff.2 (h letters ht)
    | _ => trivial

/-- A token that can be read back has no white space in it. -/
theorem isBlank_of_mem_text (ht : t.IsReadable) : ∀ c ∈ t.text, isBlank c = false := by
  cases t with
  | word letters => exact fun c hc => (isWordChar_iff.1 (ht.2 c hc)).1
  | arrow => exact List.forall_mem_cons.2 ⟨by decide, List.forall_mem_singleton.2 (by decide)⟩
  | _ => exact List.forall_mem_singleton.2 (by decide)

/-- White space ends every token. -/
theorem endsBefore_of_isBlank (t : Token) (h : ∀ c ∈ rest.head?, isBlank c = true) :
    t.EndsBefore rest := by
  cases t with
  | word letters =>
    intro c hc
    simp [isWordChar, h c hc]
  | _ => trivial

/-- A character that is a token by itself is all of that token. -/
theorem of_ofChar? {c : Char} (h : ofChar? c = some t) :
    t.text = [c] ∧ t.IsReadable ∧ ∀ rest, t.EndsBefore rest := by
  simp only [ofChar?] at h
  split_ifs at h with hc hc hc hc hc
  all_goals
    obtain rfl := Option.some.inj h
    subst hc
    exact ⟨rfl, trivial, fun _ => trivial⟩

/-! ## Stray dashes -/

/-- Whether a line has a dash that is not followed by the rest of an arrow. -/
def HasStrayDash (line : Text) : Prop :=
  ∃ before after, line = before ++ '-' :: after ∧ after.head? ≠ some '>'

theorem not_hasStrayDash_nil : ¬ HasStrayDash [] := by
  intro h
  obtain ⟨before, after, hline, -⟩ := h
  simp at hline

theorem hasStrayDash_cons_iff {c : Char} :
    HasStrayDash (c :: rest) ↔ c = '-' ∧ rest.head? ≠ some '>' ∨ HasStrayDash rest := by
  constructor
  · intro h
    obtain ⟨before, after, hline, hafter⟩ := h
    cases before with
    | nil =>
      obtain ⟨rfl, rfl⟩ := List.cons_eq_cons.1 hline
      exact .inl ⟨rfl, hafter⟩
    | cons b before =>
      obtain ⟨rfl, rfl⟩ := List.cons_eq_cons.1 hline
      exact .inr ⟨before, after, rfl, hafter⟩
  · rintro (⟨rfl, hrest⟩ | ⟨before, after, rfl, hafter⟩)
    · exact ⟨[], rest, rfl, hrest⟩
    · exact ⟨c :: before, after, rfl, hafter⟩

/-- What has no dash in it can be put before a line. -/
theorem hasStrayDash_append_iff {letters : Text} (h : '-' ∉ letters) :
    HasStrayDash (letters ++ rest) ↔ HasStrayDash rest := by
  induction letters with
  | nil => rfl
  | cons c letters ih =>
    simp only [List.mem_cons, not_or] at h
    obtain ⟨hc, hletters⟩ := h
    have hfirst : ¬ (c = '-' ∧ (letters ++ rest).head? ≠ some '>') := fun hdash => hc hdash.1.symm
    rw [List.cons_append, hasStrayDash_cons_iff, ih hletters, or_iff_right hfirst]

/-- A line is refused for a stray dash, and for nothing else. -/
theorem ofLine_eq_error_iff {e : LoadError} :
    ofLine line = .error e ↔ e = .strayDash ∧ HasStrayDash line := by
  induction line using line_induction with
  | nil => simp [not_hasStrayDash_nil]
  | blank c rest hblank ih =>
    have hdash : c ≠ '-' := by
      rintro rfl
      exact absurd hblank (by decide)
    rw [ofLine_blank hblank, hasStrayDash_cons_iff, or_iff_right (fun h => hdash h.1)]
    exact ih
  | arrow rest ih =>
    have harrow : HasStrayDash ('-' :: '>' :: rest) ↔ HasStrayDash rest := by
      simp [hasStrayDash_cons_iff]
    rw [ofLine_arrow, map_eq_error_iff, harrow]
    exact ih
  | dash rest hrest =>
    have hdash : HasStrayDash ('-' :: rest) := ⟨[], rest, rfl, hrest⟩
    rw [ofLine_dash hrest, Except.error.injEq]
    exact ⟨fun h => ⟨h.symm, hdash⟩, fun h => h.1.symm⟩
  | char c t rest hchar ih =>
    have hdash : c ≠ '-' := by
      rintro rfl
      exact absurd hchar (by simp [ofChar?])
    rw [ofLine_char hchar, map_eq_error_iff, hasStrayDash_cons_iff,
      or_iff_right (fun h => hdash h.1)]
    exact ih
  | word letters rest hne hletters hrest ih =>
    have hdash : '-' ∉ letters := fun hmem => (isWordChar_iff.1 (hletters '-' hmem)).2.2 rfl
    rw [ofLine_word hne hletters hrest, map_eq_error_iff, hasStrayDash_append_iff hdash]
    exact ih

/-! ## Written tokens -/

/-- The lines on which a list of tokens is written.  White space may stand around each token, and
nothing may follow a word that would go on with it. -/
inductive Written : Text → List Token → Prop
  | blank {blanks : Text} : (∀ c ∈ blanks, isBlank c = true) → Written blanks []
  | token {blanks rest : Text} {t : Token} {ts : List Token} :
      (∀ c ∈ blanks, isBlank c = true) → t.IsReadable → t.EndsBefore rest → Written rest ts →
        Written (blanks ++ (t.text ++ rest)) (t :: ts)

/-- More white space may stand before written tokens. -/
theorem Written.blanks_append {blanks : Text} (hblanks : ∀ c ∈ blanks, isBlank c = true)
    (h : Written line ts) : Written (blanks ++ line) ts := by
  cases h with
  | blank hline => exact .blank (List.forall_mem_append.2 ⟨hblanks, hline⟩)
  | token hline ht hend hrest =>
    rw [← List.append_assoc]
    exact .token (List.forall_mem_append.2 ⟨hblanks, hline⟩) ht hend hrest

/-- A token may be written before others. -/
theorem Written.text_append (ht : t.IsReadable) (hend : t.EndsBefore rest)
    (h : Written rest ts) : Written (t.text ++ rest) (t :: ts) := by
  have hblanks : ∀ c ∈ ([] : Text), isBlank c = true := List.forall_mem_nil _
  have hwritten := Written.token hblanks ht hend h
  exact hwritten

/-- The tokens that are written on a line are read from it. -/
theorem Written.ofLine_eq (h : Written line ts) : ofLine line = .ok ts := by
  induction h with
  | blank hblanks =>
    have hline := ofLine_blanks_append hblanks []
    rwa [List.append_nil, ofLine_nil] at hline
  | token hblanks ht hend _ ih =>
    rw [ofLine_blanks_append hblanks, ofLine_text_append ht hend, ih]
    rfl

/-- The tokens that are read from a line are written on it. -/
theorem written_of_ofLine (h : ofLine line = .ok ts) : Written line ts := by
  induction line using line_induction generalizing ts with
  | nil =>
    rw [ofLine_nil] at h
    obtain rfl := Except.ok.inj h
    exact .blank (List.forall_mem_nil _)
  | blank c rest hblank ih =>
    rw [ofLine_blank hblank] at h
    exact (ih h).blanks_append (List.forall_mem_singleton.2 hblank)
  | arrow rest ih =>
    rw [ofLine_arrow] at h
    obtain ⟨us, hrest, rfl⟩ := map_eq_ok_iff.1 h
    exact .text_append (t := .arrow) trivial trivial (ih hrest)
  | dash rest hrest => simp [ofLine_dash hrest] at h
  | char c t rest hchar ih =>
    rw [ofLine_char hchar] at h
    obtain ⟨us, hrest, rfl⟩ := map_eq_ok_iff.1 h
    obtain ⟨htext, ht, hend⟩ := of_ofChar? hchar
    have hwritten := (ih hrest).text_append ht (hend rest)
    rwa [htext] at hwritten
  | word letters rest hne hletters hend ih =>
    rw [ofLine_word hne hletters hend] at h
    obtain ⟨us, hrest, rfl⟩ := map_eq_ok_iff.1 h
    exact .text_append (t := .word letters) ⟨hne, hletters⟩ hend (ih hrest)

/-- Reading a line gives the tokens that are written on it. -/
theorem ofLine_eq_ok_iff : ofLine line = .ok ts ↔ Written line ts :=
  ⟨written_of_ofLine, Written.ofLine_eq⟩

/-! ## What is written -/

namespace Written

/-- Without its white space a line is what the tokens on it spell. -/
theorem flatMap_text (h : Written line ts) :
    ts.flatMap text = line.filter fun c => !isBlank c := by
  induction h with
  | blank hblanks =>
    symm
    simpa using hblanks
  | @token blanks rest t ts hblanks ht _ _ ih =>
    have hblanks : (blanks.filter fun c => !isBlank c) = [] := by simpa using hblanks
    have htext : (t.text.filter fun c => !isBlank c) = t.text := by
      simpa using isBlank_of_mem_text ht
    rw [List.flatMap_cons, List.filter_append, List.filter_append, hblanks, htext, ih,
      List.nil_append]

theorem isReadable (h : Written line ts) : ∀ t ∈ ts, t.IsReadable := by
  induction h with
  | blank => simp
  | token _ ht _ _ ih => exact List.forall_mem_cons.2 ⟨ht, ih⟩

/-- Between two words there is white space on the line.  What is written before it are the tokens up
to the first word, and what is written after it are the tokens from the second word on. -/
theorem exists_gap {before after : List Token} {a b : Text}
    (h : Written line (before ++ word a :: word b :: after)) :
    ∃ left gap right, line = left ++ a ++ gap ++ b ++ right ∧ gap ≠ [] ∧
      (∀ c ∈ gap, isBlank c = true) ∧ Written left before ∧ Written right after := by
  induction before generalizing line with
  | nil =>
    cases h with
    | @token blanks rest _ _ hblanks ha hend hrest =>
      cases hrest with
      | @token gap right _ _ hgap hb hend' hright =>
        refine ⟨blanks, gap, right, by simp [text], ?_, hgap, .blank hblanks, hright⟩
        -- without white space the second word would go on with the first one
        rintro rfl
        obtain ⟨c, letters, rfl⟩ := List.exists_cons_of_ne_nil hb.1
        have hc : isWordChar c = false := hend c rfl
        rw [hb.2 c List.mem_cons_self] at hc
        exact absurd hc (by decide)
  | cons t before ih =>
    cases h with
    | @token blanks rest _ _ hblanks ht hend hrest =>
      obtain ⟨left, gap, right, rfl, hne, hgap, hleft, hright⟩ := ih hrest
      refine ⟨blanks ++ (t.text ++ left), gap, right, by simp, hne, hgap,
        .token hblanks ht ?_ hleft, hright⟩
      cases t with
      | word letters =>
        cases left with
        | nil => simp [EndsBefore]
        | cons c left => exact hend
      | _ => trivial

end Written

/-! ## Joined tokens -/

/-- The texts of tokens with a gap between each two of them, as long as there are gaps. -/
def joined : List Text → List Token → Text
  | gap :: gaps, t :: u :: ts => t.text ++ gap ++ joined gaps (u :: ts)
  | _, ts => ts.flatMap text

/-- With enough gaps of white space between them tokens are written as they are. -/
theorem written_joined {gaps : List Text}
    (hgaps : ∀ gap ∈ gaps, gap ≠ [] ∧ ∀ c ∈ gap, isBlank c = true)
    (hts : ∀ t ∈ ts, t.IsReadable) (hlength : ts.length ≤ gaps.length + 1) :
    Written (joined gaps ts) ts := by
  fun_induction joined gaps ts with
  | case1 gap gaps t u ts ih =>
    obtain ⟨⟨hne, hblank⟩, hgaps⟩ := List.forall_mem_cons.1 hgaps
    obtain ⟨ht, hts⟩ := List.forall_mem_cons.1 hts
    have hrest : Written (gap ++ joined gaps (u :: ts)) (u :: ts) := by
      refine (ih hgaps hts ?_).blanks_append hblank
      simpa using hlength
    have hend : t.EndsBefore (gap ++ joined gaps (u :: ts)) := by
      refine endsBefore_of_isBlank t fun c hc => hblank c ?_
      obtain ⟨b, gap, rfl⟩ := List.exists_cons_of_ne_nil hne
      obtain rfl := Option.some.inj hc
      exact List.mem_cons_self
    rw [List.append_assoc]
    exact hrest.text_append ht hend
  | case2 gaps ts hshort =>
    cases ts with
    | nil => exact .blank (List.forall_mem_nil _)
    | cons t ts =>
      cases ts with
      | nil =>
        have hend : t.EndsBefore [] := endsBefore_of_isBlank t (by simp)
        exact .text_append (hts t List.mem_cons_self) hend (.blank (List.forall_mem_nil _))
      | cons u ts =>
        cases gaps with
        | nil => simp at hlength
        | cons gap gaps => exact absurd rfl (hshort gap gaps t u ts rfl)

/-! ## Reading a line -/

/-- Reading a line cuts it into its tokens, and does so for every line.

A line is refused exactly if it has a stray dash, and then for the stray dash.  Otherwise the tokens
spell the line without its white space, the letters of each word are those of a word, and between
two words there is white space on the line, with the tokens before and after it on its two sides.
The other way round, tokens whose words have the letters of words are read back from their texts
with any white space between them. -/
theorem ofLine_tokenises :
    (∀ line e, ofLine line = .error e ↔ e = .strayDash ∧ HasStrayDash line) ∧
    (∀ line, ¬ HasStrayDash line → ∃ ts, ofLine line = .ok ts ∧
      (ts.flatMap text = line.filter fun c => !isBlank c) ∧
      (∀ letters, word letters ∈ ts → IsWord letters) ∧
      ∀ before a b after, ts = before ++ word a :: word b :: after →
        ∃ left gap right, line = left ++ a ++ gap ++ b ++ right ∧ gap ≠ [] ∧
          (∀ c ∈ gap, isBlank c = true) ∧ ofLine left = .ok before ∧ ofLine right = .ok after) ∧
    ∀ (ts : List Token) (gaps : List Text), (∀ letters, word letters ∈ ts → IsWord letters) →
      (∀ gap ∈ gaps, gap ≠ [] ∧ ∀ c ∈ gap, isBlank c = true) → ts.length ≤ gaps.length + 1 →
        ofLine (joined gaps ts) = .ok ts := by
  refine ⟨fun line e => ofLine_eq_error_iff, fun line hline => ?_,
    fun ts gaps hts hgaps hlength => ?_⟩
  · cases hread : ofLine line with
    | error e => exact absurd (ofLine_eq_error_iff.1 hread).2 hline
    | ok ts =>
      have h := written_of_ofLine hread
      refine ⟨ts, rfl, h.flatMap_text, forall_isReadable_iff.1 h.isReadable, ?_⟩
      rintro before a b after rfl
      obtain ⟨left, gap, right, hsplit, hne, hgap, hleft, hright⟩ := h.exists_gap
      exact ⟨left, gap, right, hsplit, hne, hgap, hleft.ofLine_eq, hright.ofLine_eq⟩
  · exact (written_joined hgaps (forall_isReadable_iff.2 hts) hlength).ofLine_eq

/-- The second character of an arrow can be a word.  With tabs between them the tokens here are read
back, and the last two words are read from both sides of a gap.  A dash before a letter is stray. -/
theorem tabbed_ofLine_tokenises :
    let ts := [word ['>'], arrow, word ['>'], word ['d']]
    ofLine ">\t->\t>\td".toList = .ok ts ∧
      (∃ left gap right, ">\t->\t>\td".toList = left ++ ['>'] ++ gap ++ ['d'] ++ right ∧
        gap ≠ [] ∧ (∀ c ∈ gap, isBlank c = true) ∧ ofLine left = .ok [word ['>'], arrow] ∧
          ofLine right = .ok []) ∧
      ofLine "a>b-c".toList = .error .strayDash := by
  intro ts
  obtain ⟨herror, hread, hjoined⟩ := ofLine_tokenises
  have hwords : ∀ letters, word letters ∈ ts → IsWord letters := by
    intro letters hmem
    obtain rfl | rfl : letters = ['>'] ∨ letters = ['d'] := by simpa [ts] using hmem
    · exact ⟨by decide, List.forall_mem_singleton.2 (by decide)⟩
    · exact ⟨by decide, List.forall_mem_singleton.2 (by decide)⟩
  have hgaps : ∀ gap ∈ List.replicate 3 ['\t'], gap ≠ [] ∧ ∀ c ∈ gap, isBlank c = true := by
    intro gap hmem
    obtain rfl := List.eq_of_mem_replicate hmem
    exact ⟨by decide, List.forall_mem_singleton.2 (by decide)⟩
  have hok : ofLine ">\t->\t>\td".toList = .ok ts := hjoined ts _ hwords hgaps (by decide)
  have hline : ¬ HasStrayDash ">\t->\t>\td".toList := by
    intro hstray
    have hrefused := (herror _ _).2 ⟨rfl, hstray⟩
    rw [hok] at hrefused
    simp at hrefused
  obtain ⟨us, hus, -, -, hgap⟩ := hread _ hline
  obtain rfl : us = ts := Except.ok.inj (hus.symm.trans hok)
  exact ⟨hok, hgap _ _ _ _ rfl, (herror _ _).2 ⟨rfl, "a>b".toList, "c".toList, rfl, by decide⟩⟩

/-- Without white space the arrow ends where it does, and the next word begins with the character
that the arrow ended with. -/
example : ofLine "a>b->>c d".toList =
    .ok [word "a>b".toList, arrow, word ">c".toList, word "d".toList] := by
  cbv

end Token

end ContextFree
