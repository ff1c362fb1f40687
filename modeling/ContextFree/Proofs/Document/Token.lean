import ContextFree.Document.Token
import ContextFree.Proofs.Grammar.WellFormed
import Mathlib.Data.List.TakeWhile

/-!
# Reading written tokens

`Token.ofLine` is a recursion on the characters of a line.  Here it becomes one equation for each
way in which a line can begin: with white space (`ofLine_blank`) or with a token
(`ofLine_text_append`).  A word can only be read back if what follows it does not go on with it
(`EndsBefore`).  A well-made symbol is such a word (`isReadable_of_not_malformed`).

A line that is cut in two is read piece by piece, unless the cut goes through a token (`Splits`,
`ofLine_append`).  So white space between tokens means nothing (`ofLine_insert_blanks`).
-/

namespace ContextFree

/-! ## Results -/

section

variable {α β ε : Type} {x : Except ε α}

theorem map_eq_ok_iff {f : α → β} {b : β} : x.map f = .ok b ↔ ∃ a, x = .ok a ∧ f a = b := by
  cases x <;> simp [Except.map]

theorem map_eq_error_iff {f : α → β} {e : ε} : x.map f = .error e ↔ x = .error e := by
  cases x <;> simp [Except.map]

theorem bind_eq_ok_iff {f : α → Except ε β} {b : β} :
    (x >>= f) = .ok b ↔ ∃ a, x = .ok a ∧ f a = .ok b := by
  cases x <;> simp [bind, Except.bind]

/-- A value is all that is left of a result without its error. -/
theorem eq_ok_of_toOption {a : α} (h : x.toOption = some a) : x = .ok a := by
  cases x with
  | ok b => rw [Option.some.inj h]
  | error e => contradiction

end

namespace Token

/-! ## Characters -/

/-- White space is no token. -/
theorem ofChar?_eq_none_of_isBlank {c : Char} (hc : isBlank c = true) : ofChar? c = none := by
  have hne : ∀ d, isBlank d = false → c ≠ d := by
    intro d hd heq
    subst heq
    simp [hc] at hd
  simp [ofChar?, hne '=' (by decide), hne ',' (by decide), hne ':' (by decide),
    hne '\x7b' (by decide), hne '\x7d' (by decide)]

theorem isWordChar_iff {c : Char} :
    isWordChar c = true ↔ isBlank c = false ∧ ofChar? c = none ∧ c ≠ '-' := by
  simp [isWordChar, and_assoc]

/-- The characters of a well-made symbol can be part of words. -/
theorem isWordChar_of_not_punctuation {c : Char} (hblank : isBlank c = false)
    (hc : c ∉ Symbol.punctuation) : isWordChar c = true := by
  simp only [Symbol.punctuation, List.mem_cons, not_or] at hc
  simp [isWordChar, ofChar?, hblank, hc]

/-! ## One token -/

@[simp] theorem ofLine_nil : ofLine [] = .ok [] := by rw [ofLine]

/-- White space before a token means nothing. -/
theorem ofLine_blank {c : Char} (hc : isBlank c = true) (rest : Text) :
    ofLine (c :: rest) = ofLine rest := by
  rw [ofLine.eq_def]
  exact if_pos hc

@[simp] theorem ofLine_space (rest : Text) : ofLine (' ' :: rest) = ofLine rest :=
  ofLine_blank (by decide) rest

theorem ofLine_arrow (rest : Text) :
    ofLine ('-' :: '>' :: rest) = (ofLine rest).map (.arrow :: ·) := by
  rw [ofLine.eq_def]
  rfl

/-- A character that is a token by itself. -/
theorem ofLine_char {c : Char} {t : Token} (h : ofChar? c = some t) (rest : Text) :
    ofLine (c :: rest) = (ofLine rest).map (t :: ·) := by
  have hblank : ¬ isBlank c = true := by
    intro hc
    rw [ofChar?_eq_none_of_isBlank hc] at h
    simp at h
  have hdash : c ≠ '-' := by
    intro hc
    subst hc
    simp [ofChar?] at h
  rw [ofLine.eq_def]
  simp only [if_neg hblank, if_neg hdash, h]

/-- A word is read to its end. -/
theorem ofLine_word {letters rest : Text} (hne : letters ≠ [])
    (hletters : ∀ c ∈ letters, isWordChar c = true)
    (hrest : ∀ c ∈ rest.head?, isWordChar c = false) :
    ofLine (letters ++ rest) = (ofLine rest).map (.word letters :: ·) := by
  obtain ⟨c, letters, rfl⟩ := List.exists_cons_of_ne_nil hne
  obtain ⟨hc, hletters⟩ := List.forall_mem_cons.1 hletters
  obtain ⟨hblank, hchar, hdash⟩ := isWordChar_iff.1 hc
  have htake : (letters ++ rest).takeWhile isWordChar = letters := by
    rw [List.takeWhile_append_of_pos hletters]
    cases rest with
    | nil => simp
    | cons b rest => simp [hrest b rfl]
  have hdrop : (letters ++ rest).dropWhile isWordChar = rest := by
    rw [List.dropWhile_append_of_pos hletters]
    cases rest with
    | nil => rfl
    | cons b rest => simp [hrest b rfl]
  rw [List.cons_append, ofLine.eq_def]
  simp only [hblank, Bool.false_eq_true, if_false, if_neg hdash, hchar, htake, hdrop]

/-- A dash that does not begin an arrow is an error. -/
theorem ofLine_dash {rest : Text} (hrest : rest.head? ≠ some '>') :
    ofLine ('-' :: rest) = .error .strayDash := by
  rw [ofLine.eq_def]
  have hblank : ¬ isBlank '-' = true := by decide
  simp only [if_neg hblank, if_true]
  split
  · exact absurd rfl hrest
  · rfl

/-- Whether a token can be read back: the letters of a word have to be those of one word. -/
def IsReadable : Token → Prop
  | .word letters => letters ≠ [] ∧ ∀ c ∈ letters, isWordChar c = true
  | _ => True

/-- Whether a text cannot go on with the token before it. -/
def EndsBefore : Token → Text → Prop
  | .word _, rest => ∀ c ∈ rest.head?, isWordChar c = false
  | _, _ => True

/-- A written token is read back if the text after it does not go on with it. -/
theorem ofLine_text_append {t : Token} {rest : Text} (ht : t.IsReadable)
    (hrest : t.EndsBefore rest) : ofLine (t.text ++ rest) = (ofLine rest).map (t :: ·) := by
  cases t with
  | equals => exact ofLine_char (c := '=') rfl rest
  | comma => exact ofLine_char (c := ',') rfl rest
  | colon => exact ofLine_char (c := ':') rfl rest
  | openBrace => exact ofLine_char (c := '\x7b') rfl rest
  | closeBrace => exact ofLine_char (c := '\x7d') rfl rest
  | arrow => exact ofLine_arrow rest
  | word letters => exact ofLine_word ht.1 ht.2 hrest

/-- A well-made symbol is read back as a word. -/
theorem isReadable_of_not_malformed {s : Symbol} (hs : s.isMalformed = false) :
    (Token.word s.text).IsReadable := by
  obtain ⟨hne, hletters⟩ := Symbol.isMalformed_eq_false_iff.1 hs
  exact ⟨hne, fun c hc => isWordChar_of_not_punctuation (hletters c hc).1 (hletters c hc).2⟩

/-! ## White space between tokens -/

/-- A line is read from the left: white space or a token is taken off, until nothing is left or a
dash is an error. -/
@[elab_as_elim]
theorem line_induction {motive : Text → Prop} (nil : motive [])
    (blank : ∀ c rest, isBlank c = true → motive rest → motive (c :: rest))
    (arrow : ∀ rest, motive rest → motive ('-' :: '>' :: rest))
    (dash : ∀ rest : Text, rest.head? ≠ some '>' → motive ('-' :: rest))
    (char : ∀ c t rest, ofChar? c = some t → motive rest → motive (c :: rest))
    (word : ∀ letters rest : Text, letters ≠ [] → (∀ c ∈ letters, isWordChar c = true) →
      (∀ c ∈ rest.head?, isWordChar c = false) → motive rest → motive (letters ++ rest))
    (line : Text) : motive line := by
  fun_induction ofLine line with
  | case1 => exact nil
  | case2 c rest hblank ih => exact blank c rest hblank ih
  | case3 rest _ ih => exact arrow rest ih
  | case4 rest hrest _ =>
    refine dash rest fun hhead => ?_
    obtain ⟨rest, rfl⟩ := List.head?_eq_some_iff.1 hhead
    exact hrest rest rfl
  | case5 c rest _ _ t hchar ih => exact char c t rest hchar ih
  | case6 c rest hblank hdash hchar ih =>
    have hc : isWordChar c = true := isWordChar_iff.2 ⟨Bool.eq_false_iff.2 hblank, hchar, hdash⟩
    have hletters : ∀ b ∈ c :: rest.takeWhile isWordChar, isWordChar b = true :=
      List.forall_mem_cons.2 ⟨hc, fun b hb => List.mem_takeWhile_imp hb⟩
    have hafter : ∀ b ∈ (rest.dropWhile isWordChar).head?, isWordChar b = false := by
      intro b hb
      rw [← List.find?_not_eq_head?_dropWhile] at hb
      simpa using List.find?_some hb
    have hline := word _ _ (List.cons_ne_nil _ _) hletters hafter ih
    rwa [List.cons_append, List.takeWhile_append_dropWhile] at hline

/-- Whether a line is cut within a token: between the characters of an arrow, or between two
characters of a word.  The second character of an arrow is not part of a word. -/
inductive Splits : Text → Text → Prop where
  | arrow (before after : Text) : Splits (before ++ ['-']) ('>' :: after)
  | word {before after : Text} {a b : Char} (ha : isWordChar a = true) (hb : isWordChar b = true)
      (harrow : a = '>' → before.getLast? ≠ some '-') : Splits (before ++ [a]) (b :: after)

/-- More before the cut makes no difference, unless it makes an arrow. -/
theorem Splits.append {first left right : Text} (h : Splits left right)
    (hfirst : first.getLast? ≠ some '-') : Splits (first ++ left) right := by
  cases h with
  | arrow before after =>
    rw [← List.append_assoc]
    exact .arrow (first ++ before) after
  | @word before after a b ha hb harrow =>
    rw [← List.append_assoc]
    refine .word ha hb fun hgreater => ?_
    rw [List.getLast?_append]
    cases hlast : before.getLast? with
    | none => exact hfirst
    | some c => exact fun hdash => harrow hgreater (hlast.trans hdash)

theorem Splits.exists_head {left right : Text} (h : Splits left right) :
    ∃ b after, right = b :: after ∧ isBlank b = false := by
  cases h with
  | arrow before after => exact ⟨'>', after, rfl, by decide⟩
  | @word _ after _ b _ hb => exact ⟨b, after, rfl, (isWordChar_iff.1 hb).1⟩

/-- A line that is not cut within a token is read piece by piece. -/
theorem ofLine_append {left right : Text} (h : ¬ Splits left right) :
    ofLine (left ++ right) =
      (ofLine left).bind fun tokens => (ofLine right).map (tokens ++ ·) := by
  have hmap : ∀ (t : Token) (x y : Except LoadError (List Token)),
      (x.map (t :: ·)).bind (fun tokens => y.map (tokens ++ ·)) =
        (x.bind fun tokens => y.map (tokens ++ ·)).map (t :: ·) := by
    intro t x y
    cases x <;> cases y <;> rfl
  induction left using line_induction with
  | nil =>
    rw [ofLine_nil, List.nil_append]
    cases ofLine right <;> rfl
  | blank c rest hblank ih =>
    have hlast : [c].getLast? ≠ some '-' := by
      intro hdash
      obtain rfl : c = '-' := Option.some.inj hdash
      exact absurd hblank (by decide)
    rw [List.cons_append, ofLine_blank hblank, ofLine_blank hblank]
    exact ih fun hrest => h (hrest.append hlast)
  | arrow rest ih =>
    have hlast : ['-', '>'].getLast? ≠ some '-' := by decide
    rw [List.cons_append, List.cons_append, ofLine_arrow, ofLine_arrow,
      ih fun hrest => h (hrest.append hlast), hmap]
  | dash rest hrest =>
    have hhead : (rest ++ right).head? ≠ some '>' := by
      cases rest with
      | cons c rest => exact hrest
      | nil =>
        intro hhead
        obtain ⟨after, rfl⟩ := List.head?_eq_some_iff.1 hhead
        exact h (.arrow [] after)
    rw [List.cons_append, ofLine_dash hrest, ofLine_dash hhead]
    rfl
  | char c t rest hchar ih =>
    have hlast : [c].getLast? ≠ some '-' := by
      intro hdash
      obtain rfl : c = '-' := Option.some.inj hdash
      exact absurd hchar (by simp [ofChar?])
    rw [List.cons_append, ofLine_char hchar, ofLine_char hchar,
      ih fun hrest => h (hrest.append hlast), hmap]
  | word letters rest hne hletters hrest ih =>
    have hdash : ∀ c ∈ letters, c ≠ '-' := fun c hc => (isWordChar_iff.1 (hletters c hc)).2.2
    have hlast : letters.getLast? ≠ some '-' := fun hlast =>
      hdash '-' (List.mem_of_getLast? hlast) rfl
    have hhead : ∀ c ∈ (rest ++ right).head?, isWordChar c = false := by
      cases rest with
      | cons c rest => exact hrest
      | nil =>
        -- the word would go on after the cut
        intro c hc
        obtain ⟨after, rfl⟩ := List.head?_eq_some_iff.1 hc
        by_contra hword
        refine h ?_
        rw [List.append_nil, ← List.dropLast_concat_getLast hne]
        refine .word (hletters _ (List.getLast_mem hne)) (by simpa using hword) fun _ hbefore => ?_
        exact hdash '-' (List.dropLast_subset _ (List.mem_of_getLast? hbefore)) rfl
    rw [List.append_assoc, ofLine_word hne hletters hhead, ofLine_word hne hletters hrest,
      ih fun hrest => h (hrest.append hlast), hmap]

theorem ofLine_blanks_append {blanks : Text} (h : ∀ c ∈ blanks, isBlank c = true) (rest : Text) :
    ofLine (blanks ++ rest) = ofLine rest := by
  induction blanks with
  | nil => rfl
  | cons c blanks ih =>
    obtain ⟨hc, h⟩ := List.forall_mem_cons.1 h
    rw [List.cons_append, ofLine_blank hc, ih h]

/-- White space that is put into a line, but not into a token of it, means nothing. -/
theorem ofLine_insert_blanks {left blanks right : Text} (hcut : ¬ Splits left right)
    (hblanks : ∀ c ∈ blanks, isBlank c = true) :
    ofLine (left ++ blanks ++ right) = ofLine (left ++ right) := by
  have hcut' : ¬ Splits left (blanks ++ right) := by
    cases blanks with
    | nil => exact hcut
    | cons c blanks =>
      intro hsplits
      obtain ⟨b, after, hright, hb⟩ := hsplits.exists_head
      obtain rfl : c = b := (List.cons_eq_cons.1 hright).1
      simp [hblanks c List.mem_cons_self] at hb
  rw [List.append_assoc, ofLine_append hcut', ofLine_append hcut, ofLine_blanks_append hblanks]

end Token

end ContextFree
