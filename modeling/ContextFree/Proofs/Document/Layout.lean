import ContextFree.Proofs.Document.Renumbering
import ContextFree.Proofs.Document.RoundTrip
import Mathlib.Logic.Relation

/-!
# The layout of a document

Blank lines, comments and the white space between tokens do not change what a document says, and
neither does the way in which lines end.

* `Document.SameContent` relates texts that say the same: their content lines correspond, one after
  the other.  `Document.agree_loadText` says that they are loaded with the same outcome, up to the
  numbers of lines.
* `Document.readings` is what a text says without the numbers of its lines.  It is put together from
  what stands between line feeds (`Document.readings_append`).  The carriage returns that do not
  belong to lines make no difference here, because they are white space.
* `Document.Relaid` is a change to the layout of a text, and `Document.Relaid.readings_eq` says that
  it does not change what the text says.

`Document.loadText_layout` combines them.
-/

namespace ContextFree

/-- A text with a carriage return before every line feed. -/
def Text.withCarriageReturns (text : Text) : Text :=
  text.flatMap fun c => if c = '\n' then ['\r', '\n'] else [c]

namespace Document

/-! ## Content lines -/

/-- The lines of a text that say something, with their numbers. -/
def contentLines (text : Text) : List (Nat × Text) :=
  (numbered text.lines).filter fun line => isContent line.2

/-- Two texts say the same if their content lines correspond in their order, and are read as the
same tokens or with the same error. -/
def SameContent (text other : Text) : Prop :=
  List.Forall₂ (fun line line' => Token.ofLine line.2 = Token.ofLine line'.2) (contentLines text)
    (contentLines other)

/-- The numbers of lines that have the same position among the content lines of two texts. -/
def Corresponding (text other : Text) (n m : Nat) : Prop :=
  ∃ (i : Nat) (line line' : Text), (contentLines text)[i]? = some (n, line) ∧
    (contentLines other)[i]? = some (m, line')

variable {text other : Text}

/-- Lines that are related one by one have the same positions. -/
theorem forall₂_corresponding {P : Nat × Text → Nat × Text → Prop}
    (h : List.Forall₂ P (contentLines text) (contentLines other)) :
    List.Forall₂ (fun x y => Corresponding text other x.1 y.1 ∧ P x y) (contentLines text)
      (contentLines other) := by
  obtain ⟨hlength, hall⟩ := List.forall₂_iff_zip.1 h
  refine List.forall₂_iff_zip.2 ⟨hlength, fun {x y} hxy => ⟨?_, hall hxy⟩⟩
  obtain ⟨i, hi⟩ := List.mem_iff_getElem?.1 hxy
  obtain ⟨hx, hy⟩ := List.getElem?_zip_eq_some.1 hi
  exact ⟨i, x.2, y.2, hx, hy⟩

/-- The lines of a text that take part in loading are its content lines. -/
theorem filter_takesPart (text : Text) :
    ((numbered (text.lines.map Except.ok)).filter fun line => takesPart line.2) =
      (contentLines text).map fun line => (line.1, .ok line.2) := by
  rw [numbered_map, List.filter_map]
  rfl

/-- Texts that say the same are loaded with the same outcome, up to the numbers of lines. -/
theorem agree_loadText (file file' : FileName) (h : SameContent text other) :
    Agree (List.Forall₂ (Located.Matches file file' (Corresponding text other))) (· = ·)
      (loadText file text) (loadText file' other) := by
  refine agree_load file file' ?_
  rw [filter_takesPart, filter_takesPart, List.forall₂_map_left_iff, List.forall₂_map_right_iff]
  exact (forall₂_corresponding h).imp fun _ _ hxy => ⟨hxy.1, .ok hxy.2⟩

/-! ## What a text says -/

/-- What the content lines of a text are read as. -/
def readings (text : Text) : List (Except LoadError (List Token)) :=
  (text.lines.filter isContent).map Token.ofLine

theorem map_snd_contentLines (text : Text) :
    (contentLines text).map Prod.snd = text.lines.filter isContent := by
  have hlines : (numbered text.lines).map Prod.snd = text.lines := by
    simp [numbered, Function.comp_def]
  conv_rhs => rw [← hlines, List.filter_map]
  rfl

/-- Texts say the same if their lines do, whatever the numbers are. -/
theorem sameContent_iff : SameContent text other ↔ readings text = readings other := by
  have hreadings : ∀ text : Text,
      readings text = (contentLines text).map fun line => Token.ofLine line.2 := by
    intro text
    rw [readings, ← map_snd_contentLines, List.map_map]
    rfl
  rw [hreadings, hreadings, ← List.forall₂_eq_eq_eq, List.forall₂_map_left_iff,
    List.forall₂_map_right_iff]
  rfl

/-- A text without a line feed says what it says as a line. -/
theorem readings_of_not_mem {line : Text} (hline : '\n' ∉ line) :
    readings line = if isContent line then [Token.ofLine line] else [] := by
  by_cases hempty : line = []
  · subst hempty
    rfl
  · rw [readings, Text.lines, lines_of_not_mem hempty hline, List.filter_cons]
    split <;> rfl

/-! ## White space -/

theorem isContent_eq (line : Text) :
    isContent line = (line.find? fun c => !isBlank c).any (· ≠ ';') := by
  rw [isContent, Text.trimStart, List.find?_not_eq_head?_dropWhile]
  cases line.dropWhile isBlank <;> rfl

/-- White space does not decide whether a line says something. -/
theorem isContent_insert_blanks {left blanks right : Text} (h : ∀ c ∈ blanks, isBlank c = true) :
    isContent (left ++ blanks ++ right) = isContent (left ++ right) := by
  have hnone : (blanks.find? fun c => !isBlank c) = none :=
    List.find?_eq_none.2 fun c hc => by simp [h c hc]
  rw [isContent_eq, isContent_eq, List.find?_append, List.find?_append, List.find?_append, hnone,
    Option.or_none]

/-- White space that is put between the tokens of a line means nothing. -/
theorem readings_insert_blanks {left blanks right : Text} (hline : '\n' ∉ left ++ blanks ++ right)
    (hblanks : ∀ c ∈ blanks, isBlank c = true) (hcut : ¬ Token.Splits left right) :
    readings (left ++ blanks ++ right) = readings (left ++ right) := by
  have hline' : '\n' ∉ left ++ right := by
    simp only [List.mem_append, not_or] at hline ⊢
    exact ⟨hline.1.1, hline.2⟩
  rw [readings_of_not_mem hline, readings_of_not_mem hline', isContent_insert_blanks hblanks,
    Token.ofLine_insert_blanks hcut hblanks]

/-! ## Pieces between line feeds -/

/-- A carriage return at the end of a line means nothing. -/
theorem readings_carriageReturn {line : Text} (hline : '\n' ∉ line) :
    readings (line ++ ['\r']) = readings line := by
  have hcut : ¬ Token.Splits line [] := by
    rintro ⟨⟩
  have hblank : ∀ c ∈ ['\r'], isBlank c = true := List.forall_mem_singleton.2 (by decide)
  have hinsert : readings (line ++ ['\r'] ++ []) = readings (line ++ []) :=
    readings_insert_blanks (by simpa using hline) hblank hcut
  rwa [List.append_nil, List.append_nil] at hinsert

/-- The first line of a text is read like a text of its own. -/
theorem readings_line_append {line : Text} (hline : '\n' ∉ line) (rest : Text) :
    readings (line ++ '\n' :: rest) = readings line ++ readings rest := by
  have hcons : ∀ line : Text, '\n' ∉ line → ∀ text : Text, text.lines = line :: rest.lines →
      readings text = readings line ++ readings rest := by
    intro line hline text hlines
    rw [readings, hlines, readings_of_not_mem hline, List.filter_cons]
    split <;> rfl
  by_cases hcr : line.getLast? = some '\r'
  · obtain ⟨line, rfl⟩ := List.getLast?_eq_some_iff.1 hcr
    have hline : '\n' ∉ line := fun hmem => hline (List.mem_append_left _ hmem)
    rw [readings_carriageReturn hline, List.append_assoc]
    exact hcons line hline _ (lines_append_carriageReturn (by decide) hline rest)
  · exact hcons line hline _ (lines_append hline hcr rest)

/-- What stands before a line feed and what stands after it are read like texts of their own. -/
theorem readings_append (first rest : Text) :
    readings (first ++ '\n' :: rest) = readings first ++ readings rest := by
  induction first using Text.lines_induction with
  | last line hline => exact readings_line_append hline rest
  | next line first hline ih =>
    rw [List.append_assoc, List.cons_append, readings_line_append hline, ih,
      readings_line_append hline, List.append_assoc]

/-- A carriage return at the end of a text means nothing, like one at the end of its last line. -/
theorem readings_append_carriageReturn (text : Text) :
    readings (text ++ ['\r']) = readings text := by
  induction text using Text.lines_induction with
  | last line hline => exact readings_carriageReturn hline
  | next line text hline ih =>
    rw [List.append_assoc, List.cons_append, readings_append, readings_append, ih]

theorem readings_intercalate (pieces : List Text) :
    readings (['\n'].intercalate pieces) = pieces.flatMap readings := by
  induction pieces with
  | nil => rfl
  | cons piece pieces ih =>
    cases pieces with
    | nil => simp
    | cons next pieces =>
      rw [List.intercalate_cons_cons, List.append_assoc, List.singleton_append, readings_append, ih]
      rfl

/-! ## Changes to the layout -/

/-- A change to the layout of a text: a blank line or a comment is added, a line feed gets a
carriage return before it, or white space is put into a line, but not into a token of it. -/
inductive Relaid : Text → Text → Prop where
  | line {line : Text} (before after : List Text) (hline : '\n' ∉ line)
      (hcontent : isContent line = false) :
      Relaid (['\n'].intercalate (before ++ after)) (['\n'].intercalate (before ++ line :: after))
  | carriageReturn (before after : Text) :
      Relaid (before ++ '\n' :: after) (before ++ '\r' :: '\n' :: after)
  | blanks {left blanks right : Text} (before after : List Text)
      (hline : '\n' ∉ left ++ blanks ++ right) (hblanks : ∀ c ∈ blanks, isBlank c = true)
      (hcut : ¬ Token.Splits left right) :
      Relaid (['\n'].intercalate (before ++ (left ++ right) :: after))
        (['\n'].intercalate (before ++ (left ++ blanks ++ right) :: after))

theorem Relaid.readings_eq (h : Relaid text other) : readings text = readings other := by
  cases h with
  | @line line before after hline hcontent =>
    have hnone : readings line = [] := by
      rw [readings_of_not_mem hline, hcontent]
      rfl
    simp only [readings_intercalate, List.flatMap_append, List.flatMap_cons, hnone, List.nil_append]
  | carriageReturn before after =>
    rw [List.append_cons before '\r', readings_append, readings_append,
      readings_append_carriageReturn]
  | blanks before after hline hblanks hcut =>
    simp only [readings_intercalate, List.flatMap_append, List.flatMap_cons,
      readings_insert_blanks hline hblanks hcut]

theorem readings_withCarriageReturns (text : Text) :
    readings text.withCarriageReturns = readings text := by
  have hkept : ∀ line : Text, '\n' ∉ line → line.withCarriageReturns = line := by
    intro line hline
    induction line with
    | nil => rfl
    | cons c line ih =>
      obtain ⟨hc, hline⟩ := List.ne_and_not_mem_of_not_mem_cons hline
      rw [Text.withCarriageReturns, List.flatMap_cons, if_neg hc.symm]
      exact congrArg (c :: ·) (ih hline)
  induction text using Text.lines_induction with
  | last line hline => rw [hkept line hline]
  | next line text hline ih =>
    have hnext : Text.withCarriageReturns (line ++ '\n' :: text) =
        line ++ ['\r'] ++ '\n' :: text.withCarriageReturns := by
      have hfirst := hkept line hline
      rw [Text.withCarriageReturns] at hfirst
      simp [Text.withCarriageReturns, hfirst]
    rw [hnext, readings_append, readings_append, readings_carriageReturn hline, ih]

/-- Texts that differ in their layout say the same. -/
theorem sameContent_of_relaid (h : Relation.EqvGen Relaid text other) :
    SameContent text other := by
  rw [sameContent_iff]
  induction h with
  | rel _ _ h => exact h.readings_eq
  | refl => rfl
  | symm _ _ _ ih => exact ih.symm
  | trans _ _ _ _ _ ih ih' => exact ih.trans ih'

/-- The layout of a document never changes what it means.  Two texts whose content lines correspond
are loaded as the same grammar or with the same errors in the same order, each in the whole of its
file or at corresponding lines.  And the content lines correspond if one text is made from the other
by adding and taking away blank lines, comments, white space that is not within a token, and
carriage returns before line feeds. -/
theorem loadText_layout (file file' : FileName) :
    (∀ text other, SameContent text other →
      Agree (List.Forall₂ (Located.Matches file file' (Corresponding text other))) (· = ·)
        (loadText file text) (loadText file' other)) ∧
    (∀ text other, Relation.EqvGen Relaid text other → SameContent text other) ∧
    ∀ text : Text, SameContent text text.withCarriageReturns :=
  ⟨fun _ _ => agree_loadText file file', fun _ _ => sameContent_of_relaid,
    fun text => sameContent_iff.2 (readings_withCarriageReturns text).symm⟩

/-- A document with its sections in the usual order. -/
def usual : Text :=
  "Vt = \x7b a, b \x7d\nVh = \x7b S \x7d\nstart: S\nP:\nS -> ab\nS -> aSb\n".toList

/-- The grammar of this document. -/
def matching : Grammar where
  inputs := ["a", "b"]
  heads := ["S"]
  start := "S"
  rules := [⟨"S", ["a", "b"]⟩, ⟨"S", ["a", "S", "b"]⟩]
  faults_eq_nil := by decide +kernel

theorem loadText_usual : loadText ⟨['u']⟩ usual = .ok matching :=
  eq_ok_of_toOption (by decide +kernel)

/-- The same document with a comment before the rules. -/
def commented : Text :=
  ("Vt = \x7b a, b \x7d\nVh = \x7b S \x7d\nstart: S\n; the rules\nP:\nS -> ab\n" ++
    "S -> aSb\n").toList

/-- Neither the comment nor carriage returns make another grammar of the document. -/
theorem loadText_commented :
    Relation.EqvGen Relaid usual commented ∧ loadText ⟨['c']⟩ commented = .ok matching ∧
      loadText ⟨['c']⟩ usual.withCarriageReturns = .ok matching := by
  obtain ⟨hagree, hrelaid, hreturns⟩ := loadText_layout ⟨['u']⟩ ⟨['c']⟩
  have hload : ∀ other, SameContent usual other → loadText ⟨['c']⟩ other = .ok matching := by
    intro other hsame
    have hother := hagree usual other hsame
    rw [loadText_usual] at hother
    generalize loadText ⟨['c']⟩ other = result at hother ⊢
    cases hother with
    | ok heq => rw [heq]
  have hline : '\n' ∉ "; the rules".toList := by decide
  have hcomment := Relaid.line
    ("Vt = \x7b a, b \x7d\nVh = \x7b S \x7d\nstart: S".toList.splitOn '\n')
    ("P:\nS -> ab\nS -> aSb\n".toList.splitOn '\n') hline (by decide)
  have hrelated : Relation.EqvGen Relaid usual commented := by
    apply Relation.EqvGen.rel
    convert hcomment using 1
    · decide +kernel
    · decide +kernel
  exact ⟨hrelated, hload _ (hrelaid _ _ hrelated), hload _ (hreturns usual)⟩

end Document

end ContextFree
