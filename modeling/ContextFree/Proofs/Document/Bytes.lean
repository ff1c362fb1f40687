import ContextFree.Proofs.Document.Report
import ContextFree.Proofs.Text.Encoding

/-!
# Files and their texts

A file is read as bytes, which are cut into lines and decoded line by line.
`Document.loadFile_agrees` compares this with loading the text that the bytes encode.  If they
encode one, nothing is different.  If they do not, then the lines that are not text are reported
(`Document.ByteLineError`), together with what is wrong with the other lines by themselves.
-/

namespace ContextFree

namespace Document

variable {file : FileName} {bytes : List UInt8}

/-- What is wrong with a line of a file by itself. -/
inductive ByteLineError (file : FileName) (bytes : List UInt8) (number : Nat) :
    Located LoadError → Prop where
  | notText {line : List UInt8} (hline : HasNumber (lines 10 13 bytes) number line)
      (hnotText : ∀ text, line ≠ Text.utf8 text) :
      ByteLineError file bytes number (.inFile file (.unreadable .notText))
  | noStatement {text : Text} {e : LoadError}
      (hline : HasNumber (lines 10 13 bytes) number text.utf8) (hcontent : isContent text = true)
      (herror : Statement.ofLine text = .error e) :
      ByteLineError file bytes number (.atLine file (number, e))

/-- Decoding goes wrong in one way only. -/
theorem decodeLine_eq_error_iff {line : List UInt8} {fault : ReadFault} :
    decodeLine line = .error fault ↔ (∀ text, line ≠ Text.utf8 text) ∧ fault = .notText := by
  have hfault : ∀ fault, decodeLine line = .error fault → fault = .notText := by
    intro fault h
    rw [decodeLine] at h
    split at h
    · simp at h
    · exact (Except.error.inj h).symm
  constructor
  · intro h
    refine ⟨fun text htext => ?_, hfault fault h⟩
    rw [decodeLine_eq_ok_iff.2 htext] at h
    simp at h
  · rintro ⟨hnotText, rfl⟩
    cases h : decodeLine line with
    | ok text => exact absurd (decodeLine_eq_ok_iff.1 h) (hnotText text)
    | error fault => rw [hfault fault h]

theorem lineError_map_decodeLine_iff {number : Nat} {error : Located LoadError} :
    LineError file ((lines 10 13 bytes).map decodeLine) number error ↔
      ByteLineError file bytes number error := by
  constructor
  · intro h
    cases h with
    | unreadable hfault =>
      obtain ⟨line, hline, hdecode⟩ := HasNumber.map_iff.1 hfault
      obtain ⟨hnotText, rfl⟩ := decodeLine_eq_error_iff.1 hdecode
      exact .notText hline hnotText
    | noStatement htext hcontent herror =>
      obtain ⟨line, hline, hdecode⟩ := HasNumber.map_iff.1 htext
      obtain rfl := decodeLine_eq_ok_iff.1 hdecode
      exact .noStatement hline hcontent herror
  · intro h
    cases h with
    | notText hline hnotText =>
      have hdecode := decodeLine_eq_error_iff.2 ⟨hnotText, rfl⟩
      exact .unreadable (HasNumber.map_iff.2 ⟨_, hline, hdecode⟩)
    | noStatement hline hcontent herror =>
      exact .noStatement (HasNumber.map_iff.2 ⟨_, hline, decodeLine_utf8 _⟩) hcontent herror

/-- Bytes that encode a text are loaded like the text. -/
theorem loadBytes_utf8 (file : FileName) (text : Text) :
    loadBytes file text.utf8 = loadText file text := by
  have hdecode : decodeLine ∘ Text.utf8 = .ok := funext decodeLine_utf8
  rw [loadBytes, lines_utf8, List.map_map, hdecode, loadText]

/-- Bytes that encode no text have a line that encodes none. -/
theorem exists_byteLineError (file : FileName) (hbytes : ∀ text, bytes ≠ Text.utf8 text) :
    ∃ number error, ByteLineError file bytes number error := by
  by_contra hnone
  simp only [not_exists] at hnone
  have hlines : ∀ line ∈ lines 10 13 bytes, ∃ text, line = Text.utf8 text := by
    intro line hline
    by_contra hnotText
    obtain ⟨i, hi⟩ := List.mem_iff_getElem?.1 hline
    exact hnone (i + 1) _ (.notText ⟨i.succ_pos, hi⟩ fun text htext => hnotText ⟨text, htext⟩)
  obtain ⟨text, htext⟩ := exists_utf8_of_lines hlines
  exact hbytes text htext

/-- Loading a file agrees with loading the text that its bytes encode.  If they encode none, then
the lines that are not text are reported, and with them what is wrong with the other lines by
themselves. -/
theorem loadFile_agrees (file : FileName) (bytes : List UInt8) :
    (∀ text, bytes = Text.utf8 text → loadFile file (.ok bytes) = loadText file text) ∧
      ((∀ text, bytes ≠ Text.utf8 text) → ∃ errors, errors ≠ [] ∧
        ByLine (ByteLineError file bytes) errors ∧
        loadFile file (.ok bytes) = .error (errors.map Prod.snd)) := by
  constructor
  · rintro text rfl
    exact loadBytes_utf8 file text
  · intro hbytes
    obtain ⟨number, error, herror⟩ := exists_byteLineError file hbytes
    obtain ⟨errors, _, hall, -, hload⟩ := load_cases file ((lines 10 13 bytes).map decodeLine)
    have herrors := hall.congr fun _ _ => lineError_map_decodeLine_iff
    have hne : errors ≠ [] := fun hnil => herrors.eq_nil_iff.1 hnil number error herror
    rcases hload with ⟨-, hload⟩ | ⟨hnil, -⟩
    · exact ⟨errors, hne, herrors, hload⟩
    · exact absurd hnil hne

/-- Bytes whose first line has half an arrow, and whose second line is a comment that is no text. -/
def brokenLines : List UInt8 := [45, 10, 59, 255]

/-- Both lines are reported.  Bytes that encode a text are not looked at like this. -/
theorem loadFile_brokenLines :
    loadFile ⟨['f']⟩ (.ok (Text.utf8 ['-', '\n', ';', 'é'])) =
        loadText ⟨['f']⟩ ['-', '\n', ';', 'é'] ∧
      (∀ text, brokenLines ≠ Text.utf8 text) ∧
      ∃ errors, ByLine (ByteLineError ⟨['f']⟩ brokenLines) errors ∧
        errors.map Prod.snd =
          [.atLine ⟨['f']⟩ (1, .strayDash), .inFile ⟨['f']⟩ (.unreadable .notText)] := by
  have hdecode : decodeLine brokenLines = .error .notText := rfl
  obtain ⟨hnotText, -⟩ := decodeLine_eq_error_iff.1 hdecode
  obtain ⟨hsame, -⟩ := loadFile_agrees ⟨['f']⟩ (Text.utf8 ['-', '\n', ';', 'é'])
  obtain ⟨-, hbroken⟩ := loadFile_agrees ⟨['f']⟩ brokenLines
  obtain ⟨errors, -, herrors, hload⟩ := hbroken hnotText
  refine ⟨hsame _ rfl, hnotText, errors, herrors, ?_⟩
  have hlines : (lines 10 13 brokenLines).map decodeLine = [.ok ['-'], .error .notText] := rfl
  have hcontent : isContent ['-'] = true := by decide
  have hdash : Statement.ofLine ['-'] = .error .strayDash := by
    have hblank : isBlank '-' = false := by decide
    simp [Statement.ofLine, Token.ofLine, hblank, bind, Except.bind]
  have hloaded : loadFile ⟨['f']⟩ (.ok brokenLines) = .error
      [.atLine ⟨['f']⟩ (1, .strayDash), .inFile ⟨['f']⟩ (.unreadable .notText)] := by
    rw [loadFile, loadBytes, hlines]
    simp [load, numbered, takesPart, hcontent, readLine, hdash, errorsOf, Located.atLine,
      Located.inFile]
  rw [hload] at hloaded
  exact Except.error.inj hloaded

end Document

end ContextFree
