import ContextFree.Document.Load
import ContextFree.Proofs.Text.Lines

/-!
# Lines of encoded text

A text in UTF-8 is cut into lines in two ways: by its characters, or by its bytes and then decoded
line by line.  `lines_utf8` says that both agree.  The reason is that the bytes that end lines are
never part of another character (`mem_utf8EncodeChar_iff`).

The other way round, bytes that are a text line by line are a text (`exists_utf8_of_lines`), and
`Document.decodeLine_eq_ok_iff` says when a line is one.
-/

namespace ContextFree

/-- The bytes of a text in UTF-8. -/
def Text.utf8 (text : Text) : List UInt8 := text.flatMap String.utf8EncodeChar

/-! ## Bytes of characters -/

theorem utf8EncodeChar_of_lt {c : Char} (hc : c.toNat < 128) :
    String.utf8EncodeChar c = [UInt8.ofNat c.toNat] :=
  if_pos (Nat.le_of_lt_succ hc)

/-- Characters beyond the first 128 are encoded by bytes beyond the first 128. -/
theorem le_of_mem_utf8EncodeChar {c : Char} (hc : 128 ≤ c.toNat) {b : UInt8}
    (hb : b ∈ String.utf8EncodeChar c) : 128 ≤ b.toNat := by
  have hlow : ∀ x k m : Nat, 128 ≤ m → 0 < k → k + m ≤ 256 →
      128 ≤ (UInt8.ofNat (x % k + m)).toNat := by
    intro x k m hm hk hsum
    have hx := Nat.mod_lt x hk
    rw [UInt8.toNat_ofNat', Nat.mod_eq_of_lt (by omega)]
    omega
  have hval : c.val.toNat = c.toNat := rfl
  simp only [String.utf8EncodeChar, hval] at hb
  rw [if_neg (by omega)] at hb
  split at hb
  · simp only [List.mem_cons, List.not_mem_nil, or_false] at hb
    rcases hb with rfl | rfl <;> exact hlow _ _ _ (by decide) (by decide) (by decide)
  · split at hb
    · simp only [List.mem_cons, List.not_mem_nil, or_false] at hb
      rcases hb with rfl | rfl | rfl <;> exact hlow _ _ _ (by decide) (by decide) (by decide)
    · simp only [List.mem_cons, List.not_mem_nil, or_false] at hb
      rcases hb with rfl | rfl | rfl | rfl <;> exact hlow _ _ _ (by decide) (by decide) (by decide)

/-- One of the first 128 characters is only found in its own encoding. -/
theorem mem_utf8EncodeChar_iff {c d : Char} (hd : d.toNat < 128) :
    UInt8.ofNat d.toNat ∈ String.utf8EncodeChar c ↔ d = c := by
  constructor
  · intro h
    have hbyte : (UInt8.ofNat d.toNat).toNat = d.toNat := by
      rw [UInt8.toNat_ofNat']
      omega
    by_cases hc : c.toNat < 128
    · rw [utf8EncodeChar_of_lt hc, List.mem_singleton] at h
      have hcode := congrArg UInt8.toNat h
      rw [hbyte, UInt8.toNat_ofNat', Nat.mod_eq_of_lt (by omega)] at hcode
      exact Char.toNat_inj.1 hcode
    · have hle := le_of_mem_utf8EncodeChar (Nat.le_of_not_lt hc) h
      omega
  · rintro rfl
    rw [utf8EncodeChar_of_lt hd]
    exact List.mem_singleton_self _

theorem lineFeed_mem_utf8EncodeChar_iff {c : Char} : 10 ∈ String.utf8EncodeChar c ↔ '\n' = c :=
  mem_utf8EncodeChar_iff (d := '\n') (by decide)

theorem carriageReturn_mem_utf8EncodeChar_iff {c : Char} :
    13 ∈ String.utf8EncodeChar c ↔ '\r' = c :=
  mem_utf8EncodeChar_iff (d := '\r') (by decide)

theorem utf8EncodeChar_ne_nil (c : Char) : String.utf8EncodeChar c ≠ [] := by
  apply List.ne_nil_of_length_pos
  rw [String.length_utf8EncodeChar]
  exact c.utf8Size_pos

/-! ## Lines -/

namespace Text

theorem utf8_cons (c : Char) (text : Text) :
    utf8 (c :: text) = String.utf8EncodeChar c ++ utf8 text :=
  List.flatMap_cons

theorem utf8_append (first second : Text) : utf8 (first ++ second) = utf8 first ++ utf8 second :=
  List.flatMap_append

theorem head?_utf8_iff {text : Text} : text.utf8.head? = some 10 ↔ text.head? = some '\n' := by
  cases text with
  | nil => simp [utf8]
  | cons c text =>
    obtain ⟨b, bytes, hbytes⟩ := List.exists_cons_of_ne_nil (utf8EncodeChar_ne_nil c)
    have hmem : b ∈ String.utf8EncodeChar c := hbytes ▸ List.mem_cons_self
    rw [utf8_cons, hbytes, List.cons_append, List.head?_cons, List.head?_cons, Option.some.injEq,
      Option.some.injEq]
    constructor
    · rintro rfl
      exact (lineFeed_mem_utf8EncodeChar_iff.1 hmem).symm
    · rintro rfl
      exact (List.cons_eq_cons.1 hbytes).1.symm

end Text

/-- The lines of the bytes of a text are the bytes of its lines. -/
theorem lines_utf8 (text : Text) : lines 10 13 text.utf8 = text.lines.map Text.utf8 := by
  induction text with
  | nil => rfl
  | cons c text ih =>
    rw [Text.utf8_cons, Text.lines]
    rcases lines_cases '\n' '\r' c text with
      ⟨rfl, hlines⟩ | ⟨-, rfl, hhead, hlines⟩ | ⟨hlf, hcr, hlines⟩
    · rw [hlines]
      show [] :: lines 10 13 (Text.utf8 text) = _
      rw [ih]
      rfl
    · have hdrop : lines 10 13 (13 :: Text.utf8 text) = lines 10 13 (Text.utf8 text) := by
        rw [lines, if_neg (by decide), if_pos ⟨rfl, Text.head?_utf8_iff.2 hhead⟩]
      rw [hlines]
      exact hdrop.trans ih
    · -- the bytes of a character are kept together, because none of them ends a line
      rw [hlines, lines_append_kept (utf8EncodeChar_ne_nil c), ih, Text.lines]
      · cases lines '\n' '\r' text <;> simp [extendFirst, Text.utf8]
      · exact fun h => hlf (lineFeed_mem_utf8EncodeChar_iff.1 h).symm
      · intro hlast hhead
        have hc := carriageReturn_mem_utf8EncodeChar_iff.1 (List.mem_of_getLast? hlast)
        exact hcr hc.symm (Text.head?_utf8_iff.1 hhead)

/-- Bytes are a text if all their lines are. -/
theorem exists_utf8_of_lines {bytes : List UInt8}
    (h : ∀ line ∈ lines 10 13 bytes, ∃ text, line = Text.utf8 text) :
    ∃ text, bytes = Text.utf8 text := by
  -- by induction on the lines, because the bytes after a line are shorter than all bytes
  induction hlines : lines 10 13 bytes generalizing bytes with
  | nil => exact ⟨[], lines_eq_nil_iff.1 hlines⟩
  | cons line others ih =>
    obtain ⟨ending, rest, rfl, hrest, hending⟩ := eq_append_of_lines hlines
    rw [hlines] at h
    obtain ⟨⟨first, rfl⟩, hothers⟩ := List.forall_mem_cons.1 h
    obtain ⟨second, hsecond⟩ := ih (hrest.symm ▸ hothers) hrest
    have hmiddle : ∃ middle, ending = Text.utf8 middle := by
      rcases hending with rfl | rfl | ⟨rfl, -⟩
      · exact ⟨['\n'], rfl⟩
      · exact ⟨['\r', '\n'], rfl⟩
      · exact ⟨[], rfl⟩
    obtain ⟨middle, rfl⟩ := hmiddle
    exact ⟨first ++ middle ++ second, by rw [Text.utf8_append, Text.utf8_append, hsecond]⟩

/-! ## Decoding -/

namespace Document

theorem decodeLine_eq_ok_iff {bytes : List UInt8} {text : Text} :
    decodeLine bytes = .ok text ↔ bytes = text.utf8 := by
  rw [decodeLine, String.fromUTF8?]
  by_cases hvalid : bytes.toByteArray.IsValidUTF8
  · rw [dif_pos hvalid]
    obtain ⟨decoded, hdecoded⟩ : ∃ s, s = String.fromUTF8 bytes.toByteArray hvalid := ⟨_, rfl⟩
    have hbytes : decoded.toByteArray = bytes.toByteArray := congrArg String.toByteArray hdecoded
    rw [← hdecoded]
    constructor
    · intro h
      obtain rfl : decoded.toList = text := Except.ok.inj h
      exact List.toByteArray_inj.1 (hbytes.symm.trans String.utf8Encode_toList.symm)
    · rintro rfl
      have htext : decoded = String.ofList text :=
        String.toByteArray_inj.1 (hbytes.trans String.toByteArray_ofList.symm)
      simp [htext]
  · rw [dif_neg hvalid]
    have hne : bytes ≠ text.utf8 := fun h => hvalid ⟨text, congrArg List.toByteArray h⟩
    simp [hne]

theorem decodeLine_utf8 (text : Text) : decodeLine text.utf8 = .ok text :=
  decodeLine_eq_ok_iff.2 rfl

end Document

end ContextFree
