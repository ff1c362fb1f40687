/-!
# Text

A piece of text is the list of its characters, so that reading and writing are recursion on
lists.  This module holds the ways in which this library takes a text apart.

* `Text.after?` takes off a given beginning.  `after?_eq_some` says that it undoes appending.
* `Text.cut?` cuts at the first occurrence of a separator.  `eq_of_cut?` says that nothing is
  lost but the separator.
* `Text.ends` lists the ends that are not empty, and `mem_ends` says that it lists all of them.
* `Text.utf8Length` measures a text in bytes.
* `Text.order` is the order by code points.  It is a linear order, so texts can be sorted and kept
  in search trees.
-/

namespace ContextFree

/-- A piece of text is the list of its characters. -/
abbrev Text := List Char

namespace Text

/-! ## Taking off a beginning -/

/-- What stands in a text after the given beginning, if the text has that beginning. -/
def after? : (text beginning : Text) → Option Text
  | text, [] => some text
  | [], _ :: _ => none
  | c :: text, b :: beginning => if c = b then after? text beginning else none

theorem after?_eq_some {text beginning rest : Text} :
    text.after? beginning = some rest ↔ text = beginning ++ rest := by
  fun_induction after? text beginning with
  | case1 text => simp
  | case2 b beginning => simp
  | case3 c text beginning ih => simpa using ih
  | case4 c text b beginning hne => simpa using fun h => absurd h hne

@[simp] theorem after?_append (beginning rest : Text) :
    after? (beginning ++ rest) beginning = some rest :=
  after?_eq_some.2 rfl

/-! ## Cutting at a separator -/

/-- The parts of a text before and after the first occurrence of a separator. -/
def cut? : (text separator : Text) → Option (Text × Text)
  | [], separator => (after? [] separator).map fun rest => ([], rest)
  | c :: text, separator =>
    match after? (c :: text) separator with
    | some rest => some ([], rest)
    | none => (cut? text separator).map fun (before, rest) => (c :: before, rest)

/-- A cut loses the separator and nothing else. -/
theorem eq_of_cut? {text separator before rest : Text}
    (h : text.cut? separator = some (before, rest)) : text = before ++ separator ++ rest := by
  induction text generalizing before with
  | nil =>
    simp only [cut?, Option.map_eq_some_iff, Prod.mk.injEq] at h
    obtain ⟨r, hr, rfl, rfl⟩ := h
    simpa using after?_eq_some.1 hr
  | cons c text ih =>
    rw [cut?] at h
    split at h
    · next r hr =>
      obtain ⟨rfl, rfl⟩ := Prod.mk.inj (Option.some.inj h)
      simpa using after?_eq_some.1 hr
    · simp only [Option.map_eq_some_iff, Prod.exists, Prod.mk.injEq] at h
      obtain ⟨b, r, hcut, rfl, rfl⟩ := h
      simp [ih hcut]

/-! ## Ends -/

/-- The ends of a text that are not empty, longest first. -/
def ends : Text → List Text
  | [] => []
  | c :: text => (c :: text) :: ends text

theorem mem_ends {text last : Text} : last ∈ text.ends ↔ last ≠ [] ∧ last <:+ text := by
  induction text with
  | nil => simp [ends]
  | cons c text ih =>
    rw [ends, List.mem_cons, ih, List.suffix_cons_iff]
    constructor
    · rintro (rfl | ⟨hne, hlast⟩)
      · exact ⟨by simp, Or.inl rfl⟩
      · exact ⟨hne, Or.inr hlast⟩
    · rintro ⟨hne, rfl | hlast⟩
      · exact Or.inl rfl
      · exact Or.inr ⟨hne, hlast⟩

/-! ## Length -/

/-- How many bytes a text takes up in UTF-8. -/
def utf8Length (text : Text) : Nat := (String.ofList text).utf8ByteSize

/-! ## Order -/

/-- The order of texts.  The first letters that differ decide by their code points, and a
beginning comes before what it begins. -/
def order : Text → Text → Ordering := List.compareLex (compareOn Char.toNat)

instance : Std.LawfulEqCmp (compareOn Char.toNat) where
  eq_of_compare h := Char.toNat_inj.1 (Std.LawfulEqOrd.eq_of_compare h)

instance : Std.TransCmp order := inferInstanceAs (Std.TransCmp (List.compareLex _))

instance : Std.LawfulEqCmp order := inferInstanceAs (Std.LawfulEqCmp (List.compareLex _))

end Text

end ContextFree
