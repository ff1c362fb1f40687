import ContextFree.Proofs.Document.ByLine
import ContextFree.Proofs.Vocabulary.Split

/-!
# The rules of a document

A rule is resolved word by word.  `RuleLine.Resolves` relates a rule to the production that it
states, and `RuleLine.StuckAt` to the word that its error names: the first one that no symbols
spell.  `Document.declare_cases` is the outcome for all rules of a document in these terms.

The lemmas on `mapM` say when going through a list works, and which error it ends with otherwise.
-/

namespace ContextFree

/-! ## Going through a list -/

section

variable {α β ε : Type} {f : α → Except ε β}

theorem mapM_cons_ok {a : α} {b : β} (h : f a = .ok b) (xs : List α) :
    (a :: xs).mapM f = (xs.mapM f).map (b :: ·) := by
  rw [List.mapM_cons, h]
  cases xs.mapM f <;> rfl

theorem mapM_cons_error {a : α} {e : ε} (h : f a = .error e) (xs : List α) :
    (a :: xs).mapM f = .error e := by
  rw [List.mapM_cons, h]
  rfl

theorem mapM_eq_ok_iff {xs : List α} {ys : List β} :
    xs.mapM f = .ok ys ↔ List.Forall₂ (fun x y => f x = .ok y) xs ys := by
  induction xs generalizing ys with
  | nil => simp [pure, Except.pure, eq_comm]
  | cons x xs ih =>
    cases hx : f x with
    | error e => simp [mapM_cons_error hx, List.forall₂_cons_left_iff, hx]
    | ok b =>
      rw [mapM_cons_ok hx, List.forall₂_cons_left_iff]
      cases hxs : xs.mapM f with
      | error e => simp [Except.map, ← ih, hxs]
      | ok bs => simp [Except.map, ← ih, hxs, hx, eq_comm]

/-- The error is that of the first item that has one. -/
theorem mapM_eq_error_iff {xs : List α} {e : ε} :
    xs.mapM f = .error e ↔ ∃ before a after, xs = before ++ a :: after ∧
      (∀ x ∈ before, ∃ b, f x = .ok b) ∧ f a = .error e := by
  constructor
  · intro h
    induction xs with
    | nil => simp [pure, Except.pure] at h
    | cons x xs ih =>
      cases hx : f x with
      | error e' =>
        rw [mapM_cons_error hx] at h
        obtain rfl := Except.error.inj h
        exact ⟨[], x, xs, rfl, by simp, hx⟩
      | ok b =>
        cases hxs : xs.mapM f with
        | ok bs => simp [mapM_cons_ok hx, hxs, Except.map] at h
        | error e' =>
          have he : e' = e := by simpa [mapM_cons_ok hx, hxs, Except.map] using h
          obtain ⟨before, a, after, rfl, hbefore, ha⟩ := ih (he ▸ hxs)
          exact ⟨x :: before, a, after, rfl, List.forall_mem_cons.2 ⟨⟨b, hx⟩, hbefore⟩, ha⟩
  · rintro ⟨before, a, after, rfl, hbefore, ha⟩
    induction before with
    | nil => exact mapM_cons_error ha after
    | cons x before ih =>
      obtain ⟨⟨b, hx⟩, hbefore⟩ := List.forall_mem_cons.1 hbefore
      rw [List.cons_append, mapM_cons_ok hx, ih hbefore]
      rfl

end

/-! ## One rule -/

/-- Whether a text is written by symbols of a vocabulary that are not empty. -/
def Vocabulary.Spells (v : Vocabulary) (text : Text) : Prop :=
  ∃ symbols ⊆ v, (∀ s ∈ symbols, s.text ≠ []) ∧ Symbol.spell symbols = text

theorem Vocabulary.isSome_split?_iff {v : Vocabulary} {text : Text} :
    (v.split? text).isSome ↔ v.Spells text := by
  constructor
  · intro h
    obtain ⟨symbols, hsplit⟩ := Option.isSome_iff_exists.1 h
    obtain ⟨hspell, hsub, hletters⟩ := spell_of_split? hsplit
    exact ⟨symbols, hsub, hletters, hspell⟩
  · rintro ⟨symbols, hsub, hletters, rfl⟩
    exact isSome_split?_spell hsub hletters

namespace RuleLine

variable {v : Vocabulary} {rule : RuleLine}

/-- The production that a rule states. -/
inductive Resolves (v : Vocabulary) (rule : RuleLine) : Production → Prop where
  | nothing (hwords : rule.words = [Symbol.nothing.text]) : Resolves v rule ⟨rule.head, []⟩
  | words {parts : List (List Symbol)} (hwords : rule.words ≠ [Symbol.nothing.text])
      (hparts : List.Forall₂ (fun word part => v.split? word = some part) rule.words parts) :
      Resolves v rule ⟨rule.head, parts.flatten⟩

/-- The word that keeps a rule from being resolved: the first one that no symbols spell. -/
def StuckAt (v : Vocabulary) (rule : RuleLine) (word : Text) : Prop :=
  rule.words ≠ [Symbol.nothing.text] ∧ ∃ before after, rule.words = before ++ word :: after ∧
    (∀ w ∈ before, v.Spells w) ∧ ¬ v.Spells word

/-- The symbols of a word of a body. -/
def splitWord (v : Vocabulary) (word : Text) : Except LoadError (List Symbol) :=
  match v.split? word with
  | some symbols => .ok symbols
  | none => .error (.unknownSymbols word)

theorem splitWord_eq_ok_iff {word : Text} {part : List Symbol} :
    splitWord v word = .ok part ↔ v.split? word = some part := by
  cases h : v.split? word <;> simp [splitWord, h]

theorem exists_splitWord_iff {word : Text} :
    (∃ part, splitWord v word = .ok part) ↔ v.Spells word := by
  simp only [splitWord_eq_ok_iff, ← Option.isSome_iff_exists, Vocabulary.isSome_split?_iff]

theorem splitWord_eq_error_iff {word : Text} {e : LoadError} :
    splitWord v word = .error e ↔ ¬ v.Spells word ∧ e = .unknownSymbols word := by
  rw [← Vocabulary.isSome_split?_iff]
  cases h : v.split? word <;> simp [splitWord, h, eq_comm]

theorem resolve_nothing (h : rule.words = [Symbol.nothing.text]) :
    rule.resolve v = .ok ⟨rule.head, []⟩ :=
  if_pos h

theorem resolve_words (h : rule.words ≠ [Symbol.nothing.text]) :
    rule.resolve v =
      (rule.words.mapM (splitWord v)).map fun parts => ⟨rule.head, parts.flatten⟩ := by
  rw [resolve, if_neg h]
  show (rule.words.mapM (splitWord v)).bind _ = _
  cases rule.words.mapM (splitWord v) <;> rfl

theorem resolve_eq_ok_iff {p : Production} : rule.resolve v = .ok p ↔ rule.Resolves v p := by
  by_cases hwords : rule.words = [Symbol.nothing.text]
  · rw [resolve_nothing hwords]
    constructor
    · intro h
      obtain rfl := Except.ok.inj h
      exact .nothing hwords
    · intro h
      cases h with
      | nothing => rfl
      | words hne => exact absurd hwords hne
  · rw [resolve_words hwords]
    constructor
    · intro h
      cases hparts : rule.words.mapM (splitWord v) with
      | error e => simp [hparts, Except.map] at h
      | ok parts =>
        have hp : ⟨rule.head, parts.flatten⟩ = p := by simpa [hparts, Except.map] using h
        have hsplit := (mapM_eq_ok_iff.1 hparts).imp fun _ _ => splitWord_eq_ok_iff.1
        exact hp ▸ .words hwords hsplit
    · intro h
      cases h with
      | nothing hnothing => exact absurd hnothing hwords
      | words _ hsplit =>
        rw [mapM_eq_ok_iff.2 (hsplit.imp fun _ _ => splitWord_eq_ok_iff.2)]
        rfl

/-- A rule is refused because of the first word that cannot be split. -/
theorem resolve_eq_error_iff {e : LoadError} :
    rule.resolve v = .error e ↔ ∃ word, rule.StuckAt v word ∧ e = .unknownSymbols word := by
  by_cases hwords : rule.words = [Symbol.nothing.text]
  · simp [resolve_nothing hwords, StuckAt, hwords]
  · have hmap : rule.resolve v = .error e ↔ rule.words.mapM (splitWord v) = .error e := by
      rw [resolve_words hwords]
      cases rule.words.mapM (splitWord v) <;> simp [Except.map]
    rw [hmap, mapM_eq_error_iff]
    simp only [exists_splitWord_iff, splitWord_eq_error_iff, StuckAt, hwords, ne_eq,
      not_false_eq_true, true_and]
    constructor
    · rintro ⟨before, word, after, heq, hbefore, hword, he⟩
      exact ⟨word, ⟨before, after, heq, hbefore, hword⟩, he⟩
    · rintro ⟨word, ⟨before, after, heq, hbefore, hword⟩, he⟩
      exact ⟨before, word, after, heq, hbefore, hword, he⟩

end RuleLine

/-! ## All rules -/

/-- What was found on a line of a file, located there. -/
def Located.atLine {κ : Type} (file : FileName) (entry : Nat × κ) : Located κ :=
  ⟨entry.2, ⟨file, entry.1⟩⟩

namespace Document

/-- What a numbered rule resolves to, with its errors at its line. -/
def resolveAt (file : FileName) (v : Vocabulary) (rule : Nat × RuleLine) :
    Except (Located LoadError) Production :=
  match rule.2.resolve v with
  | .ok p => .ok p
  | .error e => .error ⟨e, ⟨file, rule.1⟩⟩

theorem declare_eq (file : FileName) (inputs heads : List Symbol) (start : Symbol)
    (rules : List (Nat × RuleLine)) :
    declare file inputs heads start rules =
      match errorsOf (rules.map (resolveAt file (inputs ++ heads))) with
      | [] => .ok ⟨inputs, heads, start, valuesOf (rules.map (resolveAt file (inputs ++ heads)))⟩
      | errors => .error errors :=
  rfl

variable {file : FileName} {v : Vocabulary} {number : Nat} {rule : RuleLine}

theorem resolveAt_eq_ok_iff {p : Production} :
    resolveAt file v (number, rule) = .ok p ↔ rule.Resolves v p := by
  rw [← RuleLine.resolve_eq_ok_iff]
  cases h : rule.resolve v <;> simp [resolveAt, h]

theorem resolveAt_eq_error_iff {error : Located LoadError} :
    resolveAt file v (number, rule) = .error error ↔
      ∃ e, rule.resolve v = .error e ∧ error = .atLine file (number, e) := by
  cases h : rule.resolve v <;> simp [resolveAt, h, Located.atLine, eq_comm]

/-- What is wrong with a rule among those that were found. -/
def Unresolved (v : Vocabulary) (found : Nat → RuleLine → Prop) (number : Nat)
    (e : LoadError) : Prop :=
  ∃ rule word, found number rule ∧ rule.StuckAt v word ∧ e = .unknownSymbols word

/-- Rules that were found line by line are resolved line by line. -/
theorem errorsOf_resolveAt (file : FileName) (v : Vocabulary) {found : Nat → RuleLine → Prop}
    {rules : List (Nat × RuleLine)} (h : ByLine found rules) :
    ∃ errors, ByLine (Unresolved v found) errors ∧
      errorsOf (rules.map (resolveAt file v)) = errors.map (.atLine file) := by
  obtain ⟨located, hlocated, heq⟩ := h.errorsOf (resolveAt file v)
  rw [heq]
  refine ByLine.exists_map Located.cause (fun _ => rfl) (hlocated.congr fun number error => ?_)
  simp only [resolveAt_eq_error_iff, RuleLine.resolve_eq_error_iff, Unresolved]
  constructor
  · rintro ⟨rule, hfound, _, ⟨word, hstuck, rfl⟩, rfl⟩
    exact ⟨_, ⟨rule, word, hfound, hstuck, rfl⟩, rfl⟩
  · rintro ⟨_, ⟨rule, word, hfound, hstuck, rfl⟩, rfl⟩
    exact ⟨rule, hfound, _, ⟨word, hstuck, rfl⟩, rfl⟩

/-- Rules declare what they resolve to, unless there are some that cannot be resolved. -/
theorem declare_cases (file : FileName) (inputs heads : List Symbol) (start : Symbol)
    {found : Nat → RuleLine → Prop} {rules : List (Nat × RuleLine)} (h : ByLine found rules) :
    ∃ errors, ByLine (Unresolved (inputs ++ heads) found) errors ∧
      (errors ≠ [] ∧ declare file inputs heads start rules = .error (errors.map (.atLine file)) ∨
        errors = [] ∧ ∃ ps, ByLine (fun number p => ∃ rule, found number rule ∧
          rule.Resolves (inputs ++ heads) p) ps ∧
          declare file inputs heads start rules = .ok ⟨inputs, heads, start, ps.map Prod.snd⟩) := by
  obtain ⟨errors, herrors, heq⟩ := errorsOf_resolveAt file (inputs ++ heads) h
  obtain ⟨ps, hps, hvalues⟩ := h.valuesOf (resolveAt file (inputs ++ heads))
  simp only [resolveAt_eq_ok_iff] at hps
  refine ⟨errors, herrors, ?_⟩
  rw [declare_eq, heq, hvalues]
  cases errors with
  | nil => exact .inr ⟨rfl, ps, hps, rfl⟩
  | cons e errors => exact .inl ⟨List.cons_ne_nil _ _, rfl⟩

end Document

end ContextFree
