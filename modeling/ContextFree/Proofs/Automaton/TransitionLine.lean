import ContextFree.Automaton.OfGrammar
import ContextFree.Automaton.TransitionLine
import ContextFree.Proofs.Grammar.WellFormed
import ContextFree.Proofs.Text.Cut
import ContextFree.Proofs.Vocabulary.Split

/-!
# Written transitions are read back

`Transition.render` writes a transition and `Transition.ofLine` reads one.  The reader cuts the line
at separators and takes parentheses off, so a transition is read back if none of its fields looks
like these.  The symbols of a grammar do not, because they are well made.

* Halves.  `unwrap?_eq_some_iff` and `leftFields?_join` are about the two layers of a half.
* Lines.  `IsReadBack` says that the fields of a transition are found again in its two halves, and
  `ofLine_eq_ok_iff` that the reader gives a transition of this kind whose halves stand in the line.
  So what was read can be written and read again (`ofLine_normalises`).
* Transitions.  `IsWritable` is what the fields have to promise, and `ofLine_render` reads a
  transition back whose pushed symbols can be split.
* Grammars.  `Grammar.isWritable_of_mem_transitions` and `Grammar.push_subset` say that the
  transitions of a grammar's automaton are of this kind.
-/

namespace ContextFree

namespace Transition

/-! ## Halves -/

/-- What stands in parentheses has them around it and nothing but white space around these. -/
theorem unwrap?_eq_some_iff {half inner : Text} :
    unwrap? half = some inner ↔ half.trim = '(' :: (inner ++ [')']) := by
  unfold unwrap?
  split
  · next rest htrim =>
    rw [htrim, List.cons.injEq]
    constructor
    · intro h
      split at h
      · next hlast =>
        obtain rfl := Option.some.inj h
        exact ⟨rfl, (List.dropLast_append_getLast? _ hlast).symm⟩
      · simp at h
    · intro h
      obtain ⟨-, rfl⟩ := h
      simp
  · next hother =>
    constructor
    · intro h
      simp at h
    · intro htrim
      exact absurd htrim (hother _)

/-- Trimming a half does not change what stands in it. -/
theorem trim_parenthesised (inner : Text) :
    Text.trim ('(' :: (inner ++ [')'])) = '(' :: (inner ++ [')']) :=
  Text.trim_of_not_blank (by decide) (by decide) inner

theorem unwrap?_parenthesised (inner : Text) :
    unwrap? ('(' :: (inner ++ [')'])) = some inner :=
  unwrap?_eq_some_iff.2 (trim_parenthesised inner)

/-- A field ends at the first separator, since it has no comma. -/
theorem cut?_field {field : Text} (hfield : ',' ∉ field) (rest : Text) :
    (field ++ (fieldSeparator ++ rest)).cut? fieldSeparator = some (field, rest) :=
  Text.cut?_append hfield List.not_mem_nil [' '] rest

theorem leftFields?_join {source input top : Text} (hsource : ',' ∉ source)
    (hinput : ',' ∉ input) (htop : ',' ∉ top) :
    leftFields? (source ++ (fieldSeparator ++ (input ++ (fieldSeparator ++ top)))) =
      some (source, input, top) := by
  have hlast : top.cut? fieldSeparator = none :=
    Text.cut?_eq_none_of_not_mem (c := ',') (by decide) htop
  simp [leftFields?, cut?_field hsource, cut?_field hinput, hlast]

/-! ## Lines that were read -/

/-- What the fields of the left half are, as they are written. -/
def leftFields (t : Transition) : Text :=
  t.source.text ++ (fieldSeparator ++ ((t.input.getD Symbol.nothing).text ++
    (fieldSeparator ++ t.top.text)))

/-- What the fields of the right half are, as they are written. -/
def rightFields (t : Transition) : Text :=
  t.target.text ++ (fieldSeparator ++ Symbol.spell t.push)

theorem render_eq (t : Transition) :
    t.render = ('(' :: (t.leftFields ++ [')'])) ++
      (" -> ".toList ++ ('(' :: (t.rightFields ++ [')']))) := by
  simp [render, leftFields, rightFields, fieldSeparator]

/-- Whether the fields of a transition are found again in its two halves, with the pushed symbols
split over a vocabulary. -/
structure IsReadBack (v : Vocabulary) (t : Transition) : Prop where
  left : leftFields? t.leftFields =
    some (t.source.text, (t.input.getD Symbol.nothing).text, t.top.text)
  input : inputOfField (t.input.getD Symbol.nothing).text = t.input
  right : t.rightFields.cut? fieldSeparator = some (t.target.text, Symbol.spell t.push)
  push : v.split? (Symbol.spell t.push) = some t.push

theorem eq_of_leftFields? {left source input top : Text}
    (h : leftFields? left = some (source, input, top)) :
    left = source ++ (fieldSeparator ++ (input ++ (fieldSeparator ++ top))) := by
  simp only [leftFields?, Option.bind_eq_bind, Option.bind_eq_some_iff, Prod.exists] at h
  obtain ⟨first, others, hfirst, second, third, hsecond, hlast⟩ := h
  split at hlast
  · simp only [Option.some.injEq, Prod.mk.injEq] at hlast
    obtain ⟨rfl, rfl, rfl⟩ := hlast
    rw [Text.eq_of_cut? hfirst, Text.eq_of_cut? hsecond]
    simp
  · simp at hlast

/-- The mark for nothing is written where it was read, and so is every other field. -/
theorem getD_inputOfField (field : Text) :
    ((inputOfField field).getD Symbol.nothing).text = field := by
  unfold inputOfField
  split
  · next hnothing => exact hnothing.symm
  · rfl

/-- The transition that is made of fields that were read has these fields in its halves. -/
theorem isReadBack_of_fields {v : Vocabulary} {left right source input top target pushed : Text}
    {push : List Symbol} {t : Transition} (hleft : leftFields? left = some (source, input, top))
    (hright : right.cut? fieldSeparator = some (target, pushed))
    (hpush : v.split? pushed = some push)
    (ht : t = ⟨⟨source⟩, inputOfField input, ⟨top⟩, ⟨target⟩, push⟩) :
    t.IsReadBack v ∧ left = t.leftFields ∧ right = t.rightFields := by
  subst ht
  have hspell : Symbol.spell push = pushed := (Vocabulary.spell_of_split? hpush).1
  have hinput := getD_inputOfField input
  have hleftFields : left = leftFields ⟨⟨source⟩, inputOfField input, ⟨top⟩, ⟨target⟩, push⟩ := by
    rw [eq_of_leftFields? hleft, leftFields, hinput]
  have hrightFields :
      right = rightFields ⟨⟨source⟩, inputOfField input, ⟨top⟩, ⟨target⟩, push⟩ := by
    rw [Text.eq_of_cut? hright, rightFields, hspell, List.append_assoc]
  refine ⟨⟨?_, ?_, ?_, ?_⟩, hleftFields, hrightFields⟩
  · rw [← hleftFields, hleft, hinput]
  · rw [hinput]
  · rw [← hrightFields, hright, hspell]
  · rw [hspell, hpush]

/-- A line is read as a transition if its two halves have the fields of the transition, and the
fields are found again there. -/
theorem ofLine_eq_ok_iff {v : Vocabulary} {line : Text} {t : Transition} :
    ofLine v line = .ok t ↔
      t.IsReadBack v ∧ ∃ left right, line.cut? " -> ".toList = some (left, right) ∧
        unwrap? left = some t.leftFields ∧ unwrap? right = some t.rightFields := by
  constructor
  · intro h
    -- one split for each part of the line; where a part is missing the line is refused
    unfold ofLine at h
    split at h
    case h_2 => cases h
    rename_i left right hcut
    split at h
    case h_2 => cases h
    rename_i leftInner hleft
    split at h
    case h_2 => cases h
    rename_i rightInner hright
    split at h
    case h_2 => cases h
    rename_i source input top hfields
    split at h
    case h_2 => cases h
    rename_i target pushed htarget
    split at h
    case h_2 => cases h
    rename_i push hpush
    have ht := (Except.ok.inj h).symm
    obtain ⟨hback, rfl, rfl⟩ := isReadBack_of_fields hfields htarget hpush ht
    exact ⟨hback, left, right, hcut, hleft, hright⟩
  · intro h
    obtain ⟨ht, left, right, hcut, hleft, hright⟩ := h
    rw [ofLine, hcut]
    simp only [hleft, hright, ht.left, ht.right, ht.push, ht.input]
    rfl

/-- A line that was read as a transition is written again as it was, but for the white space around
its two halves, and what was written is read as the same transition.  The halves are what stands
before and after the first arrow of the line. -/
theorem ofLine_normalises {v : Vocabulary} {line : Text} {t : Transition}
    (h : ofLine v line = .ok t) :
    ∃ left right, line = left ++ " -> ".toList ++ right ∧
      (∀ earlier later, line = earlier ++ " -> ".toList ++ later →
        left.length ≤ earlier.length) ∧
      t.render = left.trim ++ " -> ".toList ++ right.trim ∧ ofLine v t.render = .ok t := by
  obtain ⟨ht, left, right, hcut, hleft, hright⟩ := ofLine_eq_ok_iff.1 h
  have hleftTrim := unwrap?_eq_some_iff.1 hleft
  have hrightTrim := unwrap?_eq_some_iff.1 hright
  have hrender : t.render = left.trim ++ (" -> ".toList ++ right.trim) := by
    rw [render_eq, hleftTrim, hrightTrim]
  -- no arrow begins in the left half: there is none in it, and it ends with a parenthesis
  have habsent : ¬ " -> ".toList <:+: left.trim := fun hoccurs =>
    Text.not_infix_of_cut? (by decide) hcut (hoccurs.trans (Text.isInfix_trim left))
  have hlast : left.trim.getLast? = some ')' := by
    rw [hleftTrim, ← List.cons_append, List.getLast?_concat]
  have hcutAgain := Text.cut?_append_of_getLast? habsent hlast (by decide) right.trim
  refine ⟨left, right, Text.eq_of_cut? hcut, fun earlier later => Text.length_le_of_cut? hcut, ?_,
    ?_⟩
  · rw [hrender, List.append_assoc]
  · rw [hrender]
    refine ofLine_eq_ok_iff.2 ⟨ht, _, _, hcutAgain, ?_, ?_⟩
    · rw [hleftTrim, unwrap?_parenthesised]
    · rw [hrightTrim, unwrap?_parenthesised]

/-- White space around the halves is lost.  Inside them it stays, and so do arrows behind the first
one, commas in what is pushed, and parentheses. -/
theorem spaced_ofLine_normalises :
    let v : Vocabulary := ["A", "B", ", ", " -> "]
    let t : Transition := ⟨"a 1", none, "(x)", "b", ["A", " -> ", "A", ", ", "B"]⟩
    ofLine v "\t(a 1, ε, (x)) ->   (b, A -> A, B) ".toList = .ok t ∧
      t.render = "(a 1, ε, (x)) -> (b, A -> A, B)".toList ∧ ofLine v t.render = .ok t := by
  intro v t
  have hread : ofLine v "\t(a 1, ε, (x)) ->   (b, A -> A, B) ".toList = .ok t := by
    decide +kernel
  obtain ⟨left, right, -, -, -, hagain⟩ := ofLine_normalises hread
  exact ⟨hread, by decide +kernel, hagain⟩

/-! ## Transitions -/

/-- What the fields of a transition promise, so that they can be told apart when written. -/
structure IsWritable (t : Transition) : Prop where
  source : t.source.isMalformed = false
  input : ∀ s ∈ t.input, s.isMalformed = false ∧ s ≠ Symbol.nothing
  top : t.top.isMalformed = false
  target : t.target.isMalformed = false

/-- The field of an input names that input, since no symbol is written like the mark for
nothing. -/
theorem IsWritable.inputOfField {t : Transition} (ht : t.IsWritable) :
    inputOfField (t.input.getD Symbol.nothing).text = t.input := by
  cases hinput : t.input with
  | none => rfl
  | some s =>
    have hne : s.text ≠ Symbol.nothing.text := fun heq =>
      (ht.input s hinput).2 (Symbol.eq_of_text_eq heq)
    simp [Transition.inputOfField, hne]

theorem IsWritable.isMalformed_getD_input {t : Transition} (ht : t.IsWritable) :
    (t.input.getD Symbol.nothing).isMalformed = false := by
  cases hinput : t.input with
  | none => decide
  | some s => exact (ht.input s hinput).1

/-- No field has punctuation in it. -/
theorem IsWritable.not_mem {t : Transition} (ht : t.IsWritable) {c : Char}
    (hc : c ∈ Symbol.punctuation) :
    c ∉ t.source.text ∧ c ∉ (t.input.getD Symbol.nothing).text ∧ c ∉ t.top.text ∧
      c ∉ t.target.text :=
  ⟨Symbol.not_mem_of_mem_punctuation ht.source hc,
    Symbol.not_mem_of_mem_punctuation ht.isMalformed_getD_input hc,
    Symbol.not_mem_of_mem_punctuation ht.top hc,
    Symbol.not_mem_of_mem_punctuation ht.target hc⟩

/-- The arrow is the first one on the line, since the left half has no dash. -/
theorem IsWritable.cut?_render {t : Transition} (ht : t.IsWritable) :
    t.render.cut? " -> ".toList =
      some ('(' :: (t.leftFields ++ [')']), '(' :: (t.rightFields ++ [')'])) := by
  obtain ⟨hsource, hinput, htop, -⟩ := ht.not_mem (c := '-') (by decide)
  have hleft : '-' ∉ '(' :: (t.leftFields ++ [')']) := by
    simp [leftFields, fieldSeparator, hsource, hinput, htop]
  rw [render_eq]
  have harrow : '-' ∉ [' '] := by decide
  exact Text.cut?_append hleft harrow ['>', ' '] _

/-- The fields of a transition are read back where they are written, if its pushed symbols are the
split of their spelling. -/
theorem IsWritable.isReadBack {v : Vocabulary} {t : Transition} (ht : t.IsWritable)
    (hpush : v.split? (Symbol.spell t.push) = some t.push) : t.IsReadBack v := by
  obtain ⟨hsource, hinput, htop, htarget⟩ := ht.not_mem (c := ',') (by decide)
  exact ⟨leftFields?_join hsource hinput htop, ht.inputOfField, cut?_field htarget _, hpush⟩

/-- A written transition is read back if its pushed symbols are the split of their spelling. -/
theorem ofLine_render {v : Vocabulary} {t : Transition} (ht : t.IsWritable)
    (hpush : v.split? (Symbol.spell t.push) = some t.push) : ofLine v t.render = .ok t :=
  ofLine_eq_ok_iff.2 ⟨ht.isReadBack hpush, _, _, ht.cut?_render, unwrap?_parenthesised _,
    unwrap?_parenthesised _⟩

end Transition

/-! ## Grammars -/

namespace Grammar

open Automaton

variable {g : Grammar}

/-- The symbols that a grammar's automaton may have on its stack or read are well made. -/
theorem isWritable_of_mem_transitions {t : Transition} (ht : t ∈ g.transitions) :
    t.IsWritable := by
  have hdeclared := g.wellFormed.not_malformed
  have hopening : opening.isMalformed = false := by decide
  have hworking : working.isMalformed = false := by decide
  have hclosing : closing.isMalformed = false := by decide
  have hbottom : Symbol.bottom.isMalformed = false := by decide
  rcases Declaration.mem_transitions.1 ht with rfl | rfl | ⟨p, hp, rfl⟩
  · exact ⟨hopening, fun s hs => absurd hs (Option.not_mem_none s), hbottom, hworking⟩
  · exact ⟨hworking, fun s hs => absurd hs (Option.not_mem_none s), hbottom, hclosing⟩
  · refine ⟨hworking, fun s hs => ?_, ?_, hworking⟩
    · have hmem : s ∈ g.vocabulary := g.wellFormed.body_subset p hp (List.mem_of_mem_head? hs)
      exact ⟨hdeclared s hmem, fun heq => g.wellFormed.nothing_not_mem (heq ▸ hmem)⟩
    · exact hdeclared p.head (List.mem_append_right _ (g.wellFormed.head_mem p hp))

/-- The transitions of a grammar's automaton push declared symbols and the bottom marker. -/
theorem push_subset {t : Transition} (ht : t ∈ g.transitions) :
    t.push ⊆ g.vocabulary ++ [Symbol.bottom] := by
  rcases Declaration.mem_transitions.1 ht with rfl | rfl | ⟨p, hp, rfl⟩
  · have hstart : g.start ∈ g.vocabulary := List.mem_append_right _ g.wellFormed.start_mem
    exact List.cons_subset.2 ⟨List.mem_append_left _ hstart, List.subset_append_right _ _⟩
  · exact List.subset_append_right _ _
  · intro s hs
    exact List.mem_append_left _ (g.wellFormed.body_subset p hp (List.mem_of_mem_tail hs))

/-- Every transition of a grammar's automaton is read back from its line, with the pushed symbols
split over the grammar's vocabulary and the stack alphabet. -/
theorem ofLine_render_of_mem_transitions (g : Grammar) (fromOpening : Bool) {t : Transition}
    (ht : t ∈ (g.automaton fromOpening).transitions) :
    Transition.ofLine (g.vocabulary ++ (g.automaton fromOpening).stackAlphabet) t.render =
      .ok t := by
  have hstack : (g.automaton fromOpening).stackAlphabet ⊆ g.vocabulary ++ [Symbol.bottom] :=
    List.append_subset.2 ⟨fun s hs => List.mem_append_left _ (List.mem_append_right _ hs),
      List.subset_append_right _ _⟩
  have hv : (g.vocabulary ++ (g.automaton fromOpening).stackAlphabet).Unambiguous :=
    g.wellFormed.unambiguous.of_subset
      (List.append_subset.2 ⟨List.subset_append_left _ _, hstack⟩)
  have hpush : t.push ⊆ g.vocabulary ++ (g.automaton fromOpening).stackAlphabet := by
    intro s hs
    rcases List.mem_append.1 (push_subset ht hs) with hdeclared | hbottom
    · exact List.mem_append_left _ hdeclared
    · exact List.mem_append_right _ (List.mem_append_right _ hbottom)
  exact Transition.ofLine_render (isWritable_of_mem_transitions ht) (hv.split?_spell hpush)

/-- A grammar with symbols that begin others. -/
def overlapping : Grammar where
  inputs := ["op", "ops"]
  heads := ["S", "St"]
  start := "S"
  rules := [⟨"S", ["op", "St", "ops"]⟩, ⟨"St", ["ops", "S"]⟩, ⟨"St", []⟩]
  faults_eq_nil := by decide +kernel

/-- The line `(a1, op, S) -> (a1, Stops)` is read back although `S` begins `Stops` as well. -/
theorem overlapping_reads_back :
    Transition.mk working (some "op") "S" working ["St", "ops"] ∈
        (overlapping.automaton true).transitions ∧
      Transition.ofLine (overlapping.vocabulary ++ (overlapping.automaton true).stackAlphabet)
          "(a1, op, S) -> (a1, Stops)".toList =
        .ok ⟨working, some "op", "S", working, ["St", "ops"]⟩ := by
  have hmem : Transition.mk working (some "op") "S" working ["St", "ops"] ∈
      (overlapping.automaton true).transitions := by decide
  exact ⟨hmem, ofLine_render_of_mem_transitions overlapping true hmem⟩

end Grammar

end ContextFree
