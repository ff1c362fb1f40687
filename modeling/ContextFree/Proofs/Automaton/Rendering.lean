import ContextFree.Proofs.Automaton.Simulation
import ContextFree.Proofs.Automaton.TransitionLine
import ContextFree.Proofs.Document.Statement

/-!
# Written automata

An automaton is written line by line (`Automaton.lines`), and each line can be read on its own.

* Lines.  `Automaton.IsWritable` is what an automaton has to promise so that its lines can be told
  apart, and `Automaton.lines_render` says that they can.
* Reading.  `Symbol.renderSet_inj` and `Transition.map_render_inj` say that a written set and a list
  of written transitions determine what was written.
* Grammars.  A grammar's automaton is writable (`Grammar.isWritable_automaton`).  Its alphabets are
  the vocabularies, its opening transition pushes the start symbol, and its other transitions are
  the productions, so the grammar can be read off the text (`Grammar.render_automaton_eq_iff`).
-/

namespace ContextFree

/-! ## Lines -/

/-- A set of well-made symbols is written without white space other than the space. -/
theorem Symbol.isSpaced_renderSet {symbols : List Symbol}
    (hs : ∀ s ∈ symbols, s.isMalformed = false) : (renderSet symbols).IsSpaced := by
  have hmembers : Text.IsSpaced ([',', ' '].intercalate (symbols.map Symbol.text)) := by
    refine .intercalate (by decide) fun text htext => ?_
    obtain ⟨s, hmem, rfl⟩ := List.mem_map.1 htext
    exact Statement.isSpaced_symbol (hs s hmem)
  exact (Text.IsSpaced.append (by decide) hmembers).append (by decide)

theorem Symbol.isSpaced_spell {symbols : List Symbol}
    (hs : ∀ s ∈ symbols, s.isMalformed = false) : (spell symbols).IsSpaced := by
  intro c hc
  obtain ⟨s, hmem, hletter⟩ := List.mem_flatMap.1 hc
  exact Statement.isSpaced_symbol (hs s hmem) c hletter

theorem Transition.IsWritable.isSpaced_render {t : Transition} (ht : t.IsWritable)
    (hpush : ∀ s ∈ t.push, s.isMalformed = false) : t.render.IsSpaced := by
  have hseparator : Text.IsSpaced fieldSeparator := by decide
  have hleft : t.leftFields.IsSpaced :=
    .append (Statement.isSpaced_symbol ht.source) (.append hseparator
      (.append (Statement.isSpaced_symbol ht.isMalformed_getD_input) (.append hseparator
        (Statement.isSpaced_symbol ht.top))))
  have hright : t.rightFields.IsSpaced :=
    .append (Statement.isSpaced_symbol ht.target) (.append hseparator
      (Symbol.isSpaced_spell hpush))
  have hwrap : ∀ inner : Text, inner.IsSpaced → Text.IsSpaced ('(' :: (inner ++ [')'])) :=
    fun inner hinner => List.forall_mem_cons.2 ⟨by decide, hinner.append (by decide)⟩
  rw [render_eq]
  exact .append (hwrap _ hleft) (.append (by decide) (hwrap _ hright))

namespace Automaton

/-- The lines of a written automaton. -/
def lines (m : Automaton) : List Text :=
  ["A = ".toList ++ Symbol.renderSet m.states, "X = ".toList ++ Symbol.renderSet m.inputAlphabet,
    "Y = ".toList ++ Symbol.renderSet m.stackAlphabet, [], "f:".toList] ++
  (m.transitions.map Transition.render ++
    [[], "start: ".toList ++ m.start.text, "stack: ".toList ++ m.bottom.text,
      "accepting: ".toList ++ Symbol.renderSet m.accepting])

theorem render_eq_flatMap (m : Automaton) :
    m.render = m.lines.flatMap fun line => line ++ ['\n'] := by
  unfold render lines
  rw [List.flatMap_append, List.flatMap_append, List.flatMap_map]
  simp

/-- What the parts of an automaton promise, so that its lines can be told apart when written. -/
structure IsWritable (m : Automaton) : Prop where
  states : ∀ s ∈ m.states, s.isMalformed = false
  inputAlphabet : ∀ s ∈ m.inputAlphabet, s.isMalformed = false
  stackAlphabet : ∀ s ∈ m.stackAlphabet, s.isMalformed = false
  transitions : ∀ t ∈ m.transitions, t.IsWritable ∧ ∀ s ∈ t.push, s.isMalformed = false
  start : m.start.isMalformed = false
  bottom : m.bottom.isMalformed = false
  accepting : ∀ s ∈ m.accepting, s.isMalformed = false

theorem IsWritable.isSpaced_of_mem_lines {m : Automaton} (hm : m.IsWritable) :
    ∀ line ∈ m.lines, line.IsSpaced := by
  have htransitions : ∀ line ∈ m.transitions.map Transition.render, line.IsSpaced := by
    intro line hline
    obtain ⟨t, ht, rfl⟩ := List.mem_map.1 hline
    exact (hm.transitions t ht).1.isSpaced_render (hm.transitions t ht).2
  rw [lines]
  simp only [List.forall_mem_append, List.forall_mem_cons]
  refine ⟨⟨?_, ?_, ?_, by decide, by decide, List.forall_mem_nil _⟩, htransitions,
    by decide, ?_, ?_, ?_, List.forall_mem_nil _⟩
  · exact .append (by decide) (Symbol.isSpaced_renderSet hm.states)
  · exact .append (by decide) (Symbol.isSpaced_renderSet hm.inputAlphabet)
  · exact .append (by decide) (Symbol.isSpaced_renderSet hm.stackAlphabet)
  · exact .append (by decide) (Statement.isSpaced_symbol hm.start)
  · exact .append (by decide) (Statement.isSpaced_symbol hm.bottom)
  · exact .append (by decide) (Symbol.isSpaced_renderSet hm.accepting)

/-- A written automaton is cut into its lines again. -/
theorem IsWritable.lines_render {m : Automaton} (hm : m.IsWritable) : m.render.lines = m.lines := by
  rw [render_eq_flatMap]
  exact Text.lines_of_isSpaced hm.isSpaced_of_mem_lines

/-- Equal lines are lines of equal alphabets and equally written transitions.  Four lines come after
the transitions, however many these are. -/
theorem parts_of_lines_eq {m n : Automaton} (h : m.lines = n.lines) :
    Symbol.renderSet m.inputAlphabet = Symbol.renderSet n.inputAlphabet ∧
      Symbol.renderSet m.stackAlphabet = Symbol.renderSet n.stackAlphabet ∧
      m.transitions.map Transition.render = n.transitions.map Transition.render := by
  rw [lines, lines] at h
  obtain ⟨hfirst, hrest⟩ := List.append_inj h rfl
  have htransitions := (List.append_inj' hrest rfl).1
  simp only [List.cons.injEq, List.append_cancel_left_eq] at hfirst
  exact ⟨hfirst.2.1, hfirst.2.2.1, htransitions⟩

end Automaton

/-! ## Reading -/

/-- A written set of well-made symbols determines its members and their order. -/
theorem Symbol.renderSet_inj {xs ys : List Symbol} (hxs : ∀ s ∈ xs, s.isMalformed = false)
    (hys : ∀ s ∈ ys, s.isMalformed = false) (h : renderSet xs = renderSet ys) : xs = ys := by
  have htokens := Token.ofLine_renderSet hxs
  rw [h, Token.ofLine_renderSet hys] at htokens
  have hmembers : Statement.memberTokens ys = Statement.memberTokens xs := by
    simpa using htokens
  have hread := Statement.members_memberTokens xs
  rw [← hmembers, Statement.members_memberTokens] at hread
  exact (Except.ok.inj hread).symm

/-- Written transitions determine the transitions, if the pushed symbols of all of them can be split
over one vocabulary. -/
theorem Transition.map_render_inj {v : Vocabulary} (hv : v.Unambiguous) {ts us : List Transition}
    (hts : ∀ t ∈ ts, t.IsWritable ∧ t.push ⊆ v) (hus : ∀ u ∈ us, u.IsWritable ∧ u.push ⊆ v)
    (h : ts.map render = us.map render) : ts = us := by
  have hread : ∀ ts : List Transition, (∀ t ∈ ts, t.IsWritable ∧ t.push ⊆ v) →
      (ts.map render).map (ofLine v) = ts.map .ok := by
    intro ts hts
    rw [List.map_map]
    refine List.map_congr_left fun t ht => ?_
    exact ofLine_render (hts t ht).1 (hv.split?_spell (hts t ht).2)
  have hok : ts.map (Except.ok (ε := TransitionError)) = us.map .ok := by
    rw [← hread ts hts, h, hread us hus]
  exact (List.map_inj_right fun _ _ => Except.ok.inj).1 hok

/-! ## Grammars -/

/-- A production can be told from its transition. -/
theorem Production.toTransition_inj {p q : Production} (h : p.toTransition = q.toTransition) :
    p = q := by
  have hfirst : p.body.head? = q.body.head? := congrArg Transition.input h
  have hrest : p.body.tail = q.body.tail := congrArg Transition.push h
  have hhead : p.head = q.head := congrArg Transition.top h
  have hbody : p.body = q.body := by
    rw [← p.head?_append_tail_body, hfirst, hrest, q.head?_append_tail_body]
  cases p
  cases q
  exact congrArg₂ Production.mk hhead hbody

namespace Grammar

open Automaton

variable {g h : Grammar}

theorem eq_of_toDeclaration_eq (heq : g.toDeclaration = h.toDeclaration) : g = h := by
  cases g
  cases h
  cases heq
  rfl

/-- The automaton of a grammar can be written. -/
theorem isWritable_automaton (g : Grammar) (fromOpening : Bool) :
    (g.automaton fromOpening).IsWritable := by
  have hopening : opening.isMalformed = false := by decide
  have hworking : working.isMalformed = false := by decide
  have hclosing : closing.isMalformed = false := by decide
  have hbottom : Symbol.bottom.isMalformed = false := by decide
  have hdeclared := g.wellFormed.not_malformed
  have hstacked : ∀ s ∈ g.vocabulary ++ [Symbol.bottom], s.isMalformed = false :=
    List.forall_mem_append.2 ⟨hdeclared, List.forall_mem_singleton.2 hbottom⟩
  refine ⟨?_, fun s hs => hdeclared s (List.mem_append_left _ hs), ?_, ?_, ?_, hbottom,
    List.forall_mem_singleton.2 hclosing⟩
  · exact List.forall_mem_cons.2
      ⟨hopening, List.forall_mem_cons.2 ⟨hworking, List.forall_mem_singleton.2 hclosing⟩⟩
  · intro s hs
    rcases List.mem_append.1 hs with hhead | hmarker
    · exact hdeclared s (List.mem_append_right _ hhead)
    · rwa [List.mem_singleton.1 hmarker]
  · exact fun t ht => ⟨isWritable_of_mem_transitions ht, fun s hs => hstacked s (push_subset ht hs)⟩
  · cases fromOpening with
    | true => exact hopening
    | false => exact hdeclared _ (List.mem_append_right _ g.wellFormed.start_mem)

/-- The text of an automaton determines the grammar that it was made for.  How its runs start is
not needed for that. -/
theorem eq_of_render_automaton_eq {fromOpening fromOpening' : Bool}
    (heq : (g.automaton fromOpening).render = (h.automaton fromOpening').render) : g = h := by
  have hlines : (g.automaton fromOpening).lines = (h.automaton fromOpening').lines := by
    rw [← (g.isWritable_automaton fromOpening).lines_render, heq,
      (h.isWritable_automaton fromOpening').lines_render]
  obtain ⟨hinputs, hstack, htransitions⟩ := Automaton.parts_of_lines_eq hlines
  have hinputs : g.inputs = h.inputs :=
    Symbol.renderSet_inj (g.isWritable_automaton fromOpening).inputAlphabet
      (h.isWritable_automaton fromOpening').inputAlphabet hinputs
  have hstack : g.heads ++ [Symbol.bottom] = h.heads ++ [Symbol.bottom] :=
    Symbol.renderSet_inj (g.isWritable_automaton fromOpening).stackAlphabet
      (h.isWritable_automaton fromOpening').stackAlphabet hstack
  have hheads : g.heads = h.heads := List.append_cancel_right hstack
  have hvocabulary : h.vocabulary = g.vocabulary := by
    rw [Declaration.vocabulary, Declaration.vocabulary, hinputs, hheads]
  -- both lists of transitions are read over one vocabulary, because it is the same
  have htransitions : g.transitions = h.transitions :=
    Transition.map_render_inj g.wellFormed.unambiguous
      (fun t ht => ⟨isWritable_of_mem_transitions ht, push_subset ht⟩)
      (fun t ht => ⟨isWritable_of_mem_transitions ht, hvocabulary ▸ push_subset ht⟩) htransitions
  obtain ⟨hopening, hrest⟩ := List.cons_eq_cons.1 htransitions
  have hstart : g.start = h.start :=
    (List.cons_eq_cons.1 (congrArg Transition.push hopening)).1
  have hrules : g.rules = h.rules :=
    (List.map_inj_right fun _ _ => Production.toTransition_inj).1 (List.cons_eq_cons.1 hrest).2
  apply eq_of_toDeclaration_eq
  calc g.toDeclaration
      = ⟨g.inputs, g.heads, g.start, g.rules⟩ := rfl
    _ = ⟨h.inputs, h.heads, h.start, h.rules⟩ := by rw [hinputs, hheads, hstart, hrules]
    _ = h.toDeclaration := rfl

/-- Two grammars with one text for their automata are the same grammar: the same vocabularies in the
same order, the same start symbol and the same productions in the same order. -/
theorem render_automaton_eq_iff (g h : Grammar) (fromOpening : Bool) :
    (g.automaton fromOpening).render = (h.automaton fromOpening).render ↔ g = h :=
  ⟨eq_of_render_automaton_eq, fun heq => heq ▸ rfl⟩

end Grammar

end ContextFree
