import ContextFree.Proofs.Document.Rules
import ContextFree.Proofs.Document.Statement

/-!
# A written grammar is read back

`Declaration.render` writes a grammar and `Document.loadText` reads one.  The proof that reading
undoes writing follows the layers of the reader.

* Rules.  A body is written without anything between its symbols, so it is one word.
  `resolve_toRuleLine` splits it back, because grammars are unambiguous and no body is written like
  the mark for nothing.
* Lines.  `Declaration.lines` is what the written grammar says line by line, with its blank lines,
  and `render_eq_flatMap` is the text in these terms.
* Loading.  `load_written` reads lines of statements, `addAll_rules` collects the rules among them,
  and `assemble_lines` puts the sections together again.
-/

namespace ContextFree

/-! ## Rules -/

/-- No sequence of declared symbols is written like the mark for nothing, unless that mark is
declared. -/
theorem Vocabulary.Unambiguous.spell_ne_nothing {v : Vocabulary} (hv : v.Unambiguous)
    (hnothing : Symbol.nothing ∉ v) {symbols : List Symbol} (hsub : symbols ⊆ v) :
    Symbol.spell symbols ≠ Symbol.nothing.text := by
  intro hspell
  cases symbols with
  | nil => simp [Symbol.nothing] at hspell
  | cons s symbols =>
    obtain ⟨hs, -⟩ := List.cons_subset.1 hsub
    have hne := Vocabulary.text_ne_nil_of_mem hv.empty_not_mem hs
    obtain ⟨c, letters, htext⟩ := List.exists_cons_of_ne_nil hne
    rw [Symbol.spell_cons, htext, List.cons_append, Symbol.nothing] at hspell
    obtain ⟨hc, hrest⟩ := List.cons_eq_cons.1 hspell
    rw [hc, (List.append_eq_nil_iff.1 hrest).1] at htext
    have heq : s = Symbol.nothing := Symbol.eq_of_text_eq htext
    exact hnothing (heq ▸ hs)

/-- Well-made symbols spell a well-made word, if there are any. -/
theorem Symbol.isMalformed_spell {symbols : List Symbol} (hne : symbols ≠ [])
    (hs : ∀ s ∈ symbols, s.isMalformed = false) :
    (Symbol.mk (Symbol.spell symbols)).isMalformed = false := by
  obtain ⟨s, rest, rfl⟩ := List.exists_cons_of_ne_nil hne
  refine Symbol.isMalformed_eq_false_iff.2 ⟨?_, ?_⟩
  · intro hspell
    have hfirst := (Symbol.isMalformed_eq_false_iff.1 (hs s List.mem_cons_self)).1
    exact hfirst (List.append_eq_nil_iff.1 hspell).1
  · intro c hc
    obtain ⟨t, ht, hct⟩ := List.mem_flatMap.1 hc
    exact (Symbol.isMalformed_eq_false_iff.1 (hs t ht)).2 c hct

namespace Production

/-- The line that states a production.  Its body is one word, or no word if it is empty. -/
def toRuleLine (p : Production) : RuleLine :=
  ⟨p.head, if p.body = [] then [] else [Symbol.spell p.body]⟩

theorem render_toRuleLine (p : Production) : (Statement.rule p.toRuleLine).render = p.render := by
  by_cases hbody : p.body = []
  · simp [Statement.render, toRuleLine, render, hbody]
  · simp [Statement.render, toRuleLine, render, hbody]

/-- The body of a written rule is split back. -/
theorem resolve_toRuleLine {v : Vocabulary} (hv : v.Unambiguous)
    (hnothing : Symbol.nothing ∉ v) {p : Production} (hp : p.body ⊆ v) :
    p.toRuleLine.resolve v = .ok p := by
  cases p with
  | mk head body =>
    by_cases hbody : body = []
    · subst hbody
      rfl
    · have hne : [Symbol.spell body] ≠ [Symbol.nothing.text] := by
        intro h
        exact hv.spell_ne_nothing hnothing hp (List.cons_eq_cons.1 h).1
      have hsplit : v.split? (Symbol.spell body) = some body := hv.split?_spell hp
      simp only [RuleLine.resolve, toRuleLine, if_neg hbody, if_neg hne, List.mapM_cons, hsplit]
      show Except.ok (Production.mk head (body ++ [])) = .ok ⟨head, body⟩
      rw [List.append_nil]

end Production

/-! ## Lines -/

/-- What a line of a written grammar looks like: a statement, or nothing on a blank line. -/
def Document.written : Option Statement → Text
  | none => []
  | some s => s.render

namespace Declaration

/-- What a written grammar says, line by line. -/
def lines (d : Declaration) : List (Option Statement) :=
  [some (.vocabulary SectionName.inputs d.inputs), some (.vocabulary SectionName.heads d.heads),
    none, some (.start d.start), none, some .productions] ++
    d.rules.map fun p => some (.rule p.toRuleLine)

theorem map_written_lines (d : Declaration) :
    d.lines.map Document.written =
      ["Vt = ".toList ++ Symbol.renderSet d.inputs, "Vh = ".toList ++ Symbol.renderSet d.heads, [],
        "start: ".toList ++ d.start.text, [], "P:".toList] ++ d.rules.map Production.render := by
  rw [lines, List.map_append, List.map_map]
  congr 1
  apply List.map_congr_left
  intro p _
  exact p.render_toRuleLine

theorem render_eq_flatMap (d : Declaration) :
    d.render = (d.lines.map Document.written).flatMap fun line => line ++ ['\n'] := by
  unfold render
  rw [map_written_lines, List.flatMap_append, List.flatMap_map]
  simp

/-- Every statement of a well-formed grammar can be written. -/
theorem WellFormed.isWritable_of_mem_lines {d : Declaration} (hd : d.WellFormed) {s : Statement}
    (hs : some s ∈ d.lines) : s.IsWritable := by
  have hinputs : ∀ w ∈ d.inputs, w.isMalformed = false := fun w hw =>
    hd.not_malformed w (List.mem_append_left _ hw)
  have hheads : ∀ w ∈ d.heads, w.isMalformed = false := fun w hw =>
    hd.not_malformed w (List.mem_append_right _ hw)
  rcases List.mem_append.1 hs with hs | hs
  · simp only [List.mem_cons, Option.some.injEq, List.not_mem_nil, or_false, reduceCtorEq,
      false_or] at hs
    rcases hs with rfl | rfl | rfl | rfl
    · exact List.forall_mem_cons.2 ⟨by decide, hinputs⟩
    · exact List.forall_mem_cons.2 ⟨by decide, hheads⟩
    · exact List.forall_mem_singleton.2 (hheads _ hd.start_mem)
    · exact List.forall_mem_nil _
  · obtain ⟨p, hp, hrule⟩ := List.mem_map.1 hs
    obtain rfl := Option.some.inj hrule
    refine List.forall_mem_cons.2 ⟨hheads _ (hd.head_mem p hp), ?_⟩
    intro w hw
    by_cases hbody : p.body = []
    · simp [Production.toRuleLine, hbody] at hw
    · have hword : w = ⟨Symbol.spell p.body⟩ := by
        simpa [Production.toRuleLine, hbody] using hw
      rw [hword]
      exact Symbol.isMalformed_spell hbody fun w hw => hd.not_malformed w (hd.body_subset p hp hw)

end Declaration

/-! ## Loading -/

theorem numbered_map {α β : Type} (f : α → β) (items : List α) :
    numbered (items.map f) = (numbered items).map fun item => (item.1, f item.2) := by
  simp [numbered, List.zipIdx_map, Function.comp_def]

@[simp] theorem errorsOf_map_ok {ε α : Type} (values : List α) :
    errorsOf (values.map (Except.ok (ε := ε))) = [] := by
  simp [errorsOf]

@[simp] theorem valuesOf_map_ok {ε α : Type} (values : List α) :
    valuesOf (values.map (Except.ok (ε := ε))) = values := by
  induction values with
  | nil => rfl
  | cons a values ih => exact congrArg (a :: ·) ih

namespace Document

/-- The statements among numbered lines, with their numbers. -/
def statementsOf (items : List (Nat × Option Statement)) : List (Nat × Statement) :=
  items.filterMap fun item => item.2.map fun s => (item.1, s)

/-- Written lines are read back as their statements, and blank lines are passed over. -/
theorem map_readLine_written (file : FileName) {items : List (Nat × Option Statement)}
    (h : ∀ item ∈ items, ∀ s ∈ item.2, s.IsWritable) :
    ((items.map fun item => (item.1, Except.ok (written item.2))).filter
      fun item => takesPart item.2).map (readLine file) = (statementsOf items).map .ok := by
  induction items with
  | nil => rfl
  | cons item items ih =>
    obtain ⟨hfirst, hrest⟩ := List.forall_mem_cons.1 h
    have ih := ih hrest
    obtain ⟨number, line⟩ := item
    cases line with
    | none =>
      have hblank : takesPart (.ok (written none)) = false := rfl
      simp only [List.map_cons, List.filter_cons, hblank, Bool.false_eq_true, if_false, ih]
      rfl
    | some s =>
      have hs := hfirst s rfl
      have hcontent : takesPart (.ok (written (some s))) = true := Statement.isContent_render hs
      have hread : readLine file (number, .ok (written (some s))) = .ok (number, s) := by
        simp only [readLine, written]
        rw [Statement.ofLine_render hs]
      simp only [List.map_cons, List.filter_cons, hcontent, if_true, hread, ih]
      rfl

/-- A document of written statements is read as these statements. -/
theorem load_written (file : FileName) {lines : List (Option Statement)}
    (h : ∀ s, some s ∈ lines → s.IsWritable) :
    load file (lines.map fun line => .ok (written line)) =
      assemble file (statementsOf (numbered lines)) := by
  have hitems : ∀ item ∈ numbered lines, ∀ s ∈ item.2, s.IsWritable := by
    intro item hitem s hs
    obtain ⟨⟨line, number⟩, hline, rfl⟩ := List.mem_map.1 hitem
    have hmem : line ∈ lines := List.fst_mem_of_mem_zipIdx hline
    obtain rfl : line = some s := hs
    exact h s hmem
  have houtcomes := map_readLine_written file hitems
  unfold load
  rw [numbered_map, houtcomes]
  simp only [errorsOf_map_ok, valuesOf_map_ok]

/-- Rules are collected once they have been announced. -/
theorem addAll_rules {o : Outline} (ho : o.announced = true) (rules : List (Nat × RuleLine)) :
    o.addAll (rules.map fun rule => (rule.1, .rule rule.2)) =
      ({ o with rules := o.rules ++ rules }, []) := by
  induction rules generalizing o with
  | nil => simp [Outline.addAll]
  | cons rule rules ih =>
    have hadd : o.add rule.1 (.rule rule.2) = ({ o with rules := o.rules ++ [rule] }, none) := by
      simp [Outline.add, ho]
    have hrest := ih (o := { o with rules := o.rules ++ [rule] }) ho
    simp [Outline.addAll, hadd, hrest]

/-- Rules that resolve declare the productions they resolve to. -/
theorem declare_of_resolve (file : FileName) {inputs heads : List Symbol} (start : Symbol)
    {rules : List (Nat × RuleLine)} {ps : List Production}
    (h : rules.map (fun rule => rule.2.resolve (inputs ++ heads)) = ps.map .ok) :
    declare file inputs heads start rules = .ok ⟨inputs, heads, start, ps⟩ := by
  have houtcomes : rules.map (resolveAt file (inputs ++ heads)) = ps.map .ok := by
    induction rules generalizing ps with
    | nil =>
      obtain rfl := List.map_eq_nil_iff.1 h.symm
      rfl
    | cons rule rules ih =>
      cases ps with
      | nil => simp at h
      | cons p ps =>
        have hfirst : rule.2.resolve (inputs ++ heads) = .ok p := (List.cons_eq_cons.1 h).1
        rw [List.map_cons, List.map_cons, ih (List.cons_eq_cons.1 h).2, resolveAt, hfirst]
  rw [declare_eq, houtcomes, errorsOf_map_ok, valuesOf_map_ok]

end Document

namespace Declaration

/-- The rules of a written grammar with the numbers of their lines. -/
def ruleLines (d : Declaration) : List (Nat × RuleLine) :=
  (d.rules.zipIdx 7).map fun rule => (rule.2, rule.1.toRuleLine)

/-- Six lines stand before the rules of a written grammar, two of them blank. -/
theorem statementsOf_lines (d : Declaration) :
    Document.statementsOf (numbered d.lines) =
      [(1, .vocabulary SectionName.inputs d.inputs), (2, .vocabulary SectionName.heads d.heads),
        (4, .start d.start), (6, .productions)] ++
      d.ruleLines.map fun rule => (rule.1, .rule rule.2) := by
  simp [Document.statementsOf, numbered, lines, ruleLines, List.zipIdx_map, Function.comp_def]

/-- The rules of a written grammar declare its rules. -/
theorem WellFormed.declare_ruleLines {d : Declaration} (hd : d.WellFormed) (file : FileName) :
    Document.declare file d.inputs d.heads d.start d.ruleLines = .ok d := by
  have hresolve : ∀ p ∈ d.rules, p.toRuleLine.resolve d.vocabulary = .ok p := by
    intro p hp
    exact p.resolve_toRuleLine hd.unambiguous_vocabulary hd.nothing_not_mem (hd.body_subset p hp)
  apply Document.declare_of_resolve
  have hlines : (d.ruleLines.map fun rule => rule.2.resolve d.vocabulary) =
      ((d.rules.zipIdx 7).map Prod.fst).map fun p => p.toRuleLine.resolve d.vocabulary := by
    rw [ruleLines, List.map_map, List.map_map]
    rfl
  rw [List.zipIdx_map_fst] at hlines
  exact hlines.trans (List.map_congr_left hresolve)

/-- The statements of a written grammar give all four sections, and nothing is wrong with
them. -/
theorem addAll_statementsOf_lines (d : Declaration) :
    Outline.addAll {} (Document.statementsOf (numbered d.lines)) =
      (⟨some d.inputs, some d.heads, some d.start, true, d.ruleLines⟩, []) := by
  have hrules := Document.addAll_rules (o := ⟨some d.inputs, some d.heads, some d.start, true, []⟩)
    rfl d.ruleLines
  have hname : SectionName.heads ≠ SectionName.inputs := by decide
  rw [statementsOf_lines]
  simp [Outline.addAll, Outline.add, Outline.repeated, hname, hrules]

theorem assemble_lines (g : Grammar) (file : FileName) :
    Document.assemble file (Document.statementsOf (numbered g.lines)) = .ok g := by
  have hmissing : Outline.missing
      ⟨some g.inputs, some g.heads, some g.start, true, g.ruleLines⟩ = [] := by
    simp [Outline.missing]
  have hdeclare := g.wellFormed.declare_ruleLines file
  have hcheck : g.toDeclaration.check = .ok g := Declaration.check_eq_ok_iff.2 rfl
  unfold Document.assemble
  rw [addAll_statementsOf_lines]
  simp only [hmissing, hdeclare, List.map_nil, List.append_nil]
  rw [hcheck]
  rfl

end Declaration

/-- A written grammar is read back, whatever the name of its file. -/
theorem loadText_render (g : Grammar) (file : FileName) :
    Document.loadText file g.render = .ok g := by
  have hlines : Text.lines g.render = g.lines.map Document.written := by
    rw [Declaration.render_eq_flatMap]
    refine Text.lines_of_isSpaced fun line hline => ?_
    obtain ⟨statement, hstatement, rfl⟩ := List.mem_map.1 hline
    cases statement with
    | none => exact List.forall_mem_nil _
    | some s => exact Statement.isSpaced_render (g.wellFormed.isWritable_of_mem_lines hstatement)
  have hload := Document.load_written file fun s hs => g.wellFormed.isWritable_of_mem_lines hs
  rw [Document.loadText, hlines, List.map_map]
  exact hload.trans (Declaration.assemble_lines g file)

end ContextFree
