import ContextFree.Proofs.Automaton.Simulation

/-!
# The language of the automaton

On any grammar the automaton follows the derivations that replace the symbol after what was read.
On the grammars that it is made for, whose bodies read one input symbol and leave only symbols to
be replaced, these are enough: every word that can be derived at all is derived that way.

* `Declaration.ReadsOne` says what shape a body has to have.
* `Declaration.exists_derivesBy_of_yields` turns a derivation from the left into one that the
  automaton follows.
* `exists_derivesBy_iff_derives` leaves out the automaton: the derivations that it follows to the
  end of a word reach the same words as all derivations.
* `explores_accepting_iff_derives` is the main result.
-/

namespace ContextFree

open Automaton

namespace Declaration

/-- A body is empty, or it is one input symbol followed only by symbols that are replaced. -/
def ReadsOne (d : Declaration) : List Symbol → Prop
  | [] => True
  | s :: rest => s ∈ d.inputs ∧ rest ⊆ d.heads

instance (d : Declaration) : (body : List Symbol) → Decidable (d.ReadsOne body)
  | [] => isTrue trivial
  | s :: rest => inferInstanceAs (Decidable (s ∈ d.inputs ∧ rest ⊆ d.heads))

variable {d : Declaration}

theorem ReadsOne.head?_mem {body : List Symbol} (h : d.ReadsOne body) :
    ∀ s ∈ body.head?.toList, s ∈ d.inputs := by
  cases body with
  | nil => exact List.forall_mem_nil _
  | cons s rest => exact List.forall_mem_singleton.2 h.1

theorem ReadsOne.tail_subset {body : List Symbol} (h : d.ReadsOne body) :
    body.tail ⊆ d.heads := by
  cases body with
  | nil => exact List.nil_subset _
  | cons s rest => exact h.2

/-- A derivation from the left is one that the automaton follows.

The form is split into `read`, input symbols of a body that the automaton has read already and that
the derivation from the left has not, and `rest`, which is all replaced.  Before both stands
`done`, which both have read. -/
theorem exists_derivesBy_of_yields (hd : d.WellFormed)
    (hshape : ∀ p ∈ d.rules, d.ReadsOne p.body) {form word : Form} (h : d.Yields form word) :
    ∀ (ps : List Production) (done read rest : List Symbol), form = read ++ rest →
      (∀ s ∈ read, s ∈ d.inputs) → rest ⊆ d.heads → Production.reads ps = done ++ read →
      d.DerivesBy Redex.IsAfterReads ps (done ++ form) →
      ∃ qs, Production.reads qs = done ++ word ∧
        d.DerivesBy Redex.IsAfterReads qs (done ++ word) := by
  induction h with
  | nil =>
    intro ps done read rest hform _ _ hreads hderives
    obtain ⟨rfl, -⟩ := List.append_eq_nil_iff.1 hform.symm
    exact ⟨ps, hreads, hderives⟩
  | @read s form word hs _ ih =>
    intro ps done read rest hform hread hrest hreads hderives
    cases read with
    | nil =>
      -- an input symbol cannot come first where all symbols are replaced
      have hmem : s ∈ rest := by
        rw [← List.nil_append rest, ← hform]
        exact List.mem_cons_self
      exact absurd (hrest hmem) (hd.not_mem_heads hs)
    | cons t read =>
      rw [List.cons_append] at hform
      obtain ⟨rfl, rfl⟩ := List.cons.inj hform
      have hread := (List.forall_mem_cons.1 hread).2
      rw [List.append_cons] at hreads hderives
      obtain ⟨qs, hqs⟩ := ih ps (done ++ [s]) read rest rfl hread hrest hreads hderives
      rw [← List.append_cons] at hqs
      exact ⟨qs, hqs⟩
  | @expand p form word hp _ ih =>
    intro ps done read rest hform hread hrest hreads hderives
    cases read with
    | cons t read =>
      -- a symbol that is replaced cannot come first where symbols are read
      rw [List.cons_append] at hform
      obtain ⟨rfl, -⟩ := List.cons.inj hform
      exact absurd (hd.head_mem p hp) (hd.not_mem_heads (hread _ List.mem_cons_self))
    | nil =>
      obtain rfl : p.head :: form = rest := hform
      rw [List.append_nil] at hreads
      have hplace : Redex.IsAfterReads ps ⟨done, p.head, form⟩ := hreads.symm
      have hstep := DerivesBy.step hderives hp rfl hplace
      apply ih (ps ++ [p]) done p.body.head?.toList (p.body.tail ++ form)
      · rw [← List.append_assoc, p.head?_append_tail_body]
      · exact (hshape p hp).head?_mem
      · exact List.append_subset.2
          ⟨(hshape p hp).tail_subset, List.subset_of_cons_subset hrest⟩
      · rw [Production.reads_concat, hreads]
      · rw [← List.append_assoc]
        exact hstep

/-- The derivations that the automaton follows to the end of a word reach the same words as all
derivations. -/
theorem exists_derivesBy_iff_derives (hd : d.WellFormed)
    (hshape : ∀ p ∈ d.rules, d.ReadsOne p.body) {word : List Symbol}
    (hword : ∀ s ∈ word, s ∈ d.inputs) :
    (∃ ps, Production.reads ps = word ∧ d.DerivesBy Redex.IsAfterReads ps word) ↔
      d.Derives [d.start] word := by
  constructor
  · intro h
    obtain ⟨ps, -, hderives⟩ := h
    exact hderives.derives
  · intro h
    have hyields := yields_of_derives hword h
    have hstart : [d.start] ⊆ d.heads := by
      intro s hs
      rw [List.mem_singleton.1 hs]
      exact hd.start_mem
    exact exists_derivesBy_of_yields hd hshape hyields [] [] [] [d.start] rfl
      (List.forall_mem_nil _) hstart rfl DerivesBy.start

end Declaration

namespace Grammar

theorem accepts_iff {g : Grammar} {c : Configuration} :
    (g.automaton true).accepts c = true ↔ c.state = closing := by
  simp [accepts, automaton]

/-- The runs that end accepting are those in the last stage, whose productions derive what was
read. -/
theorem exists_stage_accepting_iff {g : Grammar} {word : List Symbol} :
    (∃ c ts, g.Stage ts c ∧ Transition.reads ts = word ∧ (g.automaton true).accepts c = true) ↔
      ∃ ps, Production.reads ps = word ∧ g.DerivesBy Redex.IsAfterReads ps word := by
  constructor
  · intro h
    obtain ⟨c, ts, hstage, rfl, haccepts⟩ := h
    rw [accepts_iff] at haccepts
    cases hstage with
    | untouched => exact absurd (show opening = closing from haccepts) (by decide)
    | following _ => exact absurd (show working = closing from haccepts) (by decide)
    | @finished ps hderives =>
      rw [reads_finished]
      exact ⟨ps, rfl, hderives⟩
  · intro h
    obtain ⟨ps, rfl, hderives⟩ := h
    exact ⟨_, _, Stage.finished hderives, reads_finished ps, accepts_iff.2 rfl⟩

/-- The automaton accepts exactly the words that can be derived, if every body is empty or one
input symbol followed only by symbols that are replaced.  A run goes on from one of the successors
on no input or on the next symbol of the word. -/
theorem explores_accepting_iff_derives (g : Grammar)
    (hshape : ∀ p ∈ g.rules, g.ReadsOne p.body) {word : List Symbol}
    (hword : ∀ s ∈ word, s ∈ g.inputs) :
    (∃ c, (g.automaton true).Explores (g.automaton true).initial word c ∧
        (g.automaton true).accepts c = true) ↔
      g.Derives [g.start] word := by
  rw [← Declaration.exists_derivesBy_iff_derives g.wellFormed hshape hword,
    ← exists_stage_accepting_iff]
  constructor
  · intro h
    obtain ⟨c, hexplores, haccepts⟩ := h
    obtain ⟨-, ts, hfireAll, hreads⟩ := explores_iff.1 hexplores
    exact ⟨c, ts, fireAll_eq_ok_iff_stage.1 hfireAll, hreads, haccepts⟩
  · intro h
    obtain ⟨c, ts, hstage, hreads, haccepts⟩ := h
    exact ⟨c, explores_iff.2 ⟨hword, ts, fireAll_eq_ok_iff_stage.2 hstage, hreads⟩, haccepts⟩

/-- The automaton of `nested` accepts the word `ab`, since `S` derives it. -/
theorem nested_accepts_ab :
    ∃ c, (nested.automaton true).Explores (nested.automaton true).initial ["a", "b"] c ∧
      (nested.automaton true).accepts c = true := by
  apply (explores_accepting_iff_derives nested (by decide) (by decide)).2
  have hfirst : nested.Rewrites ["S"] ["a", "S", "B"] :=
    ⟨⟨[], "S", []⟩, ⟨"S", ["a", "S", "B"]⟩, by decide, rfl, rfl, rfl⟩
  -- the right one of the two symbols first, which the automaton never does
  have hsecond : nested.Rewrites ["a", "S", "B"] ["a", "S", "b"] :=
    ⟨⟨["a", "S"], "B", []⟩, ⟨"B", ["b"]⟩, by decide, rfl, rfl, rfl⟩
  have hthird : nested.Rewrites ["a", "S", "b"] ["a", "b"] :=
    ⟨⟨["a"], "S", ["b"]⟩, ⟨"S", []⟩, by decide, rfl, rfl, rfl⟩
  exact ((Relation.ReflTransGen.single hfirst).tail hsecond).tail hthird

end Grammar

end ContextFree
