import ContextFree.Automaton.OfGrammar
import ContextFree.Proofs.Automaton.Run
import ContextFree.Proofs.Derivation.Rewriting
import ContextFree.Proofs.Grammar.WellFormed
import Mathlib.Data.List.Induction

/-!
# The automaton follows derivations

This module compares the runs of a grammar's automaton, begun in the state `opening`, with
derivations of the grammar.  Nothing is assumed about the shape of the bodies.  The automaton reads
the first symbol of a body whether it is an input symbol or not, and so it rewrites the symbol that
stands directly after what it has read.

There are three groups.

* The derivations that it follows.  `Redex.IsAfterReads` says where the next step happens in terms
  of what was read, and `Redex.IsAtCount` in terms of how many productions had a body to read
  from.  `derivesBy_isAtCount_iff` says that they allow the same derivations.
* Single moves.  There is one lemma for each of the three kinds of transition, and
  `fire_closingTransition` says when the closing one is refused.
* Runs.  `Stage` lists the three stages that a run can be in.  `Stage.fire` is the step from one
  stage to the next, and `fireAll_eq_ok_iff_stage` says that the runs of the automaton are exactly
  the stages.
-/

namespace ContextFree

open Automaton

/-! ## The derivations that are followed -/

namespace Production

/-- What the transitions of productions read: the first symbols of their bodies. -/
def reads (ps : List Production) : List Symbol := Transition.reads (ps.map toTransition)

@[simp] theorem reads_nil : reads [] = [] := rfl

@[simp] theorem reads_concat (ps : List Production) (p : Production) :
    reads (ps ++ [p]) = reads ps ++ p.body.head?.toList := by
  simp [reads, toTransition]

theorem head?_append_tail_body (p : Production) :
    p.body.head?.toList ++ p.body.tail = p.body := by
  cases p.body with
  | nil => rfl
  | cons s rest => rfl

/-- Every production but the erasing ones gives one symbol to read. -/
theorem length_reads (ps : List Production) :
    (reads ps).length = ps.countP fun p => !p.isErasing := by
  induction ps using List.reverseRecOn with
  | nil => rfl
  | append_singleton ps p ih =>
    rw [reads_concat, List.length_append, List.countP_append, ih]
    congr 1
    cases hbody : p.body with
    | nil => simp [isErasing, hbody]
    | cons s rest => simp [isErasing, hbody]

end Production

namespace Redex

/-- The place directly after what the productions so far have read. -/
def IsAfterReads (ps : List Production) (r : Redex) : Prop := r.before = Production.reads ps

/-- The place whose position is the number of productions so far that were not erasing. -/
def IsAtCount (ps : List Production) (r : Redex) : Prop :=
  r.before.length = ps.countP fun p => !p.isErasing

/-- A step directly after what was read leaves what is read then in front. -/
theorem IsAfterReads.fill_eq {ps : List Production} {r : Redex} (h : r.IsAfterReads ps)
    (p : Production) :
    r.fill p.body = Production.reads (ps ++ [p]) ++ (p.body.tail ++ r.after) := by
  calc r.fill p.body
      = Production.reads ps ++ (p.body ++ r.after) := by rw [fill, h, List.append_assoc]
    _ = Production.reads ps ++ (p.body.head?.toList ++ p.body.tail ++ r.after) := by
      rw [p.head?_append_tail_body]
    _ = Production.reads (ps ++ [p]) ++ (p.body.tail ++ r.after) := by
      rw [Production.reads_concat, List.append_assoc, List.append_assoc]

end Redex

namespace Declaration

variable {d : Declaration} {ps : List Production} {form : Form}

/-- What the productions of such a derivation read is the beginning of its form. -/
theorem DerivesBy.exists_rest (h : d.DerivesBy Redex.IsAfterReads ps form) :
    ∃ rest, form = Production.reads ps ++ rest := by
  cases h with
  | start => exact ⟨[d.start], rfl⟩
  | step _ _ _ hplace => exact ⟨_, hplace.fill_eq _⟩

/-- Counting the productions that are not erasing finds the same places as looking at what was
read. -/
theorem derivesBy_isAtCount_iff :
    d.DerivesBy Redex.IsAtCount ps form ↔ d.DerivesBy Redex.IsAfterReads ps form := by
  constructor
  · intro h
    induction h with
    | start => exact DerivesBy.start
    | @step ps p r _ hp hhead hplace ih =>
      obtain ⟨rest, hform⟩ := ih.exists_rest
      have hlength : r.before.length = (Production.reads ps).length := by
        rw [Production.length_reads]
        exact hplace
      exact DerivesBy.step ih hp hhead (List.append_inj hform hlength).1
  · intro h
    induction h with
    | start => exact DerivesBy.start
    | @step ps p r _ hp hhead hplace ih =>
      apply DerivesBy.step ih hp hhead
      rw [Redex.IsAtCount, hplace, Production.length_reads]

/-- The forms of a derivation are made of declared symbols. -/
theorem WellFormed.subset_vocabulary (hd : d.WellFormed)
    {place : List Production → Redex → Prop} (h : d.DerivesBy place ps form) :
    form ⊆ d.vocabulary := by
  induction h with
  | start =>
    intro s hs
    rw [List.mem_singleton.1 hs]
    exact List.mem_append_right _ hd.start_mem
  | @step ps p r _ hp _ _ ih =>
    obtain ⟨hbefore, hrest⟩ := List.append_subset.1 ih
    have hafter := List.subset_of_cons_subset hrest
    exact List.append_subset.2
      ⟨List.append_subset.2 ⟨hbefore, hd.body_subset p hp⟩, hafter⟩

end Declaration

namespace Grammar

variable {g : Grammar}

/-! ## Single moves -/

/-- A transition of the automaton is the opening one, the closing one, or one of a production.  What
it needs in order to fire is said in each case, and so is where it leads. -/
theorem fire_eq_ok_cases {c next : Configuration} {t : Transition} :
    (g.automaton true).fire c t = .ok next ↔
      (t = g.openingTransition ∧ c.state = opening ∧ c.top? = some Symbol.bottom ∧
          next = ⟨working, g.start :: Symbol.bottom :: c.stack.tail⟩) ∨
        (t = Declaration.closingTransition ∧ c.state = working ∧
          c.top? = some Symbol.bottom ∧ next = ⟨closing, Symbol.bottom :: c.stack.tail⟩) ∨
        ∃ p ∈ g.rules, t = p.toTransition ∧ c.state = working ∧ c.top? = some p.head ∧
          next = ⟨working, p.body.tail ++ c.stack.tail⟩ := by
  rw [fire_eq_ok_iff]
  constructor
  · intro h
    obtain ⟨hmem, hsource, htop, hnext⟩ := h
    rcases Declaration.mem_transitions.1 hmem with rfl | rfl | ⟨p, hp, rfl⟩
    · exact Or.inl ⟨rfl, hsource.symm, htop, hnext⟩
    · exact Or.inr (Or.inl ⟨rfl, hsource.symm, htop, hnext⟩)
    · exact Or.inr (Or.inr ⟨p, hp, rfl, hsource.symm, htop, hnext⟩)
  · intro h
    rcases h with ⟨rfl, hstate, htop, hnext⟩ | ⟨rfl, hstate, htop, hnext⟩ |
      ⟨p, hp, rfl, hstate, htop, hnext⟩
    · exact ⟨Declaration.mem_transitions.2 (Or.inl rfl), hstate.symm, htop, hnext⟩
    · exact ⟨Declaration.mem_transitions.2 (Or.inr (Or.inl rfl)), hstate.symm, htop, hnext⟩
    · exact ⟨Declaration.mem_transitions.2 (Or.inr (Or.inr ⟨p, hp, rfl⟩)), hstate.symm, htop,
        hnext⟩

theorem fire_openingTransition :
    (g.automaton true).fire (g.automaton true).initial g.openingTransition =
      .ok ⟨working, [g.start, Symbol.bottom]⟩ :=
  fire_eq_ok_cases.2 (Or.inl ⟨rfl, rfl, rfl, rfl⟩)

/-- The transition of a production takes its head off the stack. -/
theorem fire_toTransition {p : Production} (hp : p ∈ g.rules) (rest : List Symbol) :
    (g.automaton true).fire ⟨working, p.head :: rest⟩ p.toTransition =
      .ok ⟨working, p.body.tail ++ rest⟩ :=
  fire_eq_ok_cases.2 (Or.inr (Or.inr ⟨p, hp, rfl, rfl, rfl, rfl⟩))

/-- The closing transition fires exactly if nothing is left above the bottom marker. -/
theorem fire_closingTransition {rest : List Symbol} (hrest : rest ⊆ g.vocabulary) :
    (g.automaton true).fire ⟨working, rest ++ [Symbol.bottom]⟩ Declaration.closingTransition =
      if rest = [] then .ok ⟨closing, [Symbol.bottom]⟩ else .error .noApplicableTransition := by
  cases rest with
  | nil =>
    rw [if_pos rfl]
    exact fire_eq_ok_cases.2 (Or.inr (Or.inl ⟨rfl, rfl, rfl, rfl⟩))
  | cons s rest =>
    have hne : Symbol.bottom ≠ s := by
      intro heq
      exact g.wellFormed.bottom_not_mem (heq ▸ hrest List.mem_cons_self)
    rw [if_neg (List.cons_ne_nil s rest)]
    simp [fire, Configuration.top?, Transition.fits, Declaration.closingTransition, hne]

/-! ## Runs -/

/-- The stages of a run from `opening`, with the transitions that have fired and where the run
stands then. -/
inductive Stage (g : Grammar) : List Transition → Configuration → Prop
  /-- Nothing has fired. -/
  | untouched : Stage g [] ⟨opening, [Symbol.bottom]⟩
  /-- Productions are followed: what was read, and then the stack, is the form that they derive. -/
  | following {ps : List Production} {rest : List Symbol} :
      g.DerivesBy Redex.IsAfterReads ps (Production.reads ps ++ rest) →
        Stage g (g.openingTransition :: ps.map Production.toTransition)
          ⟨working, rest ++ [Symbol.bottom]⟩
  /-- The form has been read to its end. -/
  | finished {ps : List Production} :
      g.DerivesBy Redex.IsAfterReads ps (Production.reads ps) →
        Stage g
          (g.openingTransition :: ps.map Production.toTransition ++
            [Declaration.closingTransition])
          ⟨closing, [Symbol.bottom]⟩

namespace Stage

variable {ts : List Transition} {c next : Configuration} {t : Transition}

/-- From `working` a run goes on with a production for the top of the stack, or it closes.  The
bottom marker is not a declared symbol, so it is only seen when nothing is above it. -/
theorem fire_following {ps : List Production} {rest : List Symbol}
    (hderives : g.DerivesBy Redex.IsAfterReads ps (Production.reads ps ++ rest))
    (hfire : (g.automaton true).fire ⟨working, rest ++ [Symbol.bottom]⟩ t = .ok next) :
    g.Stage (g.openingTransition :: ps.map Production.toTransition ++ [t]) next := by
  have hrest : rest ⊆ g.vocabulary :=
    (List.append_subset.1 (g.wellFormed.subset_vocabulary hderives)).2
  rcases fire_eq_ok_cases.1 hfire with ⟨-, hstate, -⟩ | ⟨rfl, -⟩ |
    ⟨p, hp, rfl, -, htop, hnext⟩
  · exact absurd (show working = opening from hstate) (by decide)
  · rw [fire_closingTransition hrest] at hfire
    split at hfire
    · next hnil =>
      obtain rfl := Except.ok.inj hfire
      rw [hnil, List.append_nil] at hderives
      exact Stage.finished hderives
    · exact absurd hfire (by simp)
  · cases rest with
    | nil =>
      have hbottom : Symbol.bottom = p.head := Option.some.inj htop
      exact absurd (List.mem_append_right _ (g.wellFormed.head_mem p hp))
        (hbottom ▸ g.wellFormed.bottom_not_mem)
    | cons s rest =>
      obtain rfl : s = p.head := Option.some.inj htop
      have hplace : Redex.IsAfterReads ps ⟨Production.reads ps, p.head, rest⟩ := rfl
      have hstep := Declaration.DerivesBy.step hderives hp rfl hplace
      rw [hplace.fill_eq p] at hstep
      have hstage := Stage.following hstep
      rw [List.map_append, List.append_assoc] at hstage
      rw [hnext]
      exact hstage

/-- A transition that fires leads from one stage to the next. -/
theorem fire (h : g.Stage ts c) (hfire : (g.automaton true).fire c t = .ok next) :
    g.Stage (ts ++ [t]) next := by
  cases h with
  | untouched =>
    rcases fire_eq_ok_cases.1 hfire with ⟨rfl, -, -, rfl⟩ | ⟨-, hstate, -⟩ |
      ⟨p, -, -, hstate, -⟩
    · exact @Stage.following g [] [g.start] Declaration.DerivesBy.start
    · exact absurd hstate (by decide)
    · exact absurd hstate (by decide)
  | following hderives => exact fire_following hderives hfire
  | finished _ =>
    rcases fire_eq_ok_cases.1 hfire with ⟨-, hstate, -⟩ | ⟨-, hstate, -⟩ |
      ⟨p, -, -, hstate, -⟩
    · exact absurd hstate (by decide)
    · exact absurd hstate (by decide)
    · exact absurd hstate (by decide)

/-- Productions that derive a form fire one after the other, and lead to what is left of it.  The
induction is on the derivation, whose last step replaces the symbol after what was read. -/
theorem fireAll_following {ps : List Production} {form : Form}
    (hderives : g.DerivesBy Redex.IsAfterReads ps form) :
    ∀ rest, form = Production.reads ps ++ rest →
      (g.automaton true).fireAll (g.automaton true).initial
          (g.openingTransition :: ps.map Production.toTransition) =
        .ok ⟨working, rest ++ [Symbol.bottom]⟩ := by
  induction hderives with
  | start =>
    intro rest hform
    obtain rfl : [g.start] = rest := hform
    exact fireAll_cons_eq_ok_iff.2 ⟨_, fire_openingTransition, rfl⟩
  | @step ps p r _ hp hhead hplace ih =>
    intro rest hform
    rw [hplace.fill_eq p] at hform
    obtain rfl := List.append_cancel_left hform
    have hbefore : r.form = Production.reads ps ++ p.head :: r.after := by
      rw [Redex.form, hplace, hhead]
    have hfire := fire_toTransition hp (r.after ++ [Symbol.bottom])
    rw [List.map_append, List.map_singleton, ← List.cons_append, List.append_assoc]
    exact fireAll_concat_eq_ok_iff.2 ⟨_, ih _ hbefore, hfire⟩

end Stage

/-- A run from `opening` is in one of the three stages, and every stage is reached. -/
theorem fireAll_eq_ok_iff_stage {ts : List Transition} {c : Configuration} :
    (g.automaton true).fireAll (g.automaton true).initial ts = .ok c ↔ g.Stage ts c := by
  constructor
  · intro h
    induction ts using List.reverseRecOn generalizing c with
    | nil =>
      obtain rfl := Except.ok.inj h
      exact Stage.untouched
    | append_singleton ts t ih =>
      obtain ⟨previous, hprevious, hfire⟩ := fireAll_concat_eq_ok_iff.1 h
      exact (ih hprevious).fire hfire
  · intro h
    cases h with
    | untouched => rfl
    | following hderives => exact Stage.fireAll_following hderives _ rfl
    | @finished ps hderives =>
      have hfollowing := Stage.fireAll_following hderives [] (List.append_nil _).symm
      have hclosing := fire_closingTransition (List.nil_subset g.vocabulary)
      rw [if_pos rfl] at hclosing
      exact fireAll_concat_eq_ok_iff.2 ⟨_, hfollowing, hclosing⟩

theorem reads_following (ps : List Production) :
    Transition.reads (g.openingTransition :: ps.map Production.toTransition) =
      Production.reads ps := by
  rw [Transition.reads_cons]
  rfl

theorem reads_finished (ps : List Production) :
    Transition.reads (g.openingTransition :: ps.map Production.toTransition ++
      [Declaration.closingTransition]) = Production.reads ps := by
  rw [Transition.reads_append, reads_following]
  exact List.append_nil _

/-- The automaton and the derivations follow each other.

A run from `opening` has not begun, or it has fired the transitions of productions that derive what
it has read followed by what is above the bottom marker, or it has closed and the productions
derive what it has read.  Conversely a derivation that replaces, at each step, the symbol whose
position is the number of productions before it that were not erasing, is followed step by step.
The closing transition then fires exactly if the whole form has been read. -/
theorem automaton_simulates (g : Grammar) :
    (∀ (ts : List Transition) (c : Configuration),
        (g.automaton true).fireAll (g.automaton true).initial ts = .ok c →
          (ts = [] ∧ c = ⟨opening, [Symbol.bottom]⟩) ∨
          (∃ ps rest, ts = g.openingTransition :: ps.map Production.toTransition ∧
            c = ⟨working, rest ++ [Symbol.bottom]⟩ ∧
            g.DerivesBy Redex.IsAfterReads ps (Transition.reads ts ++ rest)) ∨
          (∃ ps, ts = g.openingTransition :: ps.map Production.toTransition ++
              [Declaration.closingTransition] ∧
            c = ⟨closing, [Symbol.bottom]⟩ ∧
            g.DerivesBy Redex.IsAfterReads ps (Transition.reads ts))) ∧
      ∀ (ps : List Production) (form : Form), g.DerivesBy Redex.IsAtCount ps form →
        ∃ rest,
          form = Transition.reads (g.openingTransition :: ps.map Production.toTransition) ++
            rest ∧
          (g.automaton true).fireAll (g.automaton true).initial
              (g.openingTransition :: ps.map Production.toTransition) =
            .ok ⟨working, rest ++ [Symbol.bottom]⟩ ∧
          (g.automaton true).fire ⟨working, rest ++ [Symbol.bottom]⟩
              Declaration.closingTransition =
            if rest = [] then .ok ⟨closing, [Symbol.bottom]⟩
            else .error .noApplicableTransition := by
  constructor
  · intro ts c h
    cases fireAll_eq_ok_iff_stage.1 h with
    | untouched => exact Or.inl ⟨rfl, rfl⟩
    | @following ps rest hderives =>
      refine Or.inr (Or.inl ⟨ps, rest, rfl, rfl, ?_⟩)
      rw [reads_following]
      exact hderives
    | @finished ps hderives =>
      refine Or.inr (Or.inr ⟨ps, rfl, rfl, ?_⟩)
      rw [reads_finished]
      exact hderives
  · intro ps form hcount
    have hderives := Declaration.derivesBy_isAtCount_iff.1 hcount
    obtain ⟨rest, rfl⟩ := hderives.exists_rest
    have hform := g.wellFormed.subset_vocabulary hderives
    refine ⟨rest, ?_, fireAll_eq_ok_iff_stage.2 (Stage.following hderives),
      fire_closingTransition (List.append_subset.1 hform).2⟩
    rw [reads_following]

/-- A grammar for the words that are some `a` followed by as many `b`, one `S` inside the other. -/
def nested : Grammar where
  inputs := ["a", "b"]
  heads := ["S", "B"]
  start := "S"
  rules := [⟨"S", ["a", "S", "B"]⟩, ⟨"S", []⟩, ⟨"B", ["b"]⟩]
  faults_eq_nil := by decide +kernel

/-- After the empty derivation the start symbol is still above the bottom marker, and the closing
transition is refused. -/
theorem closing_refused_before_reading :
    nested.DerivesBy Redex.IsAtCount [] [nested.start] ∧
      (nested.automaton true).fireAll (nested.automaton true).initial
          [nested.openingTransition] =
        .ok ⟨working, [nested.start, Symbol.bottom]⟩ ∧
      (nested.automaton true).fireAll (nested.automaton true).initial
          [nested.openingTransition, Declaration.closingTransition] =
        .error .noApplicableTransition :=
  ⟨Declaration.DerivesBy.start, rfl, rfl⟩

end Grammar

end ContextFree
