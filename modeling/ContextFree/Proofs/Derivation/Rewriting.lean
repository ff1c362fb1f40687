import ContextFree.Derivation.Basic
import Mathlib.Logic.Relation

/-!
# Rewriting

The generator draws one leftmost derivation.  This module says what a derivation is in general,
as relations between forms, and that the order of its steps does not matter for the words that it
reaches.

* `Rewrites` is one step at any place, and `Derives` is any number of them.
* `DerivesBy` records the productions that were used, and lets only those places be rewritten
  that a given condition allows.  `DerivesBy.derives` forgets both.
* `Yields` builds a word from the left: the first symbol of a form is either read or replaced.
* `yields_of_derives` is the main result.  A word of input symbols that can be derived at all can
  be derived from the left, because a step further right may wait (`Yields.unfill`).
-/

namespace ContextFree

namespace Declaration

/-! ## Steps and derivations -/

/-- One form leads to another if a production replaces a symbol of it, at any place. -/
def Rewrites (d : Declaration) (form next : Form) : Prop :=
  ∃ r : Redex, ∃ p ∈ d.rules, p.head = r.head ∧ form = r.form ∧ next = r.fill p.body

/-- One form derives another if steps at any places lead there. -/
def Derives (d : Declaration) : Form → Form → Prop := Relation.ReflTransGen d.Rewrites

/-- The forms that a list of productions, used in this order, derives from the start symbol.
`place` says which place may be rewritten after which productions. -/
inductive DerivesBy (d : Declaration) (place : List Production → Redex → Prop) :
    List Production → Form → Prop
  | start : DerivesBy d place [] [d.start]
  | step {ps : List Production} {p : Production} {r : Redex} :
      DerivesBy d place ps r.form → p ∈ d.rules → p.head = r.head → place ps r →
        DerivesBy d place (ps ++ [p]) (r.fill p.body)

variable {d : Declaration}

/-- A derivation with a record is a derivation. -/
theorem DerivesBy.derives {place : List Production → Redex → Prop} {ps : List Production}
    {form : Form} (h : d.DerivesBy place ps form) : d.Derives [d.start] form := by
  induction h with
  | start => exact Relation.ReflTransGen.refl
  | step _ hmem hhead _ ih => exact ih.tail ⟨_, _, hmem, hhead, rfl, rfl⟩

/-! ## Derivations from the left -/

/-- The words that a form yields when only its first symbol is ever looked at: an input symbol is
read, and any other symbol is replaced by the body of a production. -/
inductive Yields (d : Declaration) : Form → List Symbol → Prop
  | nil : Yields d [] []
  | read {s : Symbol} {rest : Form} {word : List Symbol} :
      s ∈ d.inputs → Yields d rest word → Yields d (s :: rest) (s :: word)
  | expand {p : Production} {rest : Form} {word : List Symbol} :
      p ∈ d.rules → Yields d (p.body ++ rest) word → Yields d (p.head :: rest) word

/-- A word of input symbols yields itself. -/
theorem Yields.self {word : List Symbol} (hword : ∀ s ∈ word, s ∈ d.inputs) :
    d.Yields word word := by
  induction word with
  | nil => exact Yields.nil
  | cons s word ih =>
    obtain ⟨hs, hword⟩ := List.forall_mem_cons.1 hword
    exact Yields.read hs (ih hword)

/-- What a form yields after a step, it yields before the step.  The induction is on the word that
is built from the left: as long as symbols before the place of the step are read or replaced, the
step waits, and it is taken once its place comes first. -/
theorem Yields.unfill {p : Production} (hp : p ∈ d.rules) {after filled : Form}
    {word : List Symbol} (h : d.Yields filled word) :
    ∀ before, filled = before ++ (p.body ++ after) →
      d.Yields (before ++ p.head :: after) word := by
  induction h with
  | nil =>
    intro before heq
    obtain ⟨rfl, hbody⟩ := List.append_eq_nil_iff.1 heq.symm
    apply Yields.expand hp
    rw [hbody]
    exact Yields.nil
  | @read s rest word hs hrest ih =>
    intro before heq
    cases before with
    | nil =>
      apply Yields.expand hp
      rw [← List.nil_append (p.body ++ after), ← heq]
      exact Yields.read hs hrest
    | cons b before =>
      rw [List.cons_append] at heq ⊢
      obtain ⟨rfl, htail⟩ := List.cons.inj heq
      exact Yields.read hs (ih before htail)
  | @expand q rest word hq hrest ih =>
    intro before heq
    cases before with
    | nil =>
      apply Yields.expand hp
      rw [← List.nil_append (p.body ++ after), ← heq]
      exact Yields.expand hq hrest
    | cons b before =>
      rw [List.cons_append] at heq ⊢
      obtain ⟨rfl, rfl⟩ := List.cons.inj heq
      have hwait := ih (q.body ++ before) (List.append_assoc _ _ _).symm
      rw [List.append_assoc] at hwait
      exact Yields.expand hq hwait

/-- What a form yields after a step at any place, it yields before that step. -/
theorem Yields.of_rewrites {form next : Form} {word : List Symbol}
    (hstep : d.Rewrites form next) (h : d.Yields next word) : d.Yields form word := by
  obtain ⟨r, p, hp, hhead, rfl, rfl⟩ := hstep
  have hunfill := h.unfill hp r.before (List.append_assoc _ _ _)
  rwa [hhead] at hunfill

/-- A word of input symbols that a form derives, by steps at any places, is one that it yields
from the left. -/
theorem yields_of_derives {form word : List Symbol} (hword : ∀ s ∈ word, s ∈ d.inputs)
    (h : d.Derives form word) : d.Yields form word := by
  induction h using Relation.ReflTransGen.head_induction_on with
  | refl => exact Yields.self hword
  | head hstep _ ih => exact ih.of_rewrites hstep

end Declaration

end ContextFree
