import ContextFree.Proofs.Automaton.Language

/-!
# Runs and the alphabets of an automaton

An automaton declares its states, what it reads, and what it keeps on its stack.  Nothing checks
that its transitions keep to that.  This module says which runs of a grammar's automaton, begun in
the state `opening`, do.

* `Automaton.MadeBy` traces a configuration back to the transitions that have fired: they have
  pushed all that is on the stack, but for the bottom symbol.  `MadeBy.fire` is one step of it and
  `madeBy_of_fireAll` the whole run, for an automaton of any shape.
* `Automaton.StaysInside` says that no run leaves the alphabets.
* `Grammar.mem_push_cases` and `Grammar.mem_input_cases` say what the transitions of a grammar push
  and read.  Only bodies can bring in a symbol from outside, because they mix both vocabularies.
* `Grammar.runs_and_alphabets` is the main result: what may be met outside the alphabets, and that
  nothing is exactly if the bodies that are ever used read one input symbol and leave only symbols
  to be replaced.
-/

namespace ContextFree

open Automaton

namespace Automaton

variable {m : Automaton} {c next : Configuration} {ts : List Transition} {t : Transition}

/-! ## Where a configuration comes from -/

/-- Whether a transition fires in some run. -/
def CanFire (m : Automaton) (t : Transition) : Prop :=
  ∃ ts c next, m.fireAll m.initial ts = .ok c ∧ m.fire c t = .ok next

theorem CanFire.mem_transitions (h : m.CanFire t) : t ∈ m.transitions := by
  obtain ⟨ts, c, next, -, hfire⟩ := h
  exact (fire_eq_ok_iff.1 hfire).1

/-- A configuration is what the transitions that have fired have made of the initial one. -/
structure MadeBy (m : Automaton) (ts : List Transition) (c : Configuration) : Prop where
  state : c.state = m.start ∨ ∃ t ∈ ts, c.state = t.target
  stack : ∀ s ∈ c.stack, s = m.bottom ∨ ∃ t ∈ ts, s ∈ t.push
  fired : ∀ t ∈ ts, m.CanFire t

theorem MadeBy.initial (m : Automaton) : m.MadeBy [] m.initial where
  state := .inl rfl
  stack _ hs := .inl (List.mem_singleton.1 hs)
  fired := List.forall_mem_nil _

theorem MadeBy.fire (h : m.MadeBy ts c) (hrun : m.fireAll m.initial ts = .ok c)
    (hfire : m.fire c t = .ok next) : m.MadeBy (ts ++ [t]) next := by
  have hcan : m.CanFire t := ⟨ts, c, next, hrun, hfire⟩
  obtain ⟨-, -, -, rfl⟩ := fire_eq_ok_iff.1 hfire
  have hlast : t ∈ ts ++ [t] := List.mem_append_right _ List.mem_cons_self
  refine ⟨.inr ⟨t, hlast, rfl⟩, fun s hs => ?_, ?_⟩
  · rw [Configuration.move_stack] at hs
    rcases List.mem_append.1 hs with hpush | htail
    · exact .inr ⟨t, hlast, hpush⟩
    · rcases h.stack s (List.mem_of_mem_tail htail) with hbottom | ⟨u, hu, hpush⟩
      · exact .inl hbottom
      · exact .inr ⟨u, List.mem_append_left _ hu, hpush⟩
  · exact List.forall_mem_append.2 ⟨h.fired, List.forall_mem_singleton.2 hcan⟩

/-- Where a run stands was made by the transitions that it has fired. -/
theorem madeBy_of_fireAll (hrun : m.fireAll m.initial ts = .ok c) : m.MadeBy ts c := by
  induction ts using List.reverseRecOn generalizing c with
  | nil =>
    obtain rfl : m.initial = c := Except.ok.inj hrun
    exact MadeBy.initial m
  | append_singleton ts t ih =>
    obtain ⟨previous, hprevious, hfire⟩ := fireAll_concat_eq_ok_iff.1 hrun
    exact (ih hprevious).fire hprevious hfire

/-- Wherever a run stands, its state is one of the automaton's, its stack is made of the stack
alphabet, and the transitions that fire there read nothing but the input alphabet. -/
structure StaysInside (m : Automaton) : Prop where
  state : ∀ ts c, m.fireAll m.initial ts = .ok c → c.state ∈ m.states
  stack : ∀ ts c, m.fireAll m.initial ts = .ok c → c.stack ⊆ m.stackAlphabet
  input : ∀ t, m.CanFire t → ∀ s ∈ t.input, s ∈ m.inputAlphabet

/-- A transition that fires is offered as a successor exactly if the automaton can read what it
reads. -/
theorem offered_iff (hfire : m.fire c t = .ok next) :
    (∃ cs, m.successors c t.input = .ok cs ∧ next ∈ cs) ↔ ∀ s ∈ t.input, s ∈ m.inputAlphabet := by
  rw [exists_mem_successors_iff]
  exact ⟨And.left, fun hread => ⟨hread, t, rfl, hfire⟩⟩

end Automaton

/-! ## The transitions of a grammar -/

namespace Declaration

variable {d : Declaration}

theorem readsOne_iff {body : List Symbol} :
    d.ReadsOne body ↔ (∀ s ∈ body.head?, s ∈ d.inputs) ∧ body.tail ⊆ d.heads := by
  cases body with
  | nil => simp [ReadsOne]
  | cons s rest => simp [ReadsOne]

end Declaration

namespace Grammar

variable {g : Grammar} {t : Transition} {s : Symbol}

/-- What a transition pushes is in the stack alphabet, unless it is an input symbol that stands
behind the first symbol of a body. -/
theorem mem_push_cases (ht : t ∈ g.transitions) (hs : s ∈ t.push) :
    s ∈ (g.automaton true).stackAlphabet ∨
      s ∈ g.inputs ∧ ∃ p ∈ g.rules, t = p.toTransition ∧ s ∈ p.body.tail := by
  have hbottom : Symbol.bottom ∈ (g.automaton true).stackAlphabet :=
    List.mem_append_right _ List.mem_cons_self
  rcases Declaration.mem_transitions.1 ht with rfl | rfl | ⟨p, hp, rfl⟩
  · have hstart : g.start ∈ (g.automaton true).stackAlphabet :=
      List.mem_append_left _ g.wellFormed.start_mem
    have hpush : ∀ s ∈ [g.start, Symbol.bottom], s ∈ (g.automaton true).stackAlphabet :=
      List.forall_mem_cons.2 ⟨hstart, List.forall_mem_singleton.2 hbottom⟩
    exact .inl (hpush s hs)
  · exact .inl (List.forall_mem_singleton.2 hbottom s hs)
  · have hdeclared := g.wellFormed.body_subset p hp (List.mem_of_mem_tail hs)
    rcases List.mem_append.1 hdeclared with hinput | hhead
    · exact .inr ⟨hinput, p, hp, rfl, hs⟩
    · exact .inl (List.mem_append_left _ hhead)

/-- What a transition reads is an input symbol, unless it is a symbol to be replaced that comes
first in a body. -/
theorem mem_input_cases (ht : t ∈ g.transitions) (hs : s ∈ t.input) :
    s ∈ g.inputs ∨ s ∈ g.heads ∧ ∃ p ∈ g.rules, t = p.toTransition ∧ p.body.head? = some s := by
  rcases Declaration.mem_transitions.1 ht with rfl | rfl | ⟨p, hp, rfl⟩
  · exact absurd hs (Option.not_mem_none s)
  · exact absurd hs (Option.not_mem_none s)
  · have hfirst : p.body.head? = some s := hs
    have hdeclared := g.wellFormed.body_subset p hp (List.mem_of_mem_head? hfirst)
    rcases List.mem_append.1 hdeclared with hinput | hhead
    · exact .inl hinput
    · exact .inr ⟨hhead, p, hp, rfl, hfirst⟩

theorem target_mem_states (ht : t ∈ g.transitions) : t.target ∈ (g.automaton true).states := by
  have hworking : working ∈ (g.automaton true).states := List.mem_cons_of_mem _ List.mem_cons_self
  rcases Declaration.mem_transitions.1 ht with rfl | rfl | ⟨p, -, rfl⟩
  · exact hworking
  · exact List.mem_cons_of_mem _ (List.mem_cons_of_mem _ List.mem_cons_self)
  · exact hworking

/-! ## Runs of a grammar's automaton -/

variable {ts : List Transition} {c : Configuration}

theorem state_mem_states (hrun : (g.automaton true).fireAll (g.automaton true).initial ts = .ok c) :
    c.state ∈ (g.automaton true).states := by
  have hmade := madeBy_of_fireAll hrun
  rcases hmade.state with hstart | ⟨t, ht, htarget⟩
  · rw [hstart]
    exact List.mem_cons_self
  · rw [htarget]
    exact target_mem_states (hmade.fired t ht).mem_transitions

/-- What is on the stack is in the stack alphabet, unless a production has left it there. -/
theorem mem_stack_cases
    (hrun : (g.automaton true).fireAll (g.automaton true).initial ts = .ok c) (hs : s ∈ c.stack) :
    s ∈ (g.automaton true).stackAlphabet ∨
      s ∈ g.inputs ∧ ∃ p ∈ g.rules, p.toTransition ∈ ts ∧ s ∈ p.body.tail := by
  have hmade := madeBy_of_fireAll hrun
  rcases hmade.stack s hs with rfl | ⟨t, ht, hpush⟩
  · exact .inl (List.mem_append_right _ List.mem_cons_self)
  · rcases mem_push_cases (hmade.fired t ht).mem_transitions hpush with
      hinside | ⟨hinput, p, hp, rfl, htail⟩
    · exact .inl hinside
    · exact .inr ⟨hinput, p, hp, ht, htail⟩

/-- Runs stay inside the alphabets exactly if all bodies that are ever used have the shape that the
automaton is made for. -/
theorem staysInside_iff :
    (g.automaton true).StaysInside ↔
      ∀ p ∈ g.rules, (g.automaton true).CanFire p.toTransition → g.ReadsOne p.body := by
  constructor
  · intro h p hp hcan
    have hinput := h.input _ hcan
    obtain ⟨ts, c, next, hrun, hfire⟩ := hcan
    have hnext := h.stack _ _ (fireAll_concat_eq_ok_iff.2 ⟨c, hrun, hfire⟩)
    obtain ⟨-, -, -, rfl⟩ := fire_eq_ok_iff.1 hfire
    refine Declaration.readsOne_iff.2 ⟨hinput, fun s hs => ?_⟩
    rcases List.mem_append.1 (hnext (List.mem_append_left _ hs)) with hhead | hbottom
    · exact hhead
    · -- the bottom marker is in the stack alphabet, but in no body
      have hdeclared := g.wellFormed.body_subset p hp (List.mem_of_mem_tail hs)
      exact absurd (List.mem_singleton.1 hbottom ▸ hdeclared) g.wellFormed.bottom_not_mem
  · intro h
    refine ⟨fun ts c hrun => state_mem_states hrun, fun ts c hrun s hs => ?_, fun t hcan s hs => ?_⟩
    · rcases mem_stack_cases hrun hs with hinside | ⟨-, p, hp, hfired, htail⟩
      · exact hinside
      · have hcan := (madeBy_of_fireAll hrun).fired _ hfired
        exact List.mem_append_left _ ((h p hp hcan).tail_subset htail)
    · rcases mem_input_cases hcan.mem_transitions hs with hinput | ⟨-, p, hp, rfl, hfirst⟩
      · exact hinput
      · exact (Declaration.readsOne_iff.1 (h p hp hcan)).1 s hfirst

/-- A run from `opening` keeps to the states of the automaton.  On its stack there is the stack
alphabet, and besides it only input symbols that stand behind the first symbol of a body whose
production was followed.  A transition that fires reads nothing, or an input symbol, in which case
the move is offered as a successor, or a symbol to be replaced that comes first in the body of its
production, in which case it is not.

So the runs stay inside the alphabets exactly if every production that is ever followed reads at
most one symbol, an input symbol, and leaves only symbols to be replaced. -/
theorem runs_and_alphabets (g : Grammar) :
    (∀ ts c, (g.automaton true).fireAll (g.automaton true).initial ts = .ok c →
      c.state ∈ (g.automaton true).states ∧
      (∀ s ∈ c.stack, s ∈ (g.automaton true).stackAlphabet ∨
        s ∈ (g.automaton true).inputAlphabet ∧
          ∃ p ∈ g.rules, p.toTransition ∈ ts ∧ s ∈ p.body.tail) ∧
      ∀ t next, (g.automaton true).fire c t = .ok next →
        ((∃ cs, (g.automaton true).successors c t.input = .ok cs ∧ next ∈ cs) ↔
          ∀ s ∈ t.input, s ∈ (g.automaton true).inputAlphabet) ∧
        ∀ s ∈ t.input, s ∈ (g.automaton true).inputAlphabet ∨
          s ∈ g.heads ∧ ∃ p ∈ g.rules, t = p.toTransition ∧ p.body.head? = some s) ∧
    ((g.automaton true).StaysInside ↔
      ∀ p ∈ g.rules, (g.automaton true).CanFire p.toTransition → g.ReadsOne p.body) := by
  refine ⟨fun ts c hrun => ⟨state_mem_states hrun, fun s hs => mem_stack_cases hrun hs, ?_⟩,
    staysInside_iff⟩
  intro t next hfire
  exact ⟨offered_iff hfire, fun s hs => mem_input_cases (fire_eq_ok_iff.1 hfire).1 hs⟩

/-- A grammar whose only body begins with a symbol to be replaced and ends with an input symbol. -/
def backward : Grammar where
  inputs := ["b"]
  heads := ["S"]
  start := "S"
  rules := [⟨"S", ["S", "b"]⟩]
  faults_eq_nil := by decide +kernel

/-- The automaton of `backward` reads `S`, which is not in its input alphabet, and then has `b` on
its stack, which is not in its stack alphabet. -/
theorem backward_leaves_alphabets :
    (backward.automaton true).fireAll (backward.automaton true).initial
        [backward.openingTransition, ⟨working, some "S", "S", working, ["b"]⟩] =
      .ok ⟨working, ["b", Symbol.bottom]⟩ ∧
    ("b" : Symbol) ∉ (backward.automaton true).stackAlphabet ∧
    ("S" : Symbol) ∉ (backward.automaton true).inputAlphabet ∧
    ¬ (backward.automaton true).StaysInside := by
  have hrun : (backward.automaton true).fireAll (backward.automaton true).initial
      [backward.openingTransition, ⟨working, some "S", "S", working, ["b"]⟩] =
      .ok ⟨working, ["b", Symbol.bottom]⟩ := by decide
  have hstack : ("b" : Symbol) ∉ (backward.automaton true).stackAlphabet := by decide
  refine ⟨hrun, hstack, by decide, fun h => ?_⟩
  exact hstack (h.stack _ _ hrun List.mem_cons_self)

end Grammar

end ContextFree
