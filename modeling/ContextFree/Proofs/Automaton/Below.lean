import ContextFree.Proofs.Automaton.Simulation

/-!
# What lies below a run

A transition looks at the top of the stack and replaces it.  So a run does not notice symbols that
lie below its stack, as long as it never needs one of them as its top.  Nothing is assumed about the
automaton here.

* `Configuration.onTopOf` puts symbols below a stack, and `Automaton.fire_onTopOf` says that one
  transition does not notice them while there is something above them, not even in what it is
  refused for.
* `Automaton.StaysAbove` says of a whole run that there is something above a height before each of
  its steps.
* `Automaton.fireAll_onTopOf` puts symbols below a run, `Automaton.staysAbove_onTopOf` says that the
  run stays above them, and `Automaton.exists_fireAll_of_onTopOf` takes them away again.
* `Automaton.runs_above` is all of this with stacks that are given from the bottom to the top.
-/

namespace ContextFree

/-! ## One step -/

namespace Configuration

variable {c : Configuration} {below : List Symbol}

/-- The configuration with more symbols below its stack. -/
def onTopOf (c : Configuration) (below : List Symbol) : Configuration :=
  ⟨c.state, c.stack ++ below⟩

@[simp] theorem onTopOf_state (c : Configuration) (below : List Symbol) :
    (c.onTopOf below).state = c.state := rfl

@[simp] theorem onTopOf_stack (c : Configuration) (below : List Symbol) :
    (c.onTopOf below).stack = c.stack ++ below := rfl

theorem ofBottomFirst_append (state : Symbol) (below above : List Symbol) :
    ofBottomFirst state (below ++ above) = (ofBottomFirst state above).onTopOf below.reverse := by
  simp [ofBottomFirst, onTopOf]

theorem ofBottomFirst_bottomFirst (c : Configuration) :
    ofBottomFirst c.state c.bottomFirst = c := by
  simp [ofBottomFirst, bottomFirst]

theorem ofBottomFirst_inj {state state' : Symbol} {stack stack' : List Symbol} :
    ofBottomFirst state stack = ofBottomFirst state' stack' ↔ state = state' ∧ stack = stack' := by
  simp [ofBottomFirst]

theorem top?_onTopOf (hc : c.stack ≠ []) : (c.onTopOf below).top? = c.top? := by
  obtain ⟨top, rest, hstack⟩ := List.exists_cons_of_ne_nil hc
  simp [top?, hstack]

theorem move_onTopOf (hc : c.stack ≠ []) (t : Transition) :
    (c.onTopOf below).move t = (c.move t).onTopOf below := by
  obtain ⟨top, rest, hstack⟩ := List.exists_cons_of_ne_nil hc
  simp [move, onTopOf, hstack]

end Configuration

namespace Automaton

open ContextFree.Configuration

variable {m : Automaton} {c last : Configuration} {below : List Symbol} {ts : List Transition}

/-- With something on the stack a transition does the same whatever is below: it leads to the same
place above it, or is refused for the same reason. -/
theorem fire_onTopOf (hc : c.stack ≠ []) (t : Transition) :
    m.fire (c.onTopOf below) t = (m.fire c t).map fun next => next.onTopOf below := by
  unfold fire
  rw [top?_onTopOf hc, onTopOf_state, move_onTopOf hc]
  cases c.top? with
  | none => rfl
  | some top =>
    by_cases hfits : t ∈ m.transitions ∧ t.fits c.state t.input top
    · simp only [if_pos hfits, Except.map]
    · simp only [if_neg hfits, Except.map]

theorem stack_ne_nil_of_fire {t : Transition} {next : Configuration}
    (h : m.fire c t = .ok next) : c.stack ≠ [] := by
  intro hnil
  have htop := (fire_eq_ok_iff.1 h).2.2.1
  simp [top?, hnil] at htop

/-! ## Whole runs -/

/-- Whether the stack is higher than a given height before every step of a run. -/
def StaysAbove (m : Automaton) (height : Nat) (c : Configuration) (ts : List Transition) : Prop :=
  ∀ (fired : List Transition) (t : Transition) (later : List Transition) (before : Configuration),
    ts = fired ++ t :: later → m.fireAll c fired = .ok before → height < before.stack.length

theorem staysAbove_nil (m : Automaton) (height : Nat) (c : Configuration) :
    m.StaysAbove height c [] := by
  intro fired t later before hsplit
  simp at hsplit

theorem staysAbove_cons_iff {height : Nat} {t : Transition} :
    m.StaysAbove height c (t :: ts) ↔
      height < c.stack.length ∧ ∀ next, m.fire c t = .ok next → m.StaysAbove height next ts := by
  constructor
  · intro h
    refine ⟨h [] t ts c rfl rfl, ?_⟩
    intro next hfire fired u later before hsplit hfired
    apply h (t :: fired) u later before
    · rw [hsplit, List.cons_append]
    · exact fireAll_cons_eq_ok_iff.2 ⟨next, hfire, hfired⟩
  · intro h fired u later before hsplit hfired
    obtain ⟨hheight, hrest⟩ := h
    cases fired with
    | nil =>
      obtain rfl := Except.ok.inj hfired
      exact hheight
    | cons v fired =>
      rw [List.cons_append] at hsplit
      obtain ⟨rfl, hts⟩ := List.cons_eq_cons.1 hsplit
      obtain ⟨next, hfire, hfired⟩ := fireAll_cons_eq_ok_iff.1 hfired
      exact hrest next hfire fired u later before hts hfired

/-- A run goes on in the same way with more symbols below it. -/
theorem fireAll_onTopOf (h : m.fireAll c ts = .ok last) :
    m.fireAll (c.onTopOf below) ts = .ok (last.onTopOf below) := by
  induction ts generalizing c with
  | nil =>
    obtain rfl := Except.ok.inj h
    rfl
  | cons t ts ih =>
    obtain ⟨next, hfire, hrest⟩ := fireAll_cons_eq_ok_iff.1 h
    have hbelow : m.fire (c.onTopOf below) t = .ok (next.onTopOf below) := by
      rw [fire_onTopOf (stack_ne_nil_of_fire hfire), hfire]
      rfl
    exact fireAll_cons_eq_ok_iff.2 ⟨next.onTopOf below, hbelow, ih hrest⟩

/-- A run that does without the symbols below it stays above them. -/
theorem staysAbove_onTopOf (h : m.fireAll c ts = .ok last) :
    m.StaysAbove below.length (c.onTopOf below) ts := by
  induction ts generalizing c with
  | nil => exact staysAbove_nil m _ _
  | cons t ts ih =>
    obtain ⟨next, hfire, hrest⟩ := fireAll_cons_eq_ok_iff.1 h
    have hc := stack_ne_nil_of_fire hfire
    have hpos := List.length_pos_iff.2 hc
    refine staysAbove_cons_iff.2 ⟨?_, ?_⟩
    · rw [onTopOf_stack, List.length_append]
      omega
    · intro next' hfire'
      rw [fire_onTopOf hc, hfire] at hfire'
      obtain rfl := Except.ok.inj hfire'
      exact ih hrest

/-- A run that stays above the symbols below it does without them.  The induction is on the run:
what it does first leaves these symbols where they are, so the rest of it is again a run above
them. -/
theorem exists_fireAll_of_onTopOf (h : m.fireAll (c.onTopOf below) ts = .ok last)
    (habove : m.StaysAbove below.length (c.onTopOf below) ts) :
    ∃ above, m.fireAll c ts = .ok above ∧ last = above.onTopOf below := by
  induction ts generalizing c with
  | nil =>
    obtain rfl := Except.ok.inj h
    exact ⟨c, rfl, rfl⟩
  | cons t ts ih =>
    obtain ⟨hheight, habove⟩ := staysAbove_cons_iff.1 habove
    have hc : c.stack ≠ [] := by
      intro hnil
      simp [hnil] at hheight
    obtain ⟨next, hfire, hrest⟩ := fireAll_cons_eq_ok_iff.1 h
    have habove := habove next hfire
    rw [fire_onTopOf hc] at hfire
    cases hnext : m.fire c t with
    | error e => simp [hnext, Except.map] at hfire
    | ok next' =>
      rw [hnext] at hfire
      obtain rfl : next'.onTopOf below = next := Except.ok.inj hfire
      obtain ⟨above, hfireAll, hlast⟩ := ih hrest habove
      exact ⟨above, fireAll_cons_eq_ok_iff.2 ⟨next', hnext, hfireAll⟩, hlast⟩

/-- A run does not see what lies below the part of the stack that it uses.  Stacks are given from
the bottom to the top here.

A run from one stack is also a run with any symbols put below this stack; they stay where they are,
and before every step the stack is higher than they are.  The other way round, a run that has a
higher stack than these symbols before every step can do without them, and ends with what the first
run has above them. -/
theorem runs_above (m : Automaton) (ts : List Transition) (state last : Symbol)
    (below above : List Symbol) :
    (∀ stack,
      m.fireAll (ofBottomFirst state above) ts = .ok (ofBottomFirst last stack) →
        m.fireAll (ofBottomFirst state (below ++ above)) ts =
            .ok (ofBottomFirst last (below ++ stack)) ∧
          m.StaysAbove below.length (ofBottomFirst state (below ++ above)) ts) ∧
    ∀ stack,
      m.fireAll (ofBottomFirst state (below ++ above)) ts = .ok (ofBottomFirst last stack) →
        m.StaysAbove below.length (ofBottomFirst state (below ++ above)) ts →
          ∃ rest, m.fireAll (ofBottomFirst state above) ts = .ok (ofBottomFirst last rest) ∧
            stack = below ++ rest := by
  have hheight : below.length = below.reverse.length := List.length_reverse.symm
  rw [ofBottomFirst_append, hheight]
  constructor
  · intro stack h
    rw [ofBottomFirst_append]
    exact ⟨fireAll_onTopOf h, staysAbove_onTopOf h⟩
  · intro stack h habove
    obtain ⟨upper, hfireAll, hlast⟩ := exists_fireAll_of_onTopOf h habove
    rw [← ofBottomFirst_bottomFirst upper, ← ofBottomFirst_append, ofBottomFirst_inj] at hlast
    obtain ⟨rfl, rfl⟩ := hlast
    refine ⟨upper.bottomFirst, ?_, rfl⟩
    rw [ofBottomFirst_bottomFirst]
    exact hfireAll

end Automaton

namespace Grammar

open Automaton ContextFree.Configuration

/-- The productions that replace `S` and then the `B` from its body leave nothing of the `S` where
they began.  With the bottom marker and another `B` below it they leave these two.  One more step
then needs the `B` that was below, and is refused without it. -/
theorem nested_runs_above :
    let ts := nested.rules.map Production.toTransition
    (nested.automaton true).fireAll (ofBottomFirst working ["S"]) ts =
        .ok (ofBottomFirst working []) ∧
      (nested.automaton true).fireAll (ofBottomFirst working ["Z0", "B", "S"]) ts =
        .ok (ofBottomFirst working ["Z0", "B"]) ∧
      (nested.automaton true).fireAll (ofBottomFirst working ["Z0", "B", "S"])
          (ts ++ [Production.toTransition ⟨"B", ["b"]⟩]) =
        .ok (ofBottomFirst working ["Z0"]) ∧
      (nested.automaton true).fireAll (ofBottomFirst working ["S"])
          (ts ++ [Production.toTransition ⟨"B", ["b"]⟩]) =
        .error .stackUnderflow := by
  intro ts
  have hrun : (nested.automaton true).fireAll (ofBottomFirst working ["S"]) ts =
      .ok (ofBottomFirst working []) := rfl
  have habove := (runs_above (nested.automaton true) ts working working ["Z0", "B"] ["S"]).1
  exact ⟨hrun, (habove [] hrun).1, rfl, rfl⟩

end Grammar

end ContextFree
