import ContextFree.Automaton.Basic

/-!
# Runs

A run is an automaton at work: one record holds its parts, the state it is in and its stack.  An
operation is given the run, may change anything in it, and may be refused.  What it has done before
it is refused stays done, so nothing but the operations themselves keeps the parts of an automaton as
they are, or a run where it stood.

What the operations come to is said here once for each of them, in terms of automata and
configurations: `obey_offer`, `obey_applicable`, `obey_successors`, `obey_fire`, `obey_install` and
`obey_reset`.
-/

namespace ContextFree

/-- An automaton at work: its parts, its current state, and its current stack with the top first. -/
structure Run extends automaton : Automaton where
  state : Symbol
  stack : List Symbol
deriving DecidableEq

/-- A run that has not moved yet. -/
def Automaton.begin (m : Automaton) : Run := { m with stack := [m.bottom], state := m.start }

namespace Run

/-- Where a run stands. -/
def configuration (r : Run) : Configuration := ⟨r.state, r.stack⟩

theorem configuration_top? (r : Run) : r.configuration.top? = r.stack.head? := rfl

/-- The run in another configuration. -/
def goTo (r : Run) (c : Configuration) : Run := { r with state := c.state, stack := c.stack }

/-- The same run, accepting with an empty stack as well. -/
def withEmptyStackAcceptance (r : Run) : Run := { r with acceptsEmptyStack := true }

/-- Whether the empty stack is accepted does not matter to where a run begins. -/
theorem begin_withEmptyStackAcceptance (m : Automaton) :
    m.withEmptyStackAcceptance.begin = m.begin.withEmptyStackAcceptance := rfl

/-! ## Operations -/

/-- Something to be done with a run.  The run is kept where an operation is refused, with all that
was done to it until then. -/
abbrev Operation (α : Type) := ExceptT MoveError (StateM Run) α

/-- Does something with a run.  Gives what it came to and the run after it. -/
def obey {α : Type} (r : Run) (operation : Operation α) : Except MoveError α × Run :=
  operation.run.run r

/-- Puts the run back where it began. -/
def reset : Operation Unit := do
  modify fun r => { r with stack := [r.bottom] }
  modify fun r => { r with state := r.start }

/-- Moves the run to a configuration, whatever it is. -/
def install (c : Configuration) : Operation Unit := do
  modify fun r => { r with state := c.state }
  modify fun r => { r with stack := c.stack }

/-- Fires a transition.  It has to be one of the automaton's own and to fit the state and the top
of the stack; what it reads is up to the caller. -/
def fire (t : Transition) : Operation Unit := do
  let current := (← get).configuration
  let some top := current.top? | throw .stackUnderflow
  if t ∉ (← get).transitions ∨ ¬ t.fits current.state t.input top then
    throw .noApplicableTransition
  install (current.move t)

/-- Refuses what the automaton cannot read. -/
def checkInput (s : Symbol) : Operation Unit := do
  if s ∈ (← get).inputAlphabet then
    return ()
  else
    throw (.invalidSymbol s)

/-- Offers an input symbol.  It is only checked, and the run does not move. -/
def offer (s : Symbol) : Operation Unit := checkInput s

/-- Asks for the transitions that fit, in the automaton's order. -/
def applicable (input : Option Symbol) : Operation (List Transition) := do
  if let some s := input then
    checkInput s
  let r ← get
  let some top := r.stack.head? | throw .stackUnderflow
  return r.transitions.filter fun t => t.fits r.state input top

/-- Asks for the configurations that one transition leads to, in the automaton's order. -/
def successors (input : Option Symbol) : Operation (List Configuration) := do
  let fitting ← applicable input
  if fitting.isEmpty then
    throw .noApplicableTransition
  let current := (← get).configuration
  return fitting.map current.move

/-! ## What the operations come to -/

section

variable {α β : Type} (r : Run)

/-- After a refusal nothing more is done, and what was done stays done. -/
theorem obey_bind (first : Operation α) (next : α → Operation β) :
    r.obey (first >>= next) =
      match r.obey first with
      | (.ok a, r') => r'.obey (next a)
      | (.error e, r') => (.error e, r') := by
  unfold obey ExceptT.run StateT.run
  simp only [bind, ExceptT.bind, ExceptT.mk, StateT.bind, ExceptT.bindCont]
  cases first r with
  | mk outcome r' => cases outcome <;> rfl

/-- To look at the run changes nothing. -/
theorem obey_get_bind (next : Run → Operation α) : r.obey (get >>= next) = r.obey (next r) := rfl

theorem obey_install (c : Configuration) : r.obey (install c) = (.ok (), r.goTo c) := rfl

/-- A run that is put back is like a new one. -/
theorem obey_reset : r.obey reset = (.ok (), r.automaton.begin) := rfl

/-- Firing a transition goes where the automaton says that it leads, or is refused as the automaton
says, and then nothing has been done. -/
theorem obey_fire (t : Transition) :
    r.obey (fire t) =
      match r.automaton.fire r.configuration t with
      | .ok c => (.ok (), r.goTo c)
      | .error e => (.error e, r) := by
  rw [fire, obey_get_bind, Automaton.fire]
  dsimp only
  cases r.configuration.top? with
  | none => rfl
  | some top =>
    dsimp only
    rw [obey_get_bind]
    by_cases hfits : t ∈ r.transitions ∧ t.fits r.configuration.state t.input top
    · have hpass : ¬ (t ∉ r.transitions ∨ ¬ t.fits r.configuration.state t.input top) := fun h =>
        h.elim (absurd hfits.1) (absurd hfits.2)
      rw [if_pos hfits, if_neg hpass]
      exact obey_install r _
    · have hstop : t ∉ r.transitions ∨ ¬ t.fits r.configuration.state t.input top :=
        Decidable.not_and_iff_not_or_not.1 hfits
      rw [if_neg hfits, if_pos hstop]
      rfl

theorem obey_checkInput (s : Symbol) :
    r.obey (checkInput s) = (r.automaton.offer s, r) := by
  rw [checkInput, obey_get_bind, Automaton.offer]
  split
  · rfl
  · rfl

/-- An offer is answered as the automaton says, and nothing is done. -/
theorem obey_offer (s : Symbol) : r.obey (offer s) = (r.automaton.offer s, r) :=
  obey_checkInput r s

/-- The transitions that fit are those of the automaton where its run stands, and nothing is done to
find them. -/
theorem obey_applicable (input : Option Symbol) :
    r.obey (applicable input) = (r.automaton.applicable r.configuration input, r) := by
  unfold applicable Automaton.applicable
  cases input with
  | none =>
    dsimp only
    rw [obey_get_bind, configuration_top?]
    cases r.stack.head? with
    | none => rfl
    | some top => rfl
  | some s =>
    dsimp only
    rw [obey_bind, obey_checkInput, Automaton.offer?, configuration_top?]
    cases r.automaton.offer s with
    | error e => rfl
    | ok =>
      dsimp only
      rw [obey_get_bind]
      cases r.stack.head? with
      | none => rfl
      | some top => rfl

/-- So are the configurations that are offered. -/
theorem obey_successors (input : Option Symbol) :
    r.obey (successors input) = (r.automaton.successors r.configuration input, r) := by
  unfold successors Automaton.successors
  rw [obey_bind, obey_applicable]
  cases r.automaton.applicable r.configuration input with
  | error e => rfl
  | ok fitting =>
    cases fitting with
    | nil => rfl
    | cons t ts => rfl

end

end Run

end ContextFree
