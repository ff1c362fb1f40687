import ContextFree.Automaton.Run

/-!
# Sessions

A session is a run that is driven by commands, with another run that was put aside.  Each command
gives an answer; a command that is refused answers with the error.  Most commands are operations of
the run, and two are made of several of them: `choose` asks for successors and installs one, and
`fireAt` looks a transition up and fires it.
-/

namespace ContextFree

/-- A run and a run that was put aside. -/
structure Session where
  current : Run
  saved : Run
deriving DecidableEq

/-- What a session can be told to do. -/
inductive Command where
  | offer (s : Symbol)
  | applicable (input : Option Symbol)
  | successors (input : Option Symbol)
  | choose (input : Option Symbol) (pick : Nat)
  | install (c : Configuration)
  | fireAt (index : Nat)
  | fire (t : Transition)
  | reset
  | render
  | acceptEmptyStack
  | save
  | restore
deriving DecidableEq

/-- What a session answers to a command. -/
inductive Answer where
  | done
  | refused (e : MoveError)
  | transition (t : Transition)
  | transitions (ts : List Transition)
  | configurations (cs : List Configuration)
  | count (n : Nat)
  | text (t : Text)
deriving DecidableEq

namespace Session

/-- A session at the start of an automaton's run, with that run put aside. -/
def start (m : Automaton) : Session := ⟨m.begin, m.begin⟩

/-- The session with its run in another configuration. -/
def goTo (s : Session) (c : Configuration) : Session := { s with current := s.current.goTo c }

/-- Asks for successors and installs the one that is picked, counting round if need be.  Gives their
number. -/
def choose (input : Option Symbol) (pick : Nat) : Run.Operation Nat := do
  let offered ← Run.successors input
  let some c := offered[pick % offered.length]? | throw .noApplicableTransition
  Run.install c
  return offered.length

/-- Fires the transition with a number.  Gives that transition. -/
def fireAt (index : Nat) : Run.Operation Transition := do
  let some t := (← get).transitions[index]? | throw .noApplicableTransition
  Run.fire t
  return t

/-- Has the run do something, with an answer made from what it comes to. -/
def tell {α : Type} (s : Session) (operation : Run.Operation α) (answer : α → Answer) :
    Session × Answer :=
  match s.current.obey operation with
  | (.ok a, r) => ({ s with current := r }, answer a)
  | (.error e, r) => ({ s with current := r }, .refused e)

/-- Obeys a command. -/
def perform (s : Session) : Command → Session × Answer
  | .offer symbol => s.tell (Run.offer symbol) fun _ => .done
  | .applicable input => s.tell (Run.applicable input) .transitions
  | .successors input => s.tell (Run.successors input) .configurations
  | .choose input pick => s.tell (choose input pick) .count
  | .install c => s.tell (Run.install c) fun _ => .done
  | .fireAt index => s.tell (fireAt index) .transition
  | .fire t => s.tell (Run.fire t) fun _ => .done
  | .reset => s.tell Run.reset fun _ => .done
  | .render => (s, .text s.current.automaton.render)
  | .acceptEmptyStack => ({ s with current := s.current.withEmptyStackAcceptance }, .done)
  | .save => ({ s with saved := s.current }, .done)
  | .restore => ({ s with current := s.saved }, .done)

/-- Obeys commands one after the other.  Gives each answer with the session after it. -/
def performAll (s : Session) : List Command → List (Answer × Session)
  | [] => []
  | command :: rest =>
    let (next, answer) := s.perform command
    (answer, next) :: next.performAll rest

end Session

end ContextFree
