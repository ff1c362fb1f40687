import ContextFree.Automaton.OfGrammar
import ContextFree.Automaton.Session
import ContextFree.Derivation.Random
import ContextFree.Document.Place

/-!
# The journal

While it works the library notes what it did.  What an operation notes depends only on what it
was given and what it came to, so the journal is kept beside the operations: for each kind of
operation there is a function to the list of its entries.
-/

namespace ContextFree

/-- How much an entry matters. -/
inductive Level where
  | trace
  | debug
  | warn
deriving DecidableEq

/-- The label that an entry carries. -/
def Level.label : Level → String
  | .trace => "TRACE"
  | .debug => "DEBUG"
  | .warn => "WARN"

/-- Something that happened. -/
inductive Event where
  | accepted (g : Grammar)
  | loaded (file : FileName) (g : Grammar)
  | turned (p : Production)
  | built (g : Grammar)
  | offered (s : Symbol) (c : Configuration)
  | fired (t : Transition) (c : Configuration)
  | gaveUp (limit : Nat)
  | derived (d : Derivation)

namespace Event

/-- How much an event matters. -/
def level : Event → Level
  | .accepted _ | .loaded _ _ | .built _ | .derived _ => .debug
  | .turned _ | .offered _ _ | .fired _ _ => .trace
  | .gaveUp _ => .warn

/-- What is noted about an event. -/
def message : Event → String
  | .accepted g =>
    "grammar with " ++ toString g.inputs.length ++ " + " ++ toString g.heads.length ++
      " symbols and " ++ toString g.rules.length ++ " rules"
  | .loaded file g =>
    "parsed grammar from " ++ toString file ++ " with " ++ toString g.rules.length ++ " rules"
  | .turned p => String.ofList p.render ++ " gives " ++ String.ofList p.toTransition.render
  | .built g =>
    "built automaton with " ++ toString g.transitions.length ++ " transitions from " ++
      toString g.rules.length ++ " rules"
  | .offered s c => "step on " ++ toString s ++ " from " ++ String.ofList c.render
  | .fired t c => String.ofList t.render ++ " fires from " ++ String.ofList c.render
  | .gaveUp limit => "giving up on derivation after " ++ toString limit ++ " rewrites"
  | .derived d =>
    "derived " ++ String.ofList (Symbol.spell d.sentence) ++ " in " ++
      toString d.rules.length ++ " rewrites"

/-- An entry of the journal: the label of its level and what is noted. -/
def entry (e : Event) : String := e.level.label ++ " " ++ e.message

end Event

/-! ## What the operations note -/

namespace Journal

/-- Checking a declaration. -/
def ofCheck {ε : Type} : Except ε Grammar → List Event
  | .ok g => [.accepted g]
  | .error _ => []

/-- Loading a document. -/
def ofLoad {ε : Type} (file : FileName) : Except ε Grammar → List Event
  | .ok g => [.accepted g, .loaded file g]
  | .error _ => []

/-- Making the automaton of a grammar. -/
def ofAutomaton (g : Grammar) : List Event := g.rules.map .turned ++ [.built g]

/-- Deriving at random. -/
def ofDerive : Except StepLimitExceeded Derivation → List Event
  | .ok d => [.derived d]
  | .error e => [.gaveUp e.limit]

/-- Obeying a command, given the session before it. -/
def ofCommand (s : Session) (command : Command) : List Event :=
  match command, (s.perform command).2 with
  | .offer symbol, .done => [.offered symbol s.current.configuration]
  | .fire t, .done => [.fired t s.current.configuration]
  | .fireAt _, .transition t => [.fired t s.current.configuration]
  | _, _ => []

/-- Obeying commands one after the other. -/
def ofCommands (s : Session) : List Command → List Event
  | [] => []
  | command :: rest => ofCommand s command ++ ofCommands (s.perform command).1 rest

end Journal

end ContextFree
