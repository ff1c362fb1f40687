import ContextFree.Automaton.Configuration

/-!
# Stack automata

An automaton is given by its states, its alphabets, its transitions and what it accepts.  Where a
run of it stands is a `Configuration` beside it, and what can be done is a function of the two.
`ContextFree.Automaton.Run` keeps both in one record and does the same to it.

A run can move in two ways.  `fire` takes one transition of the automaton, whatever it reads.
`successors` takes an input, or none, and gives every configuration that one transition on it
leads to.
-/

namespace ContextFree

/-- A stack automaton.  Nothing is promised about its parts.  Runs begin in `start` with only
`bottom` on the stack, and transitions are tried in their order. -/
structure Automaton where
  states : List Symbol
  inputAlphabet : List Symbol
  stackAlphabet : List Symbol
  transitions : List Transition
  start : Symbol
  bottom : Symbol
  accepting : List Symbol
  acceptsEmptyStack : Bool := false
deriving DecidableEq

/-- Why a run cannot go on as it was told. -/
inductive MoveError where
  | invalidSymbol (s : Symbol)
  | stackUnderflow
  | noApplicableTransition
deriving DecidableEq

/-- The message for a move that is not possible. -/
def MoveError.message : MoveError → String
  | .invalidSymbol s =>
    "Input symbol `" ++ toString s ++ "` does not exist in the input alphabet"
  | .stackUnderflow => "The stack is empty"
  | .noApplicableTransition => "No transition applies to the current configuration"

instance : ToString MoveError := ⟨MoveError.message⟩

namespace Automaton

/-- Where every run starts: in the start state, with only the bottom symbol on the stack. -/
def initial (m : Automaton) : Configuration := ⟨m.start, [m.bottom]⟩

/-- The same automaton, accepting with an empty stack as well. -/
def withEmptyStackAcceptance (m : Automaton) : Automaton := { m with acceptsEmptyStack := true }

/-- Whether a configuration is accepting. -/
def accepts (m : Automaton) (c : Configuration) : Bool :=
  m.accepting.contains c.state || (m.acceptsEmptyStack && c.stack.isEmpty)

/-- Offers an input symbol.  This moves nothing: it only refuses what the automaton cannot
read. -/
def offer (m : Automaton) (s : Symbol) : Except MoveError Unit :=
  if s ∈ m.inputAlphabet then .ok () else .error (.invalidSymbol s)

/-- Offers an input symbol if there is one; reading nothing is always allowed. -/
def offer? (m : Automaton) : Option Symbol → Except MoveError Unit
  | none => .ok ()
  | some s => m.offer s

/-- Fires a transition.  It has to be one of the automaton's own and to fit the state and the top
of the stack; what it reads is up to the caller. -/
def fire (m : Automaton) (c : Configuration) (t : Transition) : Except MoveError Configuration :=
  match c.top? with
  | none => .error .stackUnderflow
  | some top =>
    if t ∈ m.transitions ∧ t.fits c.state t.input top then .ok (c.move t)
    else .error .noApplicableTransition

/-- A transition fires exactly if it is one of the automaton's own, leaves the state, and takes
the top of the stack. -/
theorem fire_eq_ok_iff {m : Automaton} {c next : Configuration} {t : Transition} :
    m.fire c t = .ok next ↔
      t ∈ m.transitions ∧ t.source = c.state ∧ c.top? = some t.top ∧ next = c.move t := by
  unfold fire
  cases htop : c.top? with
  | none => simp
  | some top =>
    simp only [Transition.fits, Bool.and_eq_true, decide_eq_true_eq, Option.some.injEq]
    constructor
    · intro h
      split at h
      · next hfits =>
        obtain ⟨hmem, ⟨hsource, -⟩, htop⟩ := hfits
        exact ⟨hmem, hsource, htop.symm, (Except.ok.inj h).symm⟩
      · simp at h
    · rintro ⟨hmem, hsource, htop, rfl⟩
      rw [if_pos ⟨hmem, ⟨hsource, trivial⟩, htop.symm⟩]

/-- The transitions that fit a configuration and an input, in the automaton's order. -/
def applicable (m : Automaton) (c : Configuration) (input : Option Symbol) :
    Except MoveError (List Transition) := do
  m.offer? input
  match c.top? with
  | none => throw .stackUnderflow
  | some top => return m.transitions.filter fun t => t.fits c.state input top

/-- The configurations that one transition on the given input leads to, in the automaton's
order. -/
def successors (m : Automaton) (c : Configuration) (input : Option Symbol) :
    Except MoveError (List Configuration) := do
  match ← m.applicable c input with
  | [] => throw .noApplicableTransition
  | fitting => return fitting.map c.move

/-- An automaton is written with its states, its alphabets, its transitions one on a line, and
then how it starts and what it accepts. -/
def render (m : Automaton) : Text :=
  "A = ".toList ++ Symbol.renderSet m.states ++ "\nX = ".toList ++
    Symbol.renderSet m.inputAlphabet ++ "\nY = ".toList ++ Symbol.renderSet m.stackAlphabet ++
    "\n\nf:\n".toList ++ m.transitions.flatMap (fun t => t.render ++ ['\n']) ++
    "\nstart: ".toList ++ m.start.text ++ "\nstack: ".toList ++ m.bottom.text ++
    "\naccepting: ".toList ++ Symbol.renderSet m.accepting ++ ['\n']

end Automaton

end ContextFree
