import ContextFree.Automaton.OfGrammar
import ContextFree.CommandLine.Arguments
import ContextFree.Derivation.Random
import ContextFree.Document.Load

/-!
# The program

The program prints a grammar, its automaton, and as many random derivations as were asked for.
Without a file it shows a grammar of its own.  All derivations draw from one source of words, each
going on where the one before it stopped.  A derivation that exceeds the limit is told on the
error output and the others are still printed.

What the program does is a function of its arguments, of the file that they name, and of the
random words, so that it can be reasoned about without the world.
-/

namespace ContextFree

/-- What a program leaves behind. -/
structure Output where
  exitCode : UInt32
  stdout : Text := []
  stderr : Text := []

namespace Program

/-- The grammar that is shown when no file is named. -/
def textbook : Declaration where
  inputs := ["x", "y", "z"]
  heads := ["q", "A", "B", "C"]
  start := "q"
  rules :=
    [⟨"q", ["x", "A"]⟩, ⟨"A", ["x", "A", "B", "C"]⟩, ⟨"A", ["y", "B"]⟩, ⟨"A", ["x"]⟩,
      ⟨"B", ["y"]⟩, ⟨"C", ["z"]⟩]

/-- The version that is printed. -/
def version : Text := "pushdown 0.1.0\n".toList

/-- How the program is used. -/
def usage : Text :=
  ("Usage: pushdown [OPTIONS] [FILE]\n\n" ++
    "Arguments:\n" ++
    "  [FILE]  File containing the grammar (default: the built-in example)\n\n" ++
    "Options:\n" ++
    "      --start-at-initializer  Start the automaton in its initializer state instead of " ++
    "at the start symbol\n" ++
    "  -n, --derivations <AMOUNT>  Amount of random leftmost derivations to print (default: 0)\n" ++
    "      --max-steps <STEPS>     Rewrites allowed per derivation [default: 64]\n" ++
    "  -h, --help                  Print help\n" ++
    "  -V, --version               Print version\n").toList

/-- The line over the grammar. -/
def grammarBanner : Text := "========== C-F GRAMMAR ============\n".toList

/-- The line over the automaton. -/
def automatonBanner : Text := "========== PD AUTOMATON ============\n".toList

/-- The line over the derivations. -/
def derivationsBanner : Text := "========== DERIVATIONS ============\n".toList

/-- Texts written one on a line. -/
def unlines (texts : List Text) : Text := texts.flatMap (· ++ ['\n'])

/-- Derives a number of times from one source of words.  Gives what each derivation came to and
the words that are left. -/
def deriveMany (g : Grammar) (limit : Nat) (words : Words) :
    Nat → List (Except StepLimitExceeded Derivation) × Words
  | 0 => ([], words)
  | n + 1 =>
    let (outcome, rest) := g.derive words limit
    let (outcomes, last) := deriveMany g limit rest n
    (outcome :: outcomes, last)

/-- What is printed before the derivations: the grammar and its automaton. -/
def introduction (g : Grammar) (fromOpening : Bool) : Text :=
  grammarBanner ++ g.render ++ ['\n'] ++ automatonBanner ++ (g.automaton fromOpening).render ++
    ['\n']

/-- Shows a grammar: itself, its automaton, and as many derivations as are asked for.  Gives the
words that are left, too. -/
def showGrammar (settings : Settings) (words : Words) (g : Grammar) : Output × Words :=
  let amount := settings.derivations.getD Settings.defaultDerivations
  let limit := settings.maxSteps.getD Settings.defaultMaxSteps
  let (outcomes, rest) := deriveMany g limit words amount
  ({ exitCode := 0
     stdout := introduction g settings.fromOpening ++
       (if amount = 0 then [] else derivationsBanner) ++
       unlines ((valuesOf outcomes).map Derivation.render)
     stderr := unlines ((errorsOf outcomes).map fun e => e.message.toList) }, rest)

/-- Reports what is wrong, one message on a line. -/
def report {κ : Type} [ToString κ] (errors : List κ) : Output :=
  { exitCode := 1, stderr := unlines (errors.map fun e => (toString e).toList) }

/-- Loads the named file, or takes the textbook grammar, and shows it.  Files are read by the
given function. -/
def showSettings (read : FileName → Except ReadFault (List UInt8)) (settings : Settings)
    (words : Words) : Output × Words :=
  match settings.file with
  | some file =>
    match Document.loadFile file (read file) with
    | .ok g => showGrammar settings words g
    | .error errors => (report errors, words)
  | none =>
    match textbook.check with
    | .ok g => showGrammar settings words g
    | .error faults => (report faults, words)

/-- Does what the arguments ask for.  Gives the words that are left, too. -/
def run (read : FileName → Except ReadFault (List UInt8)) (words : Words) :
    Request → Output × Words
  | .show settings => showSettings read settings words
  | .version => ({ exitCode := 0, stdout := version }, words)
  | .help => ({ exitCode := 0, stdout := usage }, words)
  | .refused => ({ exitCode := 2, stderr := usage }, words)

end Program

end ContextFree
