import ContextFree.Automaton.TransitionLine
import ContextFree.Document.Folder
import ContextFree.Journal
import ContextFree.Main
import ContextFree.Proofs.Automaton.Language
import ContextFree.Proofs.Document.RoundTrip
import ContextFree.Proofs.Automaton.TransitionLine
import ContextFree.Proofs.Automaton.Marker
import ContextFree.Proofs.Derivation.Leftmost
import ContextFree.Proofs.Derivation.Random
import ContextFree.Proofs.Derivation.Possible
import ContextFree.Proofs.Grammar.Report
import ContextFree.Proofs.Automaton.Generated
import ContextFree.Proofs.Automaton.Inert
import ContextFree.Proofs.Document.Bytes
import ContextFree.Proofs.Vocabulary.Longest
import ContextFree.Proofs.Vocabulary.Rounds
import ContextFree.Proofs.Automaton.Alphabets
import ContextFree.Proofs.Automaton.Rendering
import ContextFree.Proofs.CommandLine.Program
import ContextFree.Proofs.Document.Spacing
import ContextFree.Proofs.Document.Layout
import ContextFree.Proofs.Automaton.Moves
import ContextFree.Proofs.Derivation.Limit
import ContextFree.Proofs.Derivation.Uniform
import ContextFree.Proofs.Document.Order
import ContextFree.Proofs.Automaton.Below
import ContextFree.Proofs.Derivation.Rendering
import ContextFree.Proofs.Grammar.Permuted
import ContextFree.Proofs.Document.Spelling
import ContextFree.Proofs.Derivation.Forced
import ContextFree.Proofs.Automaton.Reset
import ContextFree.Proofs.Vocabulary.Backtracking
