import ContextFree.CommandLine.Program
import ContextFree.Proofs.Automaton.Generated
import ContextFree.Proofs.Automaton.Rendering
import ContextFree.Proofs.Document.Bytes
import ContextFree.Proofs.Document.RoundTrip
import Mathlib.Data.List.TakeWhile

/-!
# What the program prints

The program prints sections with a banner over each.  This module cuts its output apart again and
says what the sections are.

* Lines.  Everything that is printed for a grammar is spaced (`Text.IsSpaced`), so `lines` finds the
  lines of the output, and `Program.below` and `Program.between` find the sections by their banners.
* Sections.  `Program.introductionLines` and `Program.derivationLines` are the output line by line.
  No line of a grammar or of an automaton begins with an equals sign, so none reads like a banner.
* Derivations.  `Program.DerivesInTurn` says that each derivation goes on with the words that the
  one before it left.
* Runs.  `Program.Shows` is what an output for a grammar comes to, and `Program.run_on_file` is the
  main result.
-/

namespace ContextFree

/-! ## Lines -/

theorem isBlank_of_isDigit {c : Char} (h : c.isDigit = true) : isBlank c = false := by
  simp only [Char.isDigit, Bool.and_eq_true, decide_eq_true_eq] at h
  have hlow : 48 ≤ c.toNat := h.1
  have hhigh : c.toNat ≤ 57 := h.2
  simp [isBlank, blankRanges]
  omega

theorem StepLimitExceeded.isSpaced_message (e : StepLimitExceeded) :
    Text.IsSpaced e.message.toList := by
  have hmessage : e.message.toList =
      "Derivation did not finish within ".toList ++ Nat.toDigits 10 e.limit ++
        " rewrites".toList := by
    unfold message
    simp only [String.toList_append, Nat.toString_eq_repr, Nat.toList_repr]
  have hdigits : Text.IsSpaced (Nat.toDigits 10 e.limit) := fun c hc =>
    Or.inr (isBlank_of_isDigit (Nat.isDigit_of_mem_toDigits (by decide) (by decide) hc))
  rw [hmessage]
  exact (Text.IsSpaced.append (by decide) hdigits).append (by decide)

theorem Declaration.IsLeftmost.isSpaced_render {d : Declaration} {e : Derivation}
    (h : d.IsLeftmost e) (hd : d.WellFormed) : e.render.IsSpaced := by
  refine .intercalate (by decide) fun text htext => ?_
  obtain ⟨form, hform, rfl⟩ := List.mem_map.1 htext
  exact Symbol.isSpaced_spell fun s hs => hd.not_malformed s (h.forms_subset hd form hform hs)

namespace Program

theorem lines_unlines {printed : List Text} (h : ∀ line ∈ printed, line.IsSpaced) :
    Text.lines (unlines printed) = printed :=
  Text.lines_of_isSpaced h

theorem unlines_append (first second : List Text) :
    unlines (first ++ second) = unlines first ++ unlines second :=
  List.flatMap_append

/-- Whether every line of a text is ended by a line feed. -/
def IsComplete (text : Text) : Prop := unlines text.lines = text

theorem isComplete_unlines {printed : List Text} (h : ∀ line ∈ printed, line.IsSpaced) :
    IsComplete (unlines printed) :=
  congrArg unlines (lines_unlines h)

/-- The lines of a text that come after the first one that reads like the given banner. -/
def below (banner text : Text) : List Text :=
  (text.lines.dropWhile fun line => line ++ ['\n'] ≠ banner).tail

/-- The text between the first line that reads like the upper banner and the next line that reads
like the lower one, or up to the end if there is no such line. -/
def between (upper lower text : Text) : Text :=
  unlines ((below upper text).takeWhile fun line => line ++ ['\n'] ≠ lower)

section

variable {text title : Text} {before inside after : List Text}

/-- Lines without the title of a banner do not read like the banner. -/
theorem ne_banner_of_not_mem {banner : Text} (hbanner : banner = title ++ ['\n'])
    {printed : List Text} (htitle : title ∉ printed) :
    ∀ line ∈ printed, decide (line ++ ['\n'] ≠ banner) = true := by
  intro line hline
  have hne : line ≠ title := fun heq => htitle (heq ▸ hline)
  simpa [hbanner] using hne

theorem below_of_lines {banner : Text} (hbanner : banner = title ++ ['\n'])
    (hlines : text.lines = before ++ title :: after) (hbefore : title ∉ before) :
    below banner text = after := by
  rw [below, hlines, List.dropWhile_append_of_pos (ne_banner_of_not_mem hbanner hbefore)]
  simp [hbanner]

theorem below_of_not_mem {banner : Text} (hbanner : banner = title ++ ['\n'])
    (htitle : title ∉ text.lines) : below banner text = [] := by
  have hnone := List.dropWhile_eq_nil_iff.2 (ne_banner_of_not_mem hbanner htitle)
  rw [below, hnone, List.tail_nil]

theorem between_of_lines {upper lower lowerTitle : Text} (hupper : upper = title ++ ['\n'])
    (hlower : lower = lowerTitle ++ ['\n'])
    (hlines : text.lines = before ++ title :: (inside ++ after)) (hbefore : title ∉ before)
    (hinside : lowerTitle ∉ inside) (hafter : ∀ line ∈ after.head?, line = lowerTitle) :
    between upper lower text = unlines inside := by
  rw [between, below_of_lines hupper hlines hbefore,
    List.takeWhile_append_of_pos (ne_banner_of_not_mem hlower hinside)]
  cases after with
  | nil => simp
  | cons line after =>
    obtain rfl : line = lowerTitle := hafter line rfl
    simp [hlower]

end

/-! ## Sections -/

/-- The line of the grammar's banner. -/
def grammarTitle : Text := grammarBanner.dropLast

/-- The line of the automaton's banner. -/
def automatonTitle : Text := automatonBanner.dropLast

/-- The line of the banner over the derivations. -/
def derivationsTitle : Text := derivationsBanner.dropLast

/-- The lines of the grammar, with the blank one behind them. -/
def grammarLines (g : Grammar) : List Text := (g.lines ++ [none]).map Document.written

/-- The lines of the automaton, with the blank one behind them. -/
def automatonLines (m : Automaton) : List Text := m.lines ++ [[]]

/-- The banner and the derivations that ended, if any were asked for. -/
def derivationLines (outcomes : List (Except StepLimitExceeded Derivation)) : List Text :=
  if outcomes = [] then [] else derivationsTitle :: (valuesOf outcomes).map Derivation.render

/-- The lines that are printed before the derivations. -/
def introductionLines (g : Grammar) (fromOpening : Bool) : List Text :=
  grammarTitle :: (grammarLines g ++ automatonTitle :: automatonLines (g.automaton fromOpening))

theorem grammarBanner_eq : grammarBanner = grammarTitle ++ ['\n'] := rfl

theorem automatonBanner_eq : automatonBanner = automatonTitle ++ ['\n'] := rfl

theorem derivationsBanner_eq : derivationsBanner = derivationsTitle ++ ['\n'] := rfl

theorem unlines_grammarLines (g : Grammar) : unlines (grammarLines g) = g.render ++ ['\n'] := by
  rw [grammarLines, List.map_append, unlines_append, Declaration.render_eq_flatMap]
  rfl

theorem unlines_automatonLines (m : Automaton) :
    unlines (automatonLines m) = m.render ++ ['\n'] := by
  rw [automatonLines, unlines_append, Automaton.render_eq_flatMap]
  rfl

theorem unlines_derivationLines (outcomes : List (Except StepLimitExceeded Derivation)) :
    unlines (derivationLines outcomes) =
      (if outcomes = [] then [] else derivationsBanner) ++
        unlines ((valuesOf outcomes).map Derivation.render) := by
  by_cases h : outcomes = []
  · rw [derivationLines, if_pos h, if_pos h, h]
    rfl
  · rw [derivationLines, if_neg h, if_neg h]
    rfl

theorem unlines_introductionLines (g : Grammar) (fromOpening : Bool) :
    unlines (introductionLines g fromOpening) = introduction g fromOpening := by
  have hcons : ∀ title lines, unlines (title :: lines) = (title ++ ['\n']) ++ unlines lines :=
    fun _ _ => rfl
  rw [introductionLines, hcons, unlines_append, hcons, unlines_grammarLines,
    unlines_automatonLines, ← grammarBanner_eq, ← automatonBanner_eq, introduction]
  simp only [List.append_assoc]

/-! ### The lines of each section -/

theorem isSpaced_of_mem_grammarLines (g : Grammar) : ∀ line ∈ grammarLines g, line.IsSpaced := by
  intro line hline
  obtain ⟨statement, hmem, rfl⟩ := List.mem_map.1 hline
  rcases List.mem_append.1 hmem with hstatement | hblank
  · cases statement with
    | none => exact List.forall_mem_nil _
    | some s => exact Statement.isSpaced_render (g.wellFormed.isWritable_of_mem_lines hstatement)
  · obtain rfl := List.mem_singleton.1 hblank
    exact List.forall_mem_nil _

theorem isSpaced_of_mem_automatonLines {m : Automaton} (hm : m.IsWritable) :
    ∀ line ∈ automatonLines m, line.IsSpaced :=
  List.forall_mem_append.2 ⟨hm.isSpaced_of_mem_lines, List.forall_mem_singleton.2 (by decide)⟩

theorem isSpaced_of_mem_derivationLines {outcomes : List (Except StepLimitExceeded Derivation)}
    (h : ∀ e ∈ valuesOf outcomes, e.render.IsSpaced) :
    ∀ line ∈ derivationLines outcomes, line.IsSpaced := by
  rw [derivationLines]
  split
  · exact List.forall_mem_nil _
  · exact List.forall_mem_cons.2 ⟨by decide, List.forall_mem_map.2 h⟩

theorem isSpaced_of_mem_introductionLines (g : Grammar) (fromOpening : Bool) :
    ∀ line ∈ introductionLines g fromOpening, line.IsSpaced := by
  have hautomaton := isSpaced_of_mem_automatonLines (g.isWritable_automaton fromOpening)
  exact List.forall_mem_cons.2 ⟨by decide, List.forall_mem_append.2
    ⟨isSpaced_of_mem_grammarLines g, List.forall_mem_cons.2 ⟨by decide, hautomaton⟩⟩⟩

/-- No equals sign stands at the start of a line that begins with a well-made symbol. -/
theorem head?_symbol_append_ne {s : Symbol} (hs : s.isMalformed = false) (rest : Text) :
    (s.text ++ rest).head? ≠ some '=' := by
  have hne := (Symbol.isMalformed_eq_false_iff.1 hs).1
  have hletters : '=' ∉ s.text := Symbol.not_mem_of_mem_punctuation hs (by decide)
  rw [List.head?_append_of_ne_nil _ hne]
  exact fun hhead => hletters (List.mem_of_head? hhead)

theorem head?_render_ne {s : Statement} (hs : s.IsWritable) : s.render.head? ≠ some '=' := by
  cases s with
  | vocabulary name symbols =>
    rw [Statement.render, List.append_assoc]
    exact head?_symbol_append_ne (hs ⟨name⟩ List.mem_cons_self) _
  | start symbol => simp [Statement.render, SectionName.start]
  | productions => simp [Statement.render, SectionName.productions]
  | rule r =>
    rw [Statement.render, List.append_assoc]
    exact head?_symbol_append_ne (hs r.head List.mem_cons_self) _

theorem head?_ne_of_mem_grammarLines (g : Grammar) :
    ∀ line ∈ grammarLines g, line.head? ≠ some '=' := by
  intro line hline
  obtain ⟨statement, hmem, rfl⟩ := List.mem_map.1 hline
  cases statement with
  | none => simp [Document.written]
  | some s =>
    have hstatement : some s ∈ g.lines := by simpa using hmem
    exact head?_render_ne (g.wellFormed.isWritable_of_mem_lines hstatement)

theorem head?_ne_of_mem_automatonLines (m : Automaton) :
    ∀ line ∈ automatonLines m, line.head? ≠ some '=' := by
  have htransitions : ∀ line ∈ m.transitions.map Transition.render, line.head? ≠ some '=' := by
    refine List.forall_mem_map.2 fun t _ => ?_
    rw [Transition.render_eq]
    simp
  rw [automatonLines, Automaton.lines]
  simp only [List.forall_mem_append, List.forall_mem_cons]
  exact ⟨⟨by simp, htransitions, by simp⟩, by simp⟩

theorem title_not_mem {title : Text} (htitle : title.head? = some '=') {printed : List Text}
    (hprinted : ∀ line ∈ printed, line.head? ≠ some '=') : title ∉ printed :=
  fun hmem => hprinted title hmem htitle

theorem automatonTitle_not_mem (g : Grammar) : automatonTitle ∉ grammarTitle :: grammarLines g :=
  List.not_mem_cons_of_ne_of_not_mem (by decide)
    (title_not_mem rfl (head?_ne_of_mem_grammarLines g))

theorem derivationsTitle_not_mem (g : Grammar) (fromOpening : Bool) :
    derivationsTitle ∉ introductionLines g fromOpening := by
  have hgrammar : derivationsTitle ∉ grammarLines g :=
    title_not_mem rfl (head?_ne_of_mem_grammarLines g)
  have hautomaton : derivationsTitle ∉ automatonLines (g.automaton fromOpening) :=
    title_not_mem rfl (head?_ne_of_mem_automatonLines _)
  have hgrammarTitle : derivationsTitle ≠ grammarTitle := by decide
  have hautomatonTitle : derivationsTitle ≠ automatonTitle := by decide
  simp [introductionLines, hgrammar, hautomaton, hgrammarTitle, hautomatonTitle]

/-- The blank line behind a grammar changes nothing for its reader. -/
theorem loadText_grammarLines (g : Grammar) (file : FileName) :
    Document.loadText file (unlines (grammarLines g)) = .ok g := by
  have hwritable : ∀ s, some s ∈ g.lines ++ [none] → s.IsWritable := fun s hs =>
    g.wellFormed.isWritable_of_mem_lines (by simpa using hs)
  have hstatements : Document.statementsOf (numbered (g.lines ++ [none])) =
      Document.statementsOf (numbered g.lines) := by
    simp [Document.statementsOf, numbered, List.zipIdx_append]
  have hload := Document.load_written file hwritable
  rw [Document.loadText, lines_unlines (isSpaced_of_mem_grammarLines g), grammarLines,
    List.map_map]
  exact hload.trans (hstatements ▸ Declaration.assemble_lines g file)

/-! ## Derivations -/

/-- What derivations come to that draw from one source of words, each going on with the words that
the one before it left. -/
inductive DerivesInTurn (g : Grammar) (limit : Nat) :
    Words → List (Except StepLimitExceeded Derivation) → Words → Prop
  | nil (words : Words) : DerivesInTurn g limit words [] words
  | cons {words between rest : Words} {outcome : Except StepLimitExceeded Derivation}
      {outcomes : List (Except StepLimitExceeded Derivation)} :
      g.derive words limit = (outcome, between) → DerivesInTurn g limit between outcomes rest →
        DerivesInTurn g limit words (outcome :: outcomes) rest

theorem deriveMany_inTurn (g : Grammar) (limit : Nat) (words : Words) (n : Nat) :
    DerivesInTurn g limit words (deriveMany g limit words n).1 (deriveMany g limit words n).2 ∧
      (deriveMany g limit words n).1.length = n := by
  induction n generalizing words with
  | zero => exact ⟨.nil words, rfl⟩
  | succ n ih =>
    obtain ⟨hturn, hlength⟩ := ih (g.derive words limit).2
    exact ⟨.cons rfl hturn, congrArg (· + 1) hlength⟩

/-- Every derivation that ended is a leftmost derivation, so it is written on one line. -/
theorem DerivesInTurn.isSpaced_render {g : Grammar} {limit : Nat} {words rest : Words}
    {outcomes : List (Except StepLimitExceeded Derivation)}
    (h : DerivesInTurn g limit words outcomes rest) :
    ∀ e ∈ valuesOf outcomes, e.render.IsSpaced := by
  induction h with
  | nil words => exact List.forall_mem_nil _
  | @cons words between rest outcome outcomes hderive hturn ih =>
    cases outcome with
    | error refusal => exact ih
    | ok e =>
      have hleftmost := Grammar.isLeftmost_of_derive hderive
      exact List.forall_mem_cons.2 ⟨hleftmost.isSpaced_render g.wellFormed, ih⟩

/-! ## Runs -/

/-- What an output for a grammar comes to, given what its derivations came to.

The text under the banner of the grammar is read back as the grammar, and the text under the next
one is the automaton.  Under the last banner, which is there if there are derivations at all, the
derivations that ended stand in order, each on a line, and the error output tells of the others in
order, on a line each. -/
structure Shows (g : Grammar) (fromOpening : Bool)
    (outcomes : List (Except StepLimitExceeded Derivation)) (output : Output) : Prop where
  exitCode : output.exitCode = 0
  complete : IsComplete output.stdout ∧ IsComplete output.stderr
  grammar : ∀ file,
    Document.loadText file (between grammarBanner automatonBanner output.stdout) = .ok g
  automaton : between automatonBanner derivationsBanner output.stdout =
    (g.automaton fromOpening).render ++ ['\n']
  titled : (∃ line ∈ output.stdout.lines, line ++ ['\n'] = derivationsBanner) ↔ outcomes ≠ []
  derivations : below derivationsBanner output.stdout = (valuesOf outcomes).map Derivation.render
  refusals : output.stderr.lines = (errorsOf outcomes).map fun e => e.message.toList

section

variable {g : Grammar} {fromOpening : Bool}
  {outcomes : List (Except StepLimitExceeded Derivation)} {text : Text}
  (hlines : text.lines = introductionLines g fromOpening ++ derivationLines outcomes)

include hlines

theorem between_grammar :
    between grammarBanner automatonBanner text = unlines (grammarLines g) := by
  have hsections : text.lines = [] ++ grammarTitle :: (grammarLines g ++ automatonTitle ::
      (automatonLines (g.automaton fromOpening) ++ derivationLines outcomes)) := by
    simp [hlines, introductionLines]
  exact between_of_lines grammarBanner_eq automatonBanner_eq hsections List.not_mem_nil
    (title_not_mem rfl (head?_ne_of_mem_grammarLines g)) (by simp)

theorem between_automaton :
    between automatonBanner derivationsBanner text =
      unlines (automatonLines (g.automaton fromOpening)) := by
  have hsections : text.lines = (grammarTitle :: grammarLines g) ++
      automatonTitle :: (automatonLines (g.automaton fromOpening) ++ derivationLines outcomes) := by
    simp [hlines, introductionLines]
  have hend : ∀ line ∈ (derivationLines outcomes).head?, line = derivationsTitle := by
    rw [derivationLines]
    split <;> simp
  exact between_of_lines automatonBanner_eq derivationsBanner_eq hsections
    (automatonTitle_not_mem g) (title_not_mem rfl (head?_ne_of_mem_automatonLines _)) hend

theorem derivationsTitle_mem_iff : derivationsTitle ∈ text.lines ↔ outcomes ≠ [] := by
  rw [hlines, List.mem_append, or_iff_right (derivationsTitle_not_mem g fromOpening),
    derivationLines]
  split
  · next hnil => simp [hnil]
  · next hne => simp [hne]

theorem below_derivations :
    below derivationsBanner text = (valuesOf outcomes).map Derivation.render := by
  by_cases houtcomes : outcomes = []
  · have hnot : derivationsTitle ∉ text.lines := fun hmem =>
      (derivationsTitle_mem_iff hlines).1 hmem houtcomes
    rw [below_of_not_mem derivationsBanner_eq hnot, houtcomes]
    rfl
  · rw [derivationLines, if_neg houtcomes] at hlines
    exact below_of_lines derivationsBanner_eq hlines (derivationsTitle_not_mem g fromOpening)

end

/-- Lines without white space but the space are all that `Shows` asks for. -/
theorem shows_unlines (g : Grammar) (fromOpening : Bool)
    {outcomes : List (Except StepLimitExceeded Derivation)}
    (h : ∀ e ∈ valuesOf outcomes, e.render.IsSpaced) :
    Shows g fromOpening outcomes
      ⟨0, unlines (introductionLines g fromOpening ++ derivationLines outcomes),
        unlines ((errorsOf outcomes).map fun e => e.message.toList)⟩ := by
  have hprinted : ∀ line ∈ introductionLines g fromOpening ++ derivationLines outcomes,
      line.IsSpaced :=
    List.forall_mem_append.2 ⟨isSpaced_of_mem_introductionLines g fromOpening,
      isSpaced_of_mem_derivationLines h⟩
  have hrefusals : ∀ line ∈ (errorsOf outcomes).map fun e => e.message.toList,
      Text.IsSpaced line :=
    List.forall_mem_map.2 fun e _ => e.isSpaced_message
  have hlines := lines_unlines hprinted
  refine ⟨rfl, ⟨isComplete_unlines hprinted, isComplete_unlines hrefusals⟩, ?_, ?_, ?_,
    below_derivations hlines, lines_unlines hrefusals⟩
  · intro file
    rw [between_grammar hlines, loadText_grammarLines]
  · rw [between_automaton hlines, unlines_automatonLines]
  · rw [← derivationsTitle_mem_iff hlines, derivationsBanner_eq]
    simp

theorem showGrammar_eq {settings : Settings} {words rest : Words} {g : Grammar}
    {outcomes : List (Except StepLimitExceeded Derivation)}
    (hmany : deriveMany g (settings.maxSteps.getD Settings.defaultMaxSteps) words
      (settings.derivations.getD Settings.defaultDerivations) = (outcomes, rest))
    (hlength : outcomes.length = settings.derivations.getD Settings.defaultDerivations) :
    showGrammar settings words g =
      (⟨0, unlines (introductionLines g settings.fromOpening ++ derivationLines outcomes),
        unlines ((errorsOf outcomes).map fun e => e.message.toList)⟩, rest) := by
  have hamount : settings.derivations.getD Settings.defaultDerivations = 0 ↔ outcomes = [] := by
    rw [← hlength, List.length_eq_zero_iff]
  rw [unlines_append, unlines_introductionLines, unlines_derivationLines]
  simp only [showGrammar, hmany, hamount, List.append_assoc]

/-- What is printed for a grammar shows it. -/
theorem shows_showGrammar (settings : Settings) (words : Words) (g : Grammar) :
    ∃ outcomes,
      DerivesInTurn g (settings.maxSteps.getD Settings.defaultMaxSteps) words outcomes
        (showGrammar settings words g).2 ∧
      outcomes.length = settings.derivations.getD Settings.defaultDerivations ∧
      Shows g settings.fromOpening outcomes (showGrammar settings words g).1 := by
  obtain ⟨hturn, hlength⟩ := deriveMany_inTurn g
    (settings.maxSteps.getD Settings.defaultMaxSteps) words
    (settings.derivations.getD Settings.defaultDerivations)
  rw [showGrammar_eq rfl hlength]
  exact ⟨_, hturn, hlength, shows_unlines g settings.fromOpening hturn.isSpaced_render⟩

/-- A file that cannot be loaded is refused for a reason. -/
theorem loadFile_ne_error_nil (file : FileName) (content : Except ReadFault (List UInt8)) :
    Document.loadFile file content ≠ .error [] := by
  cases content with
  | ok bytes => exact (Document.outcome_load file _).ne_nil
  | error fault => simp [Document.loadFile]

/-- The program on a file that is named.

A file that is refused leaves nothing on the output, the code one and at least one error, one after
the other with a line feed behind each.  A grammar is shown, with as many derivations as were asked
for. -/
theorem run_on_file (read : FileName → Except ReadFault (List UInt8)) (words : Words)
    (file : FileName) (fromOpening : Bool) (amount limit : Option Nat) :
    match Document.loadFile file (read file),
      run read words (.show ⟨some file, fromOpening, amount, limit⟩) with
    | .error errors, (output, rest) =>
      errors ≠ [] ∧ output.exitCode = 1 ∧ output.stdout = [] ∧
        output.stderr = unlines (errors.map fun e => e.render.toList) ∧ rest = words
    | .ok g, (output, rest) =>
      ∃ outcomes, DerivesInTurn g (limit.getD Settings.defaultMaxSteps) words outcomes rest ∧
        outcomes.length = amount.getD Settings.defaultDerivations ∧
        Shows g fromOpening outcomes output := by
  cases hload : Document.loadFile file (read file) with
  | error errors =>
    have hrun : run read words (.show ⟨some file, fromOpening, amount, limit⟩) =
        (report errors, words) := by
      simp only [run, showSettings, hload]
    have hne : errors ≠ [] := fun hnil =>
      loadFile_ne_error_nil file (read file) (hnil ▸ hload)
    rw [hrun]
    exact ⟨hne, rfl, rfl, rfl, rfl⟩
  | ok g =>
    have hrun : run read words (.show ⟨some file, fromOpening, amount, limit⟩) =
        showGrammar ⟨some file, fromOpening, amount, limit⟩ words g := by
      simp only [run, showSettings, hload]
    rw [hrun]
    exact shows_showGrammar ⟨some file, fromOpening, amount, limit⟩ words g

/-- How files are read where there is one file, with a grammar in it. -/
def readNested (file : FileName) : Except ReadFault (List UInt8) :=
  if file.text = ['n'] then .ok (Text.utf8 Grammar.nested.render) else .error .noSuchFile

/-- A file that is not there leaves one error and no word taken.  The file that is there is shown,
with two derivations. -/
theorem run_on_nested :
    let missing := run readNested ⟨[0], 0⟩ (.show ⟨some ⟨['m']⟩, false, none, none⟩)
    let shown := run readNested ⟨[0, 2147483648], 0⟩ (.show ⟨some ⟨['n']⟩, true, some 2, some 3⟩)
    (missing.1.exitCode = 1 ∧ missing.1.stdout = [] ∧
      missing.1.stderr = unlines
        [(Located.inFile ⟨['m']⟩ (LoadError.unreadable .noSuchFile)).render.toList] ∧
      missing.2 = ⟨[0], 0⟩) ∧
    ∃ outcomes, DerivesInTurn Grammar.nested 3 ⟨[0, 2147483648], 0⟩ outcomes shown.2 ∧
      outcomes.length = 2 ∧ Shows Grammar.nested true outcomes shown.1 := by
  intro missing shown
  have hmissing : Document.loadFile ⟨['m']⟩ (readNested ⟨['m']⟩) =
      .error [.inFile ⟨['m']⟩ (.unreadable .noSuchFile)] := rfl
  have hshown : Document.loadFile ⟨['n']⟩ (readNested ⟨['n']⟩) = .ok Grammar.nested := by
    have hread : readNested ⟨['n']⟩ = .ok (Text.utf8 Grammar.nested.render) := rfl
    rw [hread, Document.loadFile, Document.loadBytes_utf8]
    exact eq_ok_of_toOption (by decide +kernel)
  have hrefused := run_on_file readNested ⟨[0], 0⟩ ⟨['m']⟩ false none none
  have hloaded := run_on_file readNested ⟨[0, 2147483648], 0⟩ ⟨['n']⟩ true (some 2) (some 3)
  rw [hmissing] at hrefused
  rw [hshown] at hloaded
  exact ⟨hrefused.2, hloaded⟩

end Program

end ContextFree
