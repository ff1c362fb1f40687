import ContextFree.Proofs.Document.Outline
import ContextFree.Proofs.Document.Rules

/-!
# The report on a document is exact

`Document.Outcome` says what loading a document comes to, in terms of its lines.  There are three
stages, and each of them reports all that it finds:

* `LineError`: lines that could not be read or that say nothing that can be understood;
* `Complaints`: statements that are refused, missing sections and rules that cannot be resolved;
* the faults of what the document declares (`Declares`).

`Document.load_cases` and `Document.assemble_cases` say where each stage ends, and
`Document.load_eq_iff` puts them together: a document has one outcome, and loading gives it.
`Document.loadText_reports` is the contract of the loader that follows.
-/

namespace ContextFree

/-- What was found in a file as a whole. -/
def Located.inFile {κ : Type} (file : FileName) (cause : κ) : Located κ :=
  ⟨cause, ⟨file, 0⟩⟩

namespace Document

/-! ## Lines -/

/-- What a line says. -/
def Says (lines : List (Except ReadFault Text)) (number : Nat) (s : Statement) : Prop :=
  ∃ line, HasNumber lines number (.ok line) ∧ isContent line = true ∧ Statement.ofLine line = .ok s

/-- What is wrong with a line by itself. -/
inductive LineError (file : FileName) (lines : List (Except ReadFault Text)) (number : Nat) :
    Located LoadError → Prop where
  | unreadable {fault : ReadFault} (hline : HasNumber lines number (.error fault)) :
      LineError file lines number (.inFile file (.unreadable fault))
  | noStatement {line : Text} {e : LoadError} (hline : HasNumber lines number (.ok line))
      (hcontent : isContent line = true) (herror : Statement.ofLine line = .error e) :
      LineError file lines number (.atLine file (number, e))

variable {file : FileName} {lines : List (Except ReadFault Text)} {number : Nat}

theorem readLine_eq_ok_iff {line : Except ReadFault Text} {result : Nat × Statement} :
    takesPart line = true ∧ readLine file (number, line) = .ok result ↔
      ∃ text s, line = .ok text ∧ isContent text = true ∧ Statement.ofLine text = .ok s ∧
        result = (number, s) := by
  cases line with
  | error fault => simp [readLine]
  | ok text => cases h : Statement.ofLine text <;> simp [readLine, takesPart, h, @eq_comm _ result]

theorem readLine_eq_error_iff {line : Except ReadFault Text} {error : Located LoadError} :
    takesPart line = true ∧ readLine file (number, line) = .error error ↔
      (∃ fault, line = .error fault ∧ error = .inFile file (.unreadable fault)) ∨
        ∃ text e, line = .ok text ∧ isContent text = true ∧ Statement.ofLine text = .error e ∧
          error = .atLine file (number, e) := by
  cases line with
  | error fault => simp [readLine, takesPart, Located.inFile, @eq_comm _ error]
  | ok text =>
    cases h : Statement.ofLine text <;>
      simp [readLine, takesPart, h, Located.atLine, @eq_comm _ error]

/-- The lines of a document are read up to the last one.  Only if nothing is wrong with any of
them, what they say is put together. -/
theorem load_cases (file : FileName) (lines : List (Except ReadFault Text)) :
    ∃ errors statements, ByLine (LineError file lines) errors ∧ ByLine (Says lines) statements ∧
      (errors ≠ [] ∧ load file lines = .error (errors.map Prod.snd) ∨
        errors = [] ∧ load file lines = assemble file statements) := by
  have hshown := (ByLine.numbered lines).filter takesPart
  obtain ⟨errors, herrors, herrorsOf⟩ := hshown.errorsOf (readLine file)
  obtain ⟨read, hread, hvaluesOf⟩ := hshown.valuesOf (readLine file)
  have hlineError : ByLine (LineError file lines) errors := herrors.congr fun number error => by
    simp only [and_assoc, readLine_eq_error_iff]
    constructor
    · rintro ⟨_, hline, ⟨fault, rfl, rfl⟩ | ⟨text, e, rfl, hcontent, herror, rfl⟩⟩
      · exact .unreadable hline
      · exact .noStatement hline hcontent herror
    · rintro (hline | ⟨hline, hcontent, herror⟩)
      · exact ⟨_, hline, .inl ⟨_, rfl, rfl⟩⟩
      · exact ⟨_, hline, .inr ⟨_, _, rfl, hcontent, herror, rfl⟩⟩
  have hsays : ByLine (fun number result => ∃ s, Says lines number s ∧ result = (number, s)) read :=
    hread.congr fun number result => by
      simp only [and_assoc, readLine_eq_ok_iff]
      constructor
      · rintro ⟨_, hline, text, s, rfl, hcontent, hstatement, rfl⟩
        exact ⟨s, ⟨text, hline, hcontent, hstatement⟩, rfl⟩
      · rintro ⟨s, ⟨text, hline, hcontent, hstatement⟩, rfl⟩
        exact ⟨_, hline, text, s, rfl, hcontent, hstatement, rfl⟩
  obtain ⟨statements, hstatements, hmap⟩ :=
    ByLine.exists_map (g := id) Prod.snd (fun _ => rfl) hsays
  refine ⟨errors, statements, hlineError, hstatements, ?_⟩
  unfold load
  dsimp only
  rw [herrorsOf, hvaluesOf, hmap, List.map_id]
  cases errors with
  | nil => exact .inr ⟨rfl, rfl⟩
  | cons error errors => exact .inl ⟨List.cons_ne_nil _ _, rfl⟩

/-! ## Statements -/

/-- The sections that count, if both vocabularies and the start symbol are given. -/
structure Sections (said : Nat → Statement → Prop) (inputs heads : List Symbol)
    (start : Symbol) : Prop where
  inputs : IsLast (fun n symbols => said n (.vocabulary SectionName.inputs symbols)) (some inputs)
  heads : IsLast (fun n symbols => said n (.vocabulary SectionName.heads symbols)) (some heads)
  start : IsLast (fun n symbol => said n (.start symbol)) (some start)

/-- The sections that no line gives, in their order. -/
structure Missing (said : Nat → Statement → Prop) (names : List Text) : Prop where
  sublist : names.Sublist SectionName.all
  mem_iff : ∀ name, name ∈ names ↔
    name ∈ SectionName.all ∧ ¬ Statement.Give (fun s => ∃ n, said n s) name

/-- What is wrong with a rule.  Its body is only looked at if both vocabularies and the start symbol
are given. -/
def BodyError (said : Nat → Statement → Prop) (number : Nat) (e : LoadError) : Prop :=
  ∃ inputs heads start, Sections said inputs heads start ∧
    Unresolved (inputs ++ heads) (Collected said) number e

/-- All that is wrong with what the lines of a document say. -/
inductive Complaints (file : FileName) (said : Nat → Statement → Prop) :
    List (Located LoadError) → Prop where
  | intro {refused unresolved : List (Nat × LoadError)} {missing : List Text}
      (hrefused : ByLine (Refusal said) refused) (hmissing : Missing said missing)
      (hunresolved : ByLine (BodyError said) unresolved) :
      Complaints file said
        (refused.map (.atLine file) ++
          missing.map (fun name => .inFile file (.missingSection name)) ++
          unresolved.map (.atLine file))

/-- What a document declares. -/
structure Declares (said : Nat → Statement → Prop) (d : Declaration) : Prop
    extends Sections said d.inputs d.heads d.start where
  rules : ∃ ps, ByLine (fun n p => ∃ rule, Collected said n rule ∧
    rule.Resolves (d.inputs ++ d.heads) p) ps ∧ d.rules = ps.map Prod.snd

section

variable {file : FileName} {said : Nat → Statement → Prop}

theorem Missing.unique {names others : List Text} (hnames : Missing said names)
    (hothers : Missing said others) : names = others := by
  let before := fun a b : Text => SectionName.all.idxOf a < SectionName.all.idxOf b
  have : Std.Asymm before := ⟨fun _ _ h => Nat.lt_asymm h⟩
  -- the names are in the order of their positions, so their order settles a list of some of them
  have hall : SectionName.all.Pairwise before := by decide
  have hmem : ∀ name, name ∈ names ↔ name ∈ others := fun name =>
    (hnames.mem_iff name).trans (hothers.mem_iff name).symm
  exact List.Pairwise.eq_of_mem_iff (r := before) (hall.sublist hnames.sublist)
    (hall.sublist hothers.sublist) hmem

theorem Complaints.unique {xs ys : List (Located LoadError)} (hxs : Complaints file said xs)
    (hys : Complaints file said ys) : xs = ys := by
  cases hxs with
  | intro hrefused hmissing hunresolved =>
    cases hys with
    | intro hrefused' hmissing' hunresolved' =>
      rw [hrefused.eq hrefused', hmissing.unique hmissing', hunresolved.eq hunresolved']

variable {statements : List (Nat × Statement)} {inputs heads : List Symbol} {start : Symbol}

/-- The sections that count are those of the outline. -/
theorem sections_iff (hsaid : ByLine said statements) {o : Outline} (ho : o.Sums said) :
    Sections said inputs heads start ↔
      o.inputs = some inputs ∧ o.heads = some heads ∧ o.start = some start := by
  have hvocabulary : ∀ name n a b,
      said n (.vocabulary name a) → said n (.vocabulary name b) → a = b :=
    fun name n a b ha hb => (Statement.vocabulary.inj (hsaid.unique ha hb)).2
  have hstart : ∀ n a b, said n (.start a) → said n (.start b) → a = b :=
    fun n a b ha hb => Statement.start.inj (hsaid.unique ha hb)
  constructor
  · intro h
    exact ⟨ho.inputs.unique (hvocabulary _) h.inputs, ho.heads.unique (hvocabulary _) h.heads,
      ho.start.unique hstart h.start⟩
  · rintro ⟨hinputs, hheads, hstart⟩
    exact ⟨hinputs ▸ ho.inputs, hheads ▸ ho.heads, hstart ▸ ho.start⟩

/-- There is at most one way in which the sections are given. -/
theorem Sections.unique (hsaid : ByLine said statements) (h : Sections said inputs heads start)
    {inputs' heads' : List Symbol} {start' : Symbol} (h' : Sections said inputs' heads' start') :
    inputs = inputs' ∧ heads = heads' ∧ start = start' := by
  obtain ⟨hsums, -⟩ := Outline.sums_addAll hsaid
  obtain ⟨hinputs, hheads, hstart⟩ := (sections_iff hsaid hsums).1 h
  obtain ⟨hinputs', hheads', hstart'⟩ := (sections_iff hsaid hsums).1 h'
  exact ⟨Option.some.inj (hinputs.symm.trans hinputs'), Option.some.inj (hheads.symm.trans hheads'),
    Option.some.inj (hstart.symm.trans hstart')⟩

theorem Declares.unique (hsaid : ByLine said statements) {d d' : Declaration}
    (h : Declares said d) (h' : Declares said d') : d = d' := by
  obtain ⟨inputs, heads, start, rules⟩ := d
  obtain ⟨inputs', heads', start', rules'⟩ := d'
  obtain ⟨ps, hps, hrules⟩ := h.rules
  obtain ⟨ps', hps', hrules'⟩ := h'.rules
  obtain ⟨rfl, rfl, rfl⟩ : inputs = inputs' ∧ heads = heads' ∧ start = start' :=
    h.toSections.unique hsaid h'.toSections
  obtain rfl : rules = ps.map Prod.snd := hrules
  obtain rfl : rules' = ps'.map Prod.snd := hrules'
  rw [hps.eq hps']

theorem Sections.bodyError_iff (hsaid : ByLine said statements)
    (h : Sections said inputs heads start) {number : Nat} {e : LoadError} :
    BodyError said number e ↔ Unresolved (inputs ++ heads) (Collected said) number e := by
  constructor
  · rintro ⟨inputs', heads', start', h', he⟩
    obtain ⟨rfl, rfl, -⟩ := h.unique hsaid h'
    exact he
  · intro he
    exact ⟨inputs, heads, start, h, he⟩

/-! ### Putting statements together -/

/-- Checks what a file declares.  Its faults are errors of the whole file. -/
def checkIn (file : FileName) (d : Declaration) : Except (List (Located LoadError)) Grammar :=
  d.check.mapError fun faults => faults.map fun fault => .inFile file (.invalidGrammar fault)

/-- The errors of an outline, without those in its rules. -/
def outlineErrors (file : FileName) (o : Outline) (refused : List (Nat × LoadError)) :
    List (Located LoadError) :=
  refused.map (.atLine file) ++ o.missing.map fun name => .inFile file (.missingSection name)

/-- An outline whose vocabularies and start symbol are given is checked with its rules. -/
theorem assemble_of_given {o : Outline} {refused : List (Nat × LoadError)}
    (ho : Outline.addAll {} statements = (o, refused))
    (hgiven : o.inputs = some inputs ∧ o.heads = some heads ∧ o.start = some start) :
    assemble file statements =
      match outlineErrors file o refused, declare file inputs heads start o.rules with
      | [], .ok d => checkIn file d
      | errors, .ok _ => .error errors
      | errors, .error more => .error (errors ++ more) := by
  unfold assemble
  simp only [ho, hgiven]
  rfl

theorem assemble_of_not_given {o : Outline} {refused : List (Nat × LoadError)}
    (ho : Outline.addAll {} statements = (o, refused))
    (hgiven : ¬ ∃ inputs heads start,
      o.inputs = some inputs ∧ o.heads = some heads ∧ o.start = some start) :
    assemble file statements = .error (outlineErrors file o refused) ∧
      outlineErrors file o refused ≠ [] := by
  unfold assemble
  obtain ⟨inputs, heads, start, announced, rules⟩ := o
  rw [ho]
  cases inputs with
  | none => exact ⟨rfl, by simp [outlineErrors, Outline.missing]⟩
  | some inputs =>
    cases heads with
    | none => exact ⟨rfl, by simp [outlineErrors, Outline.missing]⟩
    | some heads =>
      cases start with
      | none => exact ⟨rfl, by simp [outlineErrors, Outline.missing]⟩
      | some start => exact absurd ⟨inputs, heads, start, rfl, rfl, rfl⟩ hgiven

/-- What is put together from the statements of a document, unless something is wrong with them. -/
theorem assemble_cases (file : FileName) (hsaid : ByLine said statements) :
    ∃ errors, Complaints file said errors ∧
      (errors ≠ [] ∧ assemble file statements = .error errors ∨
        errors = [] ∧ ∃ d, Declares said d ∧ assemble file statements = checkIn file d) := by
  obtain ⟨hsums, hrefused⟩ := Outline.sums_addAll hsaid
  rcases hadd : Outline.addAll {} statements with ⟨o, refused⟩
  rw [hadd] at hsums hrefused
  have hmissing : Missing said o.missing := ⟨o.missing_sublist, fun _ => hsums.mem_missing_iff⟩
  by_cases hgiven : ∃ inputs heads start,
      o.inputs = some inputs ∧ o.heads = some heads ∧ o.start = some start
  · obtain ⟨inputs, heads, start, hgiven⟩ := hgiven
    have hsections := (sections_iff hsaid hsums).2 hgiven
    obtain ⟨unresolved, hunresolved, hdeclare⟩ := declare_cases file inputs heads start hsums.rules
    have hbody := hunresolved.congr fun n e => (hsections.bodyError_iff hsaid).symm
    have hcomplaints : Complaints file said
        (outlineErrors file o refused ++ unresolved.map (.atLine file)) :=
      .intro hrefused hmissing hbody
    refine ⟨_, hcomplaints, ?_⟩
    rw [assemble_of_given hadd hgiven]
    rcases hdeclare with ⟨hne, hdeclare⟩ | ⟨rfl, ps, hps, hdeclare⟩
    · rw [hdeclare]
      refine .inl ⟨by simp [hne], ?_⟩
      cases outlineErrors file o refused <;> rfl
    · rw [hdeclare, List.map_nil, List.append_nil]
      cases outlineErrors file o refused with
      | nil => exact .inr ⟨rfl, _, ⟨hsections, ps, hps, rfl⟩, rfl⟩
      | cons error errors => exact .inl ⟨List.cons_ne_nil _ _, rfl⟩
  · -- no body is looked at, but then a section is missing, so there is something to report
    have hbody : ByLine (BodyError said) [] := ByLine.nil fun n e he => by
      obtain ⟨inputs, heads, start, hsections, -⟩ := he
      exact hgiven ⟨inputs, heads, start, (sections_iff hsaid hsums).1 hsections⟩
    refine ⟨_, .intro hrefused hmissing hbody, .inl ?_⟩
    rw [List.map_nil, List.append_nil]
    exact (assemble_of_not_given hadd hgiven).symm

end

/-! ## Outcomes -/

/-- A document declares something if nothing is wrong with its lines and with what they say. -/
structure Fits (file : FileName) (lines : List (Except ReadFault Text)) (d : Declaration) :
    Prop where
  read : ∀ n error, ¬ LineError file lines n error
  complete : Complaints file (Says lines) []
  declares : Declares (Says lines) d

/-- What loading a document comes to. -/
inductive Outcome (file : FileName) (lines : List (Except ReadFault Text)) :
    Except (List (Located LoadError)) Grammar → Prop where
  | unread {errors : List (Nat × Located LoadError)}
      (herrors : ByLine (LineError file lines) errors) (hne : errors ≠ []) :
      Outcome file lines (.error (errors.map Prod.snd))
  | unfit {errors : List (Located LoadError)} (hread : ∀ n error, ¬ LineError file lines n error)
      (herrors : Complaints file (Says lines) errors) (hne : errors ≠ []) :
      Outcome file lines (.error errors)
  | faulty {d : Declaration} {faults : List Fault} (hfits : Fits file lines d)
      (hcheck : d.check = .error faults) :
      Outcome file lines (.error (faults.map fun fault => .inFile file (.invalidGrammar fault)))
  | accepted {d : Declaration} {g : Grammar} (hfits : Fits file lines d)
      (hcheck : d.check = .ok g) : Outcome file lines (.ok g)

section

variable {file : FileName} {lines : List (Except ReadFault Text)}

theorem outcome_load (file : FileName) (lines : List (Except ReadFault Text)) :
    Outcome file lines (load file lines) := by
  obtain ⟨errors, statements, herrors, hsaid, hload⟩ := load_cases file lines
  rcases hload with ⟨hne, hload⟩ | ⟨rfl, hload⟩
  · rw [hload]
    exact .unread herrors hne
  · have hread := herrors.eq_nil_iff.1 rfl
    obtain ⟨complaints, hcomplaints, hassemble⟩ := assemble_cases file hsaid
    rcases hassemble with ⟨hne, hassemble⟩ | ⟨rfl, d, hd, hassemble⟩
    · rw [hload, hassemble]
      exact .unfit hread hcomplaints hne
    · have hfits : Fits file lines d := ⟨hread, hcomplaints, hd⟩
      rw [hload, hassemble, checkIn]
      cases hcheck : d.check with
      | error faults => exact .faulty hfits hcheck
      | ok g => exact .accepted hfits hcheck

/-- If nothing is wrong with the lines by themselves, then what they say is put together. -/
theorem load_of_read (hread : ∀ n error, ¬ LineError file lines n error) :
    ∃ statements, ByLine (Says lines) statements ∧
      load file lines = assemble file statements := by
  obtain ⟨errors, statements, herrors, hsaid, hload⟩ := load_cases file lines
  have hnil := herrors.eq_nil_iff.2 hread
  rcases hload with ⟨hne, -⟩ | ⟨-, hload⟩
  · exact absurd hnil hne
  · exact ⟨statements, hsaid, hload⟩

/-- If nothing is wrong with what the lines say either, then the declaration is checked. -/
theorem Fits.load_eq {d : Declaration} (h : Fits file lines d) :
    load file lines = checkIn file d := by
  obtain ⟨statements, hsaid, hload⟩ := load_of_read h.read
  obtain ⟨complaints, hcomplaints, hassemble⟩ := assemble_cases file hsaid
  rcases hassemble with ⟨hne, -⟩ | ⟨-, d', hd', hassemble⟩
  · exact absurd (hcomplaints.unique h.complete) hne
  · rw [hload, hassemble, hd'.unique hsaid h.declares]

/-- The outcome of loading a document is settled by its lines. -/
theorem load_eq_iff {result : Except (List (Located LoadError)) Grammar} :
    load file lines = result ↔ Outcome file lines result := by
  constructor
  · rintro rfl
    exact outcome_load file lines
  · intro h
    cases h with
    | unread herrors hne =>
      obtain ⟨errors, statements, herrors', -, hload⟩ := load_cases file lines
      obtain rfl := herrors'.eq herrors
      rcases hload with ⟨-, hload⟩ | ⟨hnil, -⟩
      · exact hload
      · exact absurd hnil hne
    | unfit hread herrors hne =>
      obtain ⟨statements, hsaid, hload⟩ := load_of_read hread
      obtain ⟨complaints, hcomplaints, hassemble⟩ := assemble_cases file hsaid
      obtain rfl := hcomplaints.unique herrors
      rcases hassemble with ⟨-, hassemble⟩ | ⟨hnil, -⟩
      · rw [hload, hassemble]
      · exact absurd hnil hne
    | faulty hfits hcheck =>
      rw [hfits.load_eq, checkIn, hcheck]
      rfl
    | accepted hfits hcheck =>
      rw [hfits.load_eq, checkIn, hcheck]
      rfl

/-- There is no refusal without an error. -/
theorem Outcome.ne_nil {result : Except (List (Located LoadError)) Grammar}
    (h : Outcome file lines result) : result ≠ .error [] := by
  intro hresult
  cases h with
  | unread herrors hne => exact hne (List.map_eq_nil_iff.1 (Except.error.inj hresult))
  | unfit hread herrors hne => exact hne (Except.error.inj hresult)
  | faulty hfits hcheck =>
    have hfaults := (Declaration.check_eq_error_iff.1 hcheck).2
    exact hfaults (List.map_eq_nil_iff.1 (Except.error.inj hresult))
  | accepted => simp at hresult

end

/-- What is reported about a text is exactly what is wrong with it, stage by stage, and a text that
is refused is never refused without an error.  The lines of a text can always be read. -/
theorem loadText_reports (file : FileName) (text : Text) :
    (∀ result, loadText file text = result ↔ Outcome file (text.lines.map .ok) result) ∧
      loadText file text ≠ .error [] :=
  ⟨fun _ => load_eq_iff, (outcome_load file _).ne_nil⟩

end Document

end ContextFree
