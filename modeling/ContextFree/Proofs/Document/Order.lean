import ContextFree.Proofs.Document.Layout

/-!
# The order of sections

The sections of a document may stand in any order, and the vocabularies and the start symbol even
among the rules.  Only the rules have an order of their own, and come after the section that
announces them.

* Statements.  `Statement.Orderly` says that nothing is wrong with a list of statements, in a way
  that hardly mentions their order: `Outline.addAll_snd_eq_nil_iff` is the link to outlines.
  `Statement.Reordered` is a change of the order, and `Statement.Reordered.orderly` says that it
  leaves the statements orderly.
* Outlines.  A section of an orderly list is given by the one statement that mentions it
  (`Outline.eq_some_iff_mem`), wherever that stands, and all rules are collected
  (`Outline.map_snd_rules`).  So the outlines of two such lists are alike
  (`Outline.alike_of_reordered`).
* Texts.  `Document.Reordered` is a change of the order of the lines of a text that say something.
  `Document.loadText_cases` leads from texts to statements, and `Document.loadText_reordered` is the
  main result.
-/

namespace ContextFree

/-! ## Statements -/

namespace Statement

/-- Statements of which none is refused: the sections are known, each of them is given once, and
rules come after they were announced. -/
structure Orderly (ss : List Statement) : Prop where
  known : ∀ name symbols, .vocabulary name symbols ∈ ss →
    name = SectionName.inputs ∨ name = SectionName.heads
  once : ss.Pairwise fun s t => ∀ name, s.section? = some name → t.section? ≠ some name
  announced : (∃ r, .rule r ∈ ss) → .productions ∈ ss
  order : ss.Pairwise fun s t => (∃ r, s = .rule r) → t ≠ .productions

variable {ss ts : List Statement} {s : Statement}

theorem orderly_nil : Orderly [] where
  known := by simp
  once := .nil
  announced := by simp
  order := .nil

/-- The last statement of an orderly list is not refused after the others. -/
theorem Orderly.of_concat (h : Orderly (ss ++ [s])) :
    Orderly ss ∧ ∀ e, ¬ s.Refused (· ∈ ss) e := by
  have hlast : s ∈ ss ++ [s] := List.mem_append_right _ List.mem_cons_self
  obtain ⟨honce, -, hapart⟩ := List.pairwise_append.1 h.once
  obtain ⟨horder, -, hafter⟩ := List.pairwise_append.1 h.order
  have hrest : ∀ {t}, t ∈ ss ++ [s] → t ≠ s → t ∈ ss := by
    intro t ht hne
    rcases List.mem_append.1 ht with ht | ht
    · exact ht
    · exact absurd (List.mem_singleton.1 ht) hne
  refine ⟨⟨fun name symbols hmem => ?_, honce, ?_, horder⟩, fun e he => ?_⟩
  · exact h.known name symbols (List.mem_append_left _ hmem)
  · rintro ⟨r, hr⟩
    refine hrest (h.announced ⟨r, List.mem_append_left _ hr⟩) fun hs => ?_
    exact hafter _ hr _ List.mem_cons_self ⟨r, rfl⟩ hs.symm
  · cases he with
    | unknown hname => exact hname (h.known _ _ hlast)
    | repeated hsection hbefore =>
      obtain ⟨t, ht, hsection'⟩ := hbefore
      exact hapart t ht s List.mem_cons_self _ hsection' hsection
    | @early r hbefore => exact hbefore (hrest (h.announced ⟨r, hlast⟩) (by simp))

/-- A statement that is not refused can be put at the end of an orderly list. -/
theorem Orderly.concat (h : Orderly ss) (hs : ∀ e, ¬ s.Refused (· ∈ ss) e) :
    Orderly (ss ++ [s]) where
  known name symbols hmem := by
    rcases List.mem_append.1 hmem with hmem | hmem
    · exact h.known name symbols hmem
    · obtain rfl := List.mem_singleton.1 hmem
      exact Classical.byContradiction fun hname => hs _ (.unknown hname)
  once := by
    refine List.pairwise_append.2 ⟨h.once, List.pairwise_singleton _ _, fun t ht s' hs' => ?_⟩
    obtain rfl := List.mem_singleton.1 hs'
    exact fun name ht' hs' => hs _ (.repeated hs' ⟨t, ht, ht'⟩)
  announced := by
    rintro ⟨r, hr⟩
    refine List.mem_append_left _ ?_
    rcases List.mem_append.1 hr with hr | hr
    · exact h.announced ⟨r, hr⟩
    · obtain rfl := List.mem_singleton.1 hr
      exact Classical.byContradiction fun hbefore => hs _ (.early hbefore)
  order := by
    refine List.pairwise_append.2 ⟨h.order, List.pairwise_singleton _ _, fun t ht s' hs' => ?_⟩
    obtain rfl := List.mem_singleton.1 hs'
    rintro ⟨r, rfl⟩ rfl
    -- a rule before means that the rules were announced already
    exact hs _ (.repeated rfl ⟨.productions, h.announced ⟨r, ht⟩, rfl⟩)

/-- An orderly list gives each section once. -/
theorem Orderly.eq_of_section? (h : Orderly ss) {t : Statement} (hs : s ∈ ss) (ht : t ∈ ss)
    {name : Text} (hs' : s.section? = some name) (ht' : t.section? = some name) : s = t := by
  let apart := fun s t : Statement => ∀ name, s.section? = some name → t.section? ≠ some name
  have : Std.Symm apart := ⟨fun _ _ hst name ht hs => hst name hs ht⟩
  have honce : ss.Pairwise apart := h.once
  exact Classical.byContradiction fun hne => honce.forall hs ht hne name hs' ht'

/-! ### Changes of the order -/

/-- The same statements in another order, in which the rules follow each other as before and come
after they are announced. -/
structure Reordered (ss ts : List Statement) : Prop where
  perm : ss.Perm ts
  rules : ts.filterMap rule? = ss.filterMap rule?
  order : ts.Pairwise fun s t => (∃ r, s = .rule r) → t ≠ .productions

theorem Reordered.orderly (h : Reordered ss ts) (hss : Orderly ss) : Orderly ts where
  known name symbols hmem := hss.known name symbols (h.perm.mem_iff.2 hmem)
  once := by
    refine (h.perm.pairwise_iff ?_).1 hss.once
    exact fun hst name ht hs => hst name hs ht
  announced := by
    rintro ⟨r, hr⟩
    exact h.perm.mem_iff.1 (hss.announced ⟨r, h.perm.mem_iff.2 hr⟩)
  order := h.order

end Statement

/-! ## Outlines -/

/-- If nothing else is given, then what is given is what counts. -/
theorem IsLast.eq_some_iff {α : Type} {given : Nat → α → Prop} {x : Option α} (h : IsLast given x)
    (hgiven : ∀ n m a b, given n a → given m b → a = b) {a : α} :
    x = some a ↔ ∃ number, given number a := by
  constructor
  · rintro rfl
    obtain ⟨number, ha, -⟩ := h
    exact ⟨number, ha⟩
  · rintro ⟨number, ha⟩
    obtain ⟨b, rfl⟩ := Option.isSome_iff_exists.1 (h.isSome_iff.2 ⟨number, a, ha⟩)
    obtain ⟨n, hb, -⟩ := h
    exact congrArg some (hgiven n number b a hb ha)

namespace Outline

open Document

variable {said : Nat → Statement → Prop} {ss : List (Nat × Statement)} {o : Outline}

/-- Nothing is wrong on the way exactly if the statements are in order. -/
theorem addAll_snd_eq_nil_iff (h : ByLine said ss) :
    (addAll {} ss).2 = [] ↔ Statement.Orderly (ss.map Prod.snd) := by
  induction ss using List.reverseRecOn generalizing said with
  | nil => exact ⟨fun _ => Statement.orderly_nil, fun _ => rfl⟩
  | append_singleton ss last ih =>
    obtain ⟨number, s⟩ := last
    obtain ⟨hss, -, rfl⟩ := h.of_concat
    obtain ⟨hsums, -⟩ := sums_addAll hss
    have hbefore : (fun t => ∃ n, (n, t) ∈ ss) = (· ∈ ss.map Prod.snd) := by
      funext t
      simp
    have hadd : ((addAll {} ss).1.add number s).2 = none ↔
        ∀ e, ¬ s.Refused (· ∈ ss.map Prod.snd) e := by
      rw [Option.eq_none_iff_forall_ne_some]
      simp only [ne_eq, hsums.add_snd_eq_some_iff, hbefore]
    have hnil : (addAll {} (ss ++ [(number, s)])).2 = [] ↔
        (addAll {} ss).2 = [] ∧ ((addAll {} ss).1.add number s).2 = none := by
      simp [addAll_concat]
    rw [hnil, ih hss, hadd, List.map_append]
    exact ⟨fun ⟨hss, hs⟩ => hss.concat hs, fun h => h.of_concat⟩

variable {said' : Nat → Statement → Prop} {ts : List (Nat × Statement)}

/-- A section of an orderly document is given by one statement. -/
theorem eq_some_iff_mem {α : Type} {f : α → Statement} (hf : Function.Injective f) {name : Text}
    (hsection : ∀ a, (f a).section? = some name) (h : ByLine said ss)
    (hss : Statement.Orderly (ss.map Prod.snd)) {x : Option α}
    (hx : IsLast (fun n a => said n (f a)) x) {a : α} : x = some a ↔ f a ∈ ss.map Prod.snd := by
  have hsaid : ∀ {n s}, said n s → s ∈ ss.map Prod.snd := fun {n s} hs =>
    List.mem_map.2 ⟨(n, s), (h.mem_iff n s).2 hs, rfl⟩
  have hgiven : ∀ n m a b, said n (f a) → said m (f b) → a = b := fun n m a b ha hb =>
    hf (hss.eq_of_section? (hsaid ha) (hsaid hb) (hsection a) (hsection b))
  rw [hx.eq_some_iff hgiven]
  simp [← h.mem_iff]

/-- A section is the same in another order. -/
theorem section_eq {α : Type} {f : α → Statement} (hf : Function.Injective f) {name : Text}
    (hsection : ∀ a, (f a).section? = some name) (hss : ByLine said ss) (hts : ByLine said' ts)
    (hin : Statement.Orderly (ss.map Prod.snd))
    (h : Statement.Reordered (ss.map Prod.snd) (ts.map Prod.snd)) {x y : Option α}
    (hx : IsLast (fun n a => said n (f a)) x) (hy : IsLast (fun n a => said' n (f a)) y) :
    x = y := by
  refine Option.ext fun a => ?_
  rw [eq_some_iff_mem hf hsection hss hin hx, eq_some_iff_mem hf hsection hts (h.orderly hin) hy]
  exact h.perm.mem_iff

/-- If nothing is wrong on the way, then all rules are collected. -/
theorem map_snd_rules (h : ByLine said ss) (hnone : (addAll {} ss).2 = []) :
    (addAll {} ss).1.rules.map Prod.snd = (ss.map Prod.snd).filterMap Statement.rule? := by
  obtain ⟨hsums, hrefused⟩ := sums_addAll h
  obtain ⟨rules, hrules, hmap⟩ := h.filterMap fun entry => entry.2.rule?
  have hcollected : ByLine (Collected said) rules := hrules.congr fun n r => by
    simp only [Statement.rule?_eq_some_iff]
    constructor
    · rintro ⟨_, hsaid, rfl⟩
      refine ⟨hsaid, Classical.byContradiction fun hbefore => ?_⟩
      exact hrefused.eq_nil_iff.1 hnone n _ ⟨_, hsaid, .early hbefore⟩
    · rintro ⟨hsaid, -⟩
      exact ⟨_, hsaid, rfl⟩
  rw [hsums.rules.eq hcollected, ← hmap, List.filterMap_map]
  rfl

/-- Statements in another order have the same outline, up to the numbers of the rules. -/
theorem alike_of_reordered (hss : ByLine said ss) (hts : ByLine said' ts)
    (hnone : (addAll {} ss).2 = [])
    (h : Statement.Reordered (ss.map Prod.snd) (ts.map Prod.snd)) :
    (addAll {} ss).1.Alike (fun _ _ => True) (addAll {} ts).1 ∧ (addAll {} ts).2 = [] := by
  have hin := (addAll_snd_eq_nil_iff hss).1 hnone
  have hnone' := (addAll_snd_eq_nil_iff hts).2 (h.orderly hin)
  obtain ⟨hsums, -⟩ := sums_addAll hss
  obtain ⟨hsums', -⟩ := sums_addAll hts
  have hvocabulary : ∀ name, Function.Injective (Statement.vocabulary name) := fun name _ _ heq =>
    (Statement.vocabulary.inj heq).2
  have hstart : Function.Injective Statement.start := fun _ _ => Statement.start.inj
  refine ⟨⟨?_, ?_, ?_, ?_, ?_⟩, hnone'⟩
  · exact section_eq (hvocabulary _) (fun _ => if_pos (.inl rfl)) hss hts hin h hsums.inputs
      hsums'.inputs
  · exact section_eq (hvocabulary _) (fun _ => if_pos (.inr rfl)) hss hts hin h hsums.heads
      hsums'.heads
  · exact section_eq hstart (fun _ => rfl) hss hts hin h hsums.start hsums'.start
  · rw [Bool.eq_iff_iff, hsums.announced, hsums'.announced]
    have hmem := h.perm.mem_iff (a := Statement.productions)
    simpa [← hss.mem_iff, ← hts.mem_iff] using hmem
  · have hrules : (addAll {} ss).1.rules.map Prod.snd = (addAll {} ts).1.rules.map Prod.snd := by
      rw [map_snd_rules hss hnone, map_snd_rules hts hnone', h.rules]
    rw [← List.forall₂_eq_eq_eq, List.forall₂_map_left_iff, List.forall₂_map_right_iff] at hrules
    exact hrules.imp fun _ _ heq => ⟨trivial, heq⟩

end Outline

/-! ## Texts -/

namespace Document

/-- The lines of a text that say something, in their order. -/
def contents (text : Text) : List Text := text.lines.filter isContent

/-- Whether a line states a rule. -/
def statesRule (line : Text) : Bool :=
  match Statement.ofLine line with
  | .ok (.rule _) => true
  | _ => false

/-- Whether a line announces the rules. -/
def announcesRules (line : Text) : Bool :=
  match Statement.ofLine line with
  | .ok .productions => true
  | _ => false

/-- The lines of a text that say something, in another order: the rules follow each other as before,
and come after the line that announces them. -/
structure Reordered (text other : Text) : Prop where
  perm : (contents text).Perm (contents other)
  rules : (contents other).filter statesRule = (contents text).filter statesRule
  order : (contents other).Pairwise fun line later =>
    statesRule line = true → announcesRules later = false

variable {file : FileName} {text other : Text}

/-- What a line says, if it can be understood. -/
def saying? (line : Text) : Option Statement := (Statement.ofLine line).toOption

theorem saying?_eq_some_iff {line : Text} {s : Statement} :
    saying? line = some s ↔ Statement.ofLine line = .ok s := by
  cases h : Statement.ofLine line <;> simp [saying?, h, Except.toOption]

theorem saying?_eq_none_iff {line : Text} :
    saying? line = none ↔ ∃ e, Statement.ofLine line = .error e := by
  cases h : Statement.ofLine line <;> simp [saying?, h, Except.toOption]

theorem statesRule_iff {line : Text} :
    statesRule line = true ↔ ∃ r, saying? line = some (.rule r) := by
  simp only [saying?_eq_some_iff, statesRule]
  split
  · next r hr => simp [hr]
  · next hnot => simpa using fun r hr => hnot r hr

theorem announcesRules_iff {line : Text} :
    announcesRules line = true ↔ saying? line = some .productions := by
  simp only [saying?_eq_some_iff, announcesRules]
  split
  · next h => simp [h]
  · next hnot => simpa using hnot

/-- The content lines of a text are found line by line. -/
theorem byLine_contentLines (text : Text) :
    ByLine (fun n line => HasNumber text.lines n line ∧ isContent line = true)
      (contentLines text) :=
  (ByLine.numbered text.lines).filter isContent

theorem mem_contents_iff {line : Text} :
    line ∈ contents text ↔ ∃ n, HasNumber text.lines n line ∧ isContent line = true := by
  simp only [contents, ← map_snd_contentLines, List.mem_map, Prod.exists, exists_eq_right,
    (byLine_contentLines text).mem_iff]

theorem says_iff {n : Nat} {s : Statement} :
    Says (text.lines.map .ok) n s ↔
      ∃ line, (HasNumber text.lines n line ∧ isContent line = true) ∧ saying? line = some s := by
  simp only [Says, HasNumber.map_iff, Except.ok.injEq, exists_eq_right, saying?_eq_some_iff,
    and_assoc]

theorem lineError_iff {n : Nat} {error : Located LoadError} :
    LineError file (text.lines.map .ok) n error ↔
      ∃ line, (HasNumber text.lines n line ∧ isContent line = true) ∧
        ∃ e, Statement.ofLine line = .error e ∧ error = .atLine file (n, e) := by
  constructor
  · intro h
    cases h with
    | unreadable hline =>
      -- the lines of a text can always be read
      obtain ⟨line, -, hunreadable⟩ := HasNumber.map_iff.1 hline
      simp at hunreadable
    | @noStatement line e hline hcontent herror =>
      obtain ⟨_, hnumber, heq⟩ := HasNumber.map_iff.1 hline
      rw [Except.ok.inj heq] at hnumber
      exact ⟨line, ⟨hnumber, hcontent⟩, e, herror, rfl⟩
  · rintro ⟨line, ⟨hnumber, hcontent⟩, e, herror, rfl⟩
    exact .noStatement (HasNumber.map_iff.2 ⟨line, hnumber, rfl⟩) hcontent herror

/-- What the lines of a text say, in their order. -/
theorem map_snd_of_says {ss : List (Nat × Statement)} (h : ByLine (Says (text.lines.map .ok)) ss) :
    ss.map Prod.snd = (contents text).filterMap saying? := by
  obtain ⟨said, hsaid, hmap⟩ := (byLine_contentLines text).filterMap fun entry => saying? entry.2
  have heq : ss = said := h.eq (hsaid.congr fun n s => says_iff.symm)
  rw [heq, ← hmap, contents, ← map_snd_contentLines, List.filterMap_map]
  rfl

/-- A text is loaded from what its content lines say, unless one of them cannot be understood. -/
theorem loadText_cases (file : FileName) (text : Text) :
    (∃ errors line, loadText file text = .error errors ∧ line ∈ contents text ∧
        saying? line = none) ∨
      ∃ ss, ByLine (Says (text.lines.map .ok)) ss ∧ (∀ line ∈ contents text, saying? line ≠ none) ∧
        loadText file text = assemble file ss := by
  obtain ⟨errors, ss, herrors, hsaid, hload⟩ := load_cases file (text.lines.map .ok)
  rcases hload with ⟨hne, hload⟩ | ⟨hnil, hload⟩
  · obtain ⟨⟨number, error⟩, hmem⟩ := List.exists_mem_of_ne_nil errors hne
    obtain ⟨line, hline, e, he, -⟩ := lineError_iff.1 ((herrors.mem_iff number error).1 hmem)
    have hnone := saying?_eq_none_iff.2 ⟨e, he⟩
    exact .inl ⟨_, line, hload, mem_contents_iff.2 ⟨number, hline⟩, hnone⟩
  · refine .inr ⟨ss, hsaid, fun line hline hnone => ?_, hload⟩
    obtain ⟨number, hline⟩ := mem_contents_iff.1 hline
    obtain ⟨e, he⟩ := saying?_eq_none_iff.1 hnone
    exact herrors.eq_nil_iff.1 hnil number _ (lineError_iff.2 ⟨line, hline, e, he, rfl⟩)

/-- If statements are put together to a grammar, then none of them is refused. -/
theorem addAll_snd_of_assemble {ss : List (Nat × Statement)} {g : Grammar}
    (h : assemble file ss = .ok g) : (Outline.addAll {} ss).2 = [] := by
  rcases hadd : Outline.addAll {} ss with ⟨o, refused⟩
  by_cases hgiven : ∃ inputs heads start,
      o.inputs = some inputs ∧ o.heads = some heads ∧ o.start = some start
  · obtain ⟨inputs, heads, start, hgiven⟩ := hgiven
    rw [assemble_of_given hadd hgiven] at h
    cases refused with
    | nil => rfl
    | cons error refused =>
      -- an error that is there already is reported, whatever the rules are
      cases hdeclare : declare file inputs heads start o.rules <;>
        simp [outlineErrors, hdeclare] at h
  · rw [(assemble_of_not_given hadd hgiven).1] at h
    simp at h

/-- The rules of a text are what its lines that state a rule say. -/
theorem filterMap_rule? (lines : List Text) :
    (lines.filterMap saying?).filterMap Statement.rule? =
      (lines.filter statesRule).filterMap fun line => (saying? line).bind Statement.rule? := by
  rw [List.filterMap_filterMap, List.filterMap_filter]
  apply List.filterMap_congr
  intro line _
  split
  · rfl
  · next hrule =>
    rw [Option.eq_none_iff_forall_ne_some]
    intro r hr
    obtain ⟨s, hs, hr⟩ := Option.bind_eq_some_iff.1 hr
    obtain rfl := Statement.rule?_eq_some_iff.1 hr
    exact hrule (statesRule_iff.2 ⟨r, hs⟩)

/-- Lines in another order state the same in another order. -/
theorem Reordered.statements (h : Reordered text other) :
    Statement.Reordered ((contents text).filterMap saying?)
      ((contents other).filterMap saying?) where
  perm := h.perm.filterMap saying?
  rules := by
    rw [filterMap_rule?, filterMap_rule?, h.rules]
  order := by
    refine h.order.filterMap _ fun line later horder s hs t ht => ?_
    rintro ⟨r, rfl⟩ rfl
    have hrule : statesRule line = true := statesRule_iff.2 ⟨r, hs⟩
    have hannounces : announcesRules later = true := announcesRules_iff.2 ht
    rw [horder hrule] at hannounces
    exact Bool.false_ne_true hannounces

/-- The order of the sections does not matter, as long as the rules keep theirs and come after they
are announced: a text that is loaded as a grammar is loaded as the same one in any other order. -/
theorem loadText_reordered (file file' : FileName) {g : Grammar}
    (hload : loadText file text = .ok g) (h : Reordered text other) :
    loadText file' other = .ok g := by
  rcases loadText_cases file text with ⟨errors, -, herror, -⟩ | ⟨ss, hss, hread, hassemble⟩
  · simp [herror] at hload
  rcases loadText_cases file' other with
    ⟨-, line, -, hline, hnone⟩ | ⟨ts, hts, -, hassemble'⟩
  · exact absurd hnone (hread line (h.perm.mem_iff.2 hline))
  rw [hassemble] at hload
  have hreordered := h.statements
  rw [← map_snd_of_says hss, ← map_snd_of_says hts] at hreordered
  have hrefused := addAll_snd_of_assemble hload
  obtain ⟨halike, hrefused'⟩ := Outline.alike_of_reordered hss hts hrefused hreordered
  have hagree := agree_assemble_of_alike file file' halike (by rw [hrefused, hrefused']; exact .nil)
  rw [hload] at hagree
  rw [hassemble']
  generalize assemble file' ts = result at hagree ⊢
  cases hagree with
  | ok heq => rw [heq]

/-- The document `usual` with the rules first and the vocabularies around the last one. -/
def rulesFirst : Text :=
  "P:\nS -> ab\nVt = \x7b a, b \x7d\nS -> aSb\n\nVh = \x7b S \x7d\nstart: S\n".toList

theorem loadText_rulesFirst :
    loadText ⟨['u']⟩ usual = .ok matching ∧ Reordered usual rulesFirst ∧
      loadText ⟨['r']⟩ rulesFirst = .ok matching := by
  have hreordered : Reordered usual rulesFirst :=
    ⟨by decide +kernel, by decide +kernel, by decide +kernel⟩
  exact ⟨loadText_usual, hreordered, loadText_reordered _ _ loadText_usual hreordered⟩

end Document

end ContextFree
