import ContextFree.Grammar.Fault
import ContextFree.Proofs.Vocabulary.Decodable

/-!
# What a declaration without faults promises

`Declaration.faults` is a list of findings.  `Declaration.WellFormed` says the same as one promise
a field, in words that mention no finding, and `faults_eq_nil_iff_wellFormed` is the bridge.  Every
grammar is well formed (`Grammar.wellFormed`), so proofs about grammars start here and do not look
at faults again.
-/

namespace ContextFree

/-! ## Single symbols -/

namespace Symbol

theorem repeatsAfter_eq_nil_iff {seen symbols : List Symbol} :
    repeatsAfter seen symbols = [] ↔ symbols.Nodup ∧ ∀ s ∈ symbols, s ∉ seen := by
  induction symbols generalizing seen with
  | nil => simp [repeatsAfter]
  | cons s symbols ih =>
    rw [repeatsAfter]
    split
    · next hs => simp [hs]
    · next hs =>
      rw [ih, List.nodup_cons]
      constructor
      · intro h
        obtain ⟨hnodup, hnew⟩ := h
        refine ⟨⟨fun hmem => hnew s hmem List.mem_cons_self, hnodup⟩, ?_⟩
        exact List.forall_mem_cons.2
          ⟨hs, fun t ht hseen => hnew t ht (List.mem_cons_of_mem s hseen)⟩
      · intro h
        obtain ⟨⟨hfirst, hnodup⟩, hnew⟩ := h
        refine ⟨hnodup, fun t ht hmem => ?_⟩
        rcases List.mem_cons.1 hmem with heq | hseen
        · exact hfirst (heq ▸ ht)
        · exact hnew t (List.mem_cons_of_mem s ht) hseen

/-- A symbol is well made if it has letters, and none of them separates words. -/
theorem isMalformed_eq_false_iff {s : Symbol} :
    s.isMalformed = false ↔
      s.text ≠ [] ∧ ∀ c ∈ s.text, isBlank c = false ∧ c ∉ punctuation := by
  simp [isMalformed]

/-- No punctuation occurs in a well-made symbol. -/
theorem not_mem_of_mem_punctuation {s : Symbol} (hs : s.isMalformed = false) {c : Char}
    (hc : c ∈ punctuation) : c ∉ s.text := by
  intro hmem
  exact ((isMalformed_eq_false_iff.1 hs).2 c hmem).2 hc

end Symbol

/-! ## Declarations -/

/-- What a declaration without faults promises. -/
structure Declaration.WellFormed (d : Declaration) : Prop where
  /-- No symbol is declared twice. -/
  nodup : d.vocabulary.Nodup
  /-- No declared symbol is reserved for the automaton. -/
  not_reserved : ∀ s ∈ d.vocabulary, s ∉ Symbol.reserved
  /-- Every declared symbol can be written as a word. -/
  not_malformed : ∀ s ∈ d.vocabulary, s.isMalformed = false
  /-- Sequences of declared symbols and bottom markers can be told apart when written. -/
  unambiguous : (d.vocabulary ++ [Symbol.bottom]).Unambiguous
  /-- The start symbol can be replaced. -/
  start_mem : d.start ∈ d.heads
  /-- Rules replace symbols that can be replaced. -/
  head_mem : ∀ p ∈ d.rules, p.head ∈ d.heads
  /-- Bodies are made of declared symbols. -/
  body_subset : ∀ p ∈ d.rules, p.body ⊆ d.vocabulary

namespace Declaration

theorem vocabularyFaults_eq_nil_iff {d : Declaration} :
    d.vocabularyFaults = [] ↔
      d.vocabulary.Nodup ∧ (∀ s ∈ d.vocabulary, s ∉ Symbol.reserved) ∧
        (∀ s ∈ d.vocabulary, s.isMalformed = false) ∧
        (d.vocabulary ++ [Symbol.bottom]).Unambiguous := by
  rw [Vocabulary.unambiguous_iff, ← Vocabulary.isDecodable_iff_overhang]
  simp [vocabularyFaults, Symbol.repeatsAfter_eq_nil_iff]

theorem ruleFaults_eq_nil_iff {d : Declaration} {p : Production} :
    d.ruleFaults p = [] ↔ p.head ∈ d.heads ∧ p.body ⊆ d.vocabulary := by
  simp [ruleFaults, List.subset_def]

/-- A declaration has no faults exactly if it is well formed. -/
theorem faults_eq_nil_iff_wellFormed {d : Declaration} : d.faults = [] ↔ d.WellFormed := by
  have hstart : d.startFaults = [] ↔ d.start ∈ d.heads := by simp [startFaults]
  rw [faults, List.append_eq_nil_iff, List.append_eq_nil_iff, List.flatMap_eq_nil_iff,
    vocabularyFaults_eq_nil_iff, hstart]
  simp only [ruleFaults_eq_nil_iff]
  constructor
  · intro h
    obtain ⟨⟨⟨hnodup, hreserved, hmalformed, hunambiguous⟩, hstart⟩, hrules⟩ := h
    exact ⟨hnodup, hreserved, hmalformed, hunambiguous, hstart, fun p hp => (hrules p hp).1,
      fun p hp => (hrules p hp).2⟩
  · intro h
    exact ⟨⟨⟨h.nodup, h.not_reserved, h.not_malformed, h.unambiguous⟩, h.start_mem⟩,
      fun p hp => ⟨h.head_mem p hp, h.body_subset p hp⟩⟩

/-- The check accepts what is well formed, and keeps it as it was declared. -/
theorem exists_check_eq_ok_iff {d : Declaration} :
    (∃ g : Grammar, d.check = .ok g ∧ g.toDeclaration = d) ↔ d.WellFormed := by
  rw [← faults_eq_nil_iff_wellFormed]
  constructor
  · rintro ⟨g, -, rfl⟩
    exact g.faults_eq_nil
  · intro h
    exact ⟨⟨d, h⟩, check_eq_ok_iff.2 rfl, rfl⟩

namespace WellFormed

variable {d : Declaration}

/-- The symbols of sentences are none of those that rules replace. -/
theorem not_mem_heads (h : d.WellFormed) {s : Symbol} (hs : s ∈ d.inputs) : s ∉ d.heads :=
  fun hheads => (List.nodup_append.1 h.nodup).2.2 s hs s hheads rfl

/-- The bottom marker is not declared. -/
theorem bottom_not_mem (h : d.WellFormed) : Symbol.bottom ∉ d.vocabulary :=
  fun hmem => h.not_reserved _ hmem List.mem_cons_self

/-- The mark for nothing is not declared. -/
theorem nothing_not_mem (h : d.WellFormed) : Symbol.nothing ∉ d.vocabulary :=
  fun hmem => h.not_reserved _ hmem (List.mem_cons_of_mem _ List.mem_cons_self)

theorem unambiguous_vocabulary (h : d.WellFormed) : d.vocabulary.Unambiguous :=
  h.unambiguous.of_subset (List.subset_append_left _ _)

end WellFormed

end Declaration

theorem Grammar.wellFormed (g : Grammar) : g.toDeclaration.WellFormed :=
  Declaration.faults_eq_nil_iff_wellFormed.1 g.faults_eq_nil

end ContextFree
