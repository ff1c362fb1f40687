import ContextFree.Proofs.Document.RoundTrip

/-!
# Spaces in bodies

The body of a rule may be written with spaces between its symbols or without them, and each word is
split by itself.  Over an unambiguous vocabulary this makes no difference.

* `RuleLine.Resolves.spell_body` says what all spellings of a body have in common: without the
  spaces, they are what its symbols spell.
* `RuleLine.resolve_groups` reads a body in groups of symbols, and `RuleLine.Resolves.joined` reads
  its words as one.

`Grammar.resolve_spacing` puts them together for the vocabulary of a grammar.  The word that stands
for an empty body is never what symbols spell, so it does not come in between.
-/

namespace ContextFree

namespace RuleLine

variable {v : Vocabulary} {rule : RuleLine} {p : Production}

/-- A rule with its words written as one, if it has any. -/
def joined (rule : RuleLine) : RuleLine :=
  ⟨rule.head, if rule.words = [] then [] else [rule.words.flatten]⟩

/-! ## What words spell -/

/-- The splits of words, taken together, spell what the words are together. -/
theorem spell_flatten {words : List Text} {parts : List (List Symbol)}
    (h : List.Forall₂ (fun word part => v.split? word = some part) words parts) :
    Symbol.spell parts.flatten = words.flatten ∧ parts.flatten ⊆ v := by
  induction h with
  | nil => exact ⟨rfl, List.nil_subset v⟩
  | cons hpart _ ih =>
    obtain ⟨hspell, hsub, -⟩ := Vocabulary.spell_of_split? hpart
    obtain ⟨hrest, hrestsub⟩ := ih
    rw [List.flatten_cons, List.flatten_cons, Symbol.spell_append, hspell, hrest]
    exact ⟨rfl, List.append_subset.2 ⟨hsub, hrestsub⟩⟩

/-- The symbols of a body spell its words, unless the body is written with the mark for nothing. -/
theorem Resolves.spell_body (h : rule.Resolves v p) (hwords : rule.words ≠ [Symbol.nothing.text]) :
    Symbol.spell p.body = rule.words.flatten ∧ p.body ⊆ v := by
  cases h with
  | nothing hnothing => exact absurd hnothing hwords
  | words _ hparts => exact spell_flatten hparts

theorem Resolves.head_eq (h : rule.Resolves v p) : p.head = rule.head := by
  cases h <;> rfl

/-- The mark for nothing is not written in any other way. -/
theorem Resolves.words_eq_nothing_iff (hv : v.Unambiguous) (hnothing : Symbol.nothing ∉ v)
    (h : rule.Resolves v p) :
    rule.words = [Symbol.nothing.text] ↔ rule.words.flatten = Symbol.nothing.text := by
  constructor
  · intro hwords
    rw [hwords, List.flatten_singleton]
  · intro hflatten
    by_contra hwords
    obtain ⟨hspell, hsub⟩ := h.spell_body hwords
    exact hv.spell_ne_nothing hnothing hsub (hspell.trans hflatten)

theorem Resolves.body_eq_nil (h : rule.Resolves v p)
    (hwords : rule.words = [Symbol.nothing.text]) : p.body = [] := by
  cases h with
  | nothing => rfl
  | words hne => exact absurd hwords hne

/-! ## Groups and joined words -/

/-- A body is read back from the words that its symbols spell in groups. -/
theorem resolve_groups (hv : v.Unambiguous) (hnothing : Symbol.nothing ∉ v) (head : Symbol)
    {groups : List (List Symbol)} (hgroups : groups.flatten ⊆ v) :
    resolve v ⟨head, groups.map Symbol.spell⟩ = .ok ⟨head, groups.flatten⟩ := by
  have hgroup : ∀ group ∈ groups, group ⊆ v := fun group hmem =>
    fun _ hs => hgroups (List.mem_flatten_of_mem hmem hs)
  have hwords : groups.map Symbol.spell ≠ [Symbol.nothing.text] := by
    intro hmark
    obtain ⟨group, hmem, hspell⟩ : ∃ group ∈ groups, Symbol.spell group = Symbol.nothing.text := by
      have hmem : Symbol.nothing.text ∈ groups.map Symbol.spell := by simp [hmark]
      exact List.mem_map.1 hmem
    exact hv.spell_ne_nothing hnothing (hgroup group hmem) hspell
  refine resolve_eq_ok_iff.2 (.words hwords ?_)
  rw [List.forall₂_map_left_iff]
  exact List.forall₂_same.2 fun group hmem => hv.split?_spell (hgroup group hmem)

/-- A body that is read from some words is read from them as one word, too. -/
theorem Resolves.joined (hv : v.Unambiguous) (hnothing : Symbol.nothing ∉ v)
    (h : rule.Resolves v p) (hwords : rule.words ≠ [Symbol.nothing.text]) :
    rule.joined.resolve v = .ok p := by
  by_cases hempty : rule.words = []
  · have hjoined : rule.joined = rule := by
      obtain ⟨head, words⟩ := rule
      obtain rfl : words = [] := hempty
      rfl
    rw [hjoined]
    exact resolve_eq_ok_iff.2 h
  · obtain ⟨hspell, hsub⟩ := h.spell_body hwords
    have hjoined : rule.joined = ⟨rule.head, [p.body].map Symbol.spell⟩ := by
      simp [RuleLine.joined, hempty, hspell]
    have hp : p = ⟨rule.head, [p.body].flatten⟩ := by
      rw [List.flatten_singleton, ← h.head_eq]
    rw [hjoined, resolve_groups hv hnothing rule.head (by simpa using hsub), ← hp]

/-- Rules with one head and the same words without spaces cannot have different bodies. -/
theorem Resolves.eq_of_flatten_eq (hv : v.Unambiguous) (hnothing : Symbol.nothing ∉ v)
    {other : RuleLine} {q : Production} (hp : rule.Resolves v p) (hq : other.Resolves v q)
    (hhead : rule.head = other.head) (hwords : rule.words.flatten = other.words.flatten) :
    p = q := by
  have hbody : p.body = q.body := by
    by_cases hmark : rule.words.flatten = Symbol.nothing.text
    · rw [hp.body_eq_nil ((hp.words_eq_nothing_iff hv hnothing).2 hmark),
        hq.body_eq_nil ((hq.words_eq_nothing_iff hv hnothing).2 (hwords ▸ hmark))]
    · obtain ⟨hpspell, hpsub⟩ := hp.spell_body (mt (hp.words_eq_nothing_iff hv hnothing).1 hmark)
      obtain ⟨hqspell, hqsub⟩ :=
        hq.spell_body (mt (hq.words_eq_nothing_iff hv hnothing).1 (hwords ▸ hmark))
      exact hv _ _ hpsub hqsub (hpspell.trans (hwords.trans hqspell.symm))
  have hheads : p.head = q.head := hp.head_eq.trans (hhead.trans hq.head_eq.symm)
  cases p
  cases q
  exact congrArg₂ Production.mk hheads hbody

end RuleLine

/-- Spaces in the body of a rule make no difference over the vocabulary of a grammar.  A body is
read back from its symbols written in groups, whatever the groups are.  A body that is read from
words other than the mark for nothing is read from the words without spaces, too.  And words that
are the same without spaces are not read as two different bodies. -/
theorem Grammar.resolve_spacing (g : Grammar) (head : Symbol) :
    (∀ (body : List Symbol) (groups : List (List Symbol)), body ⊆ g.vocabulary →
      groups.flatten = body →
      RuleLine.resolve g.vocabulary ⟨head, groups.map Symbol.spell⟩ = .ok ⟨head, body⟩) ∧
    (∀ (words : List Text) (body : List Symbol), words ≠ [Symbol.nothing.text] →
      RuleLine.resolve g.vocabulary ⟨head, words⟩ = .ok ⟨head, body⟩ →
      RuleLine.resolve g.vocabulary (RuleLine.joined ⟨head, words⟩) = .ok ⟨head, body⟩) ∧
    ∀ (words others : List Text) (p q : Production), words.flatten = others.flatten →
      RuleLine.resolve g.vocabulary ⟨head, words⟩ = .ok p →
      RuleLine.resolve g.vocabulary ⟨head, others⟩ = .ok q → p = q := by
  have hv := g.wellFormed.unambiguous_vocabulary
  have hnothing := g.wellFormed.nothing_not_mem
  refine ⟨?_, ?_, ?_⟩
  · rintro _ groups hbody rfl
    exact RuleLine.resolve_groups hv hnothing head hbody
  · intro words body hwords hresolve
    exact (RuleLine.resolve_eq_ok_iff.1 hresolve).joined hv hnothing hwords
  · intro words others p q hwords hp hq
    exact (RuleLine.resolve_eq_ok_iff.1 hp).eq_of_flatten_eq hv hnothing
      (RuleLine.resolve_eq_ok_iff.1 hq) rfl hwords

/-- A grammar with a symbol that begins another one. -/
def Grammar.conditional : Grammar where
  inputs := ["if", "iff", "x"]
  heads := ["S"]
  start := "S"
  rules := [⟨"S", ["if", "S"]⟩, ⟨"S", ["x", "iff", "x"]⟩]
  faults_eq_nil := by decide +kernel

/-- A body that is written as two words is read from one word, too, and from the same letters with
the space elsewhere nothing else is read. -/
theorem Grammar.conditional_resolve_spacing :
    RuleLine.resolve conditional.vocabulary ⟨"S", ["x".toList, "iffx".toList]⟩ =
        .ok ⟨"S", ["x", "iff", "x"]⟩ ∧
      RuleLine.resolve conditional.vocabulary ⟨"S", ["xiffx".toList]⟩ =
        .ok ⟨"S", ["x", "iff", "x"]⟩ ∧
      ∀ p, RuleLine.resolve conditional.vocabulary ⟨"S", ["xiff".toList, "x".toList]⟩ = .ok p →
        ⟨"S", ["x", "iff", "x"]⟩ = p := by
  obtain ⟨hgroups, hjoined, hunique⟩ := resolve_spacing conditional "S"
  have htwo : RuleLine.resolve conditional.vocabulary ⟨"S", ["x".toList, "iffx".toList]⟩ =
      .ok ⟨"S", ["x", "iff", "x"]⟩ :=
    hgroups ["x", "iff", "x"] [["x"], ["iff", "x"]] (by decide) rfl
  refine ⟨htwo, hjoined _ _ (by decide) htwo, fun p hp => ?_⟩
  exact hunique _ _ _ _ (by decide) htwo hp

end ContextFree
