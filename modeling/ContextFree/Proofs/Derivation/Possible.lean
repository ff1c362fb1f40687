import ContextFree.Proofs.Derivation.Uniform

/-!
# Every derivation can be drawn

What is derived at random is a leftmost derivation that has come to its end.  This module goes the
other way: for each of these there are words with which it is what `Grammar.derive` gives, and each
of its steps takes one of them.

* `Progress.reached` is where the loop stands after a derivation, and `Progress.step?_reached` is
  one more step from there, given what was drawn.
* `Declaration.IsLeftmost.exists_words` follows a derivation step by step, and chooses a word for
  each of its productions.

No word depends on the limit, and none on the words after it.
-/

namespace ContextFree

namespace Progress

variable {d : Declaration} {e : Derivation} {words rest : Words}

/-- The loop after the steps of a derivation, with the words that are left. -/
def reached (e : Derivation) (words : Words) : Progress :=
  ⟨e.sentence, e.forms.dropLast.reverse, e.rules.reverse, words⟩

/-- The form that the loop is at comes after the earlier ones. -/
theorem forms_reached (he : e.forms ≠ []) (words : Words) :
    (reached e words).form :: (reached e words).earlier = e.forms.reverse := by
  have hforms : e.forms.dropLast ++ [e.sentence] = e.forms := by
    rw [Derivation.sentence, List.getLast?_eq_some_getLast he]
    exact List.dropLast_append_getLast he
  rw [← hforms, List.reverse_append]
  simp [reached]

theorem derivation_reached (he : e.forms ≠ []) (words : Words) :
    (reached e words).derivation = e := by
  rw [derivation, forms_reached he, List.reverse_reverse]
  simp [reached]

/-- The next step replaces the first head of a production by what is drawn for it. -/
theorem step?_reached {r : Redex} {p : Production} (hlast : e.forms.getLast? = some r.form)
    (hbefore : ∀ s ∈ r.before, ¬ d.IsHead s) (hrules : d.rulesFor r.head ≠ [])
    (hchoose : words.choose (d.rulesFor r.head) hrules = (p, rest)) :
    (reached e words).step? d =
      some (reached ⟨e.forms ++ [r.fill p.body], e.rules ++ [p]⟩ rest) := by
  have he : e.forms ≠ [] := by
    intro hnil
    simp [hnil] at hlast
  have hform : (reached e words).form = r.form := by simp [reached, Derivation.sentence, hlast]
  have hredex : d.redex? (reached e words).form = some r :=
    Declaration.redex?_eq_some_iff.2 ⟨hform, Declaration.rulesFor_ne_nil_iff.1 hrules, hbefore⟩
  rw [step?_of_choose hredex hrules hchoose, forms_reached he]
  simp [reached, Derivation.sentence]

end Progress

namespace Declaration

variable {d : Declaration} {e : Derivation}

/-- The steps of a derivation are taken with one word each, and the loop then goes on with the
limit and the words that are left.  The induction is on the derivation, whose last word is chosen
last. -/
theorem IsLeftmost.exists_words (h : d.IsLeftmost e) (hrules : d.rules.length < Words.wordCount) :
    ∃ words : List UInt32, words.length = e.rules.length ∧
      ∀ (limit taken : Nat) (rest : List UInt32),
        Progress.finish d (limit + e.rules.length)
            ⟨[d.start], [], [], ⟨words ++ rest, taken⟩⟩ =
          Progress.finish d limit (.reached e ⟨rest, taken + e.rules.length⟩) := by
  induction h using IsLeftmost.growth with
  | start => exact ⟨[], rfl, fun limit taken rest => rfl⟩
  | @concat e r p he hlast hbefore hp hhead ih =>
    obtain ⟨words, hwords, hfinish⟩ := ih
    have hmem : p ∈ d.rulesFor r.head := mem_rulesFor.2 ⟨hp, hhead⟩
    have hcandidates : (d.rulesFor r.head).length < Words.wordCount :=
      Nat.lt_of_le_of_lt (List.length_filter_le _ _) hrules
    obtain ⟨w, hchoose⟩ := Words.exists_choose_eq hmem hcandidates
    refine ⟨words ++ [w], by simp [hwords], fun limit taken rest => ?_⟩
    have hstep := Progress.step?_reached hlast hbefore (List.ne_nil_of_mem hmem)
      (hchoose _ (taken + e.rules.length) rest)
    have hlength : (e.rules ++ [p]).length = e.rules.length + 1 := List.length_append
    have hlimit : limit + (e.rules.length + 1) = limit + 1 + e.rules.length := by omega
    rw [hlength, hlimit, List.append_assoc, List.singleton_append, hfinish,
      Progress.finish_succ hstep]
    rfl

end Declaration

namespace Grammar

/-- Every leftmost derivation that has come to its end can be drawn, if there are fewer productions
than words.  It takes as many words as it has steps, whatever comes after them and however far the
limit is. -/
theorem exists_words_derive (g : Grammar) (hrules : g.rules.length < Words.wordCount)
    {e : Derivation} (h : g.IsLeftmost e) (hdone : ∀ s ∈ e.sentence, ¬ g.IsHead s) :
    ∃ words : List UInt32, words.length = e.rules.length ∧
      ∀ (limit taken : Nat) (rest : List UInt32), e.rules.length ≤ limit →
        g.derive ⟨words ++ rest, taken⟩ limit =
          (.ok e, ⟨rest, taken + e.rules.length⟩) := by
  obtain ⟨words, hwords, hfinish⟩ := h.exists_words hrules
  refine ⟨words, hwords, fun limit taken rest hlimit => ?_⟩
  have he : e.forms ≠ [] := by
    intro hnil
    have hlength := h.length
    simp [hnil] at hlength
  have hend : (Progress.reached e ⟨rest, taken + e.rules.length⟩).step? g.toDeclaration = none :=
    Progress.step?_eq_none_iff.2 hdone
  have hlast := hfinish (limit - e.rules.length) taken rest
  rw [Nat.sub_add_cancel hlimit, Progress.finish_of_step?_eq_none hend] at hlast
  rw [derive, hlast]
  show (Except.ok (Progress.reached e _).derivation, _) = _
  rw [Progress.derivation_reached he]
  rfl

/-- The derivation of `ab` that replaces `S` by the longer body first. -/
def nestedDerivation : Derivation :=
  ⟨[["S"], ["a", "S", "B"], ["a", "B"], ["a", "b"]],
    [⟨"S", ["a", "S", "B"]⟩, ⟨"S", []⟩, ⟨"B", ["b"]⟩]⟩

/-- Three words make `nested` give this derivation, within any limit from three on. -/
theorem nested_exists_words_derive :
    nested.rules.length < Words.wordCount ∧ nested.IsLeftmost nestedDerivation ∧
      (∀ s ∈ nestedDerivation.sentence, ¬ nested.IsHead s) ∧
      ∃ words : List UInt32, words.length = 3 ∧
        nested.derive ⟨words, 0⟩ 3 = (.ok nestedDerivation, ⟨[], 3⟩) := by
  have hrules : nested.rules.length < Words.wordCount := by decide
  have hplain : ∀ s ∈ (["a", "b"] : List Symbol), ¬ nested.IsHead s := by
    have hother : ∀ s ∈ (["a", "b"] : List Symbol), ∀ p ∈ nested.rules, p.head ≠ s := by decide
    rintro s hs ⟨p, hp, hhead⟩
    exact hother s hs p hp hhead
  have hbefore : ∀ s ∈ (["a"] : List Symbol), ¬ nested.IsHead s := by
    have hsub : (["a"] : List Symbol) ⊆ ["a", "b"] := by decide
    exact fun s hs => hplain s (hsub hs)
  have hstart := Declaration.IsLeftmost.start nested.toDeclaration
  have hfirst := hstart.concat (r := ⟨[], "S", []⟩) rfl (List.forall_mem_nil _)
    (p := ⟨"S", ["a", "S", "B"]⟩) (by decide) rfl
  have hsecond := hfirst.concat (r := ⟨["a"], "S", ["B"]⟩) rfl hbefore
    (p := ⟨"S", []⟩) (by decide) rfl
  have hleftmost : nested.IsLeftmost nestedDerivation :=
    hsecond.concat (r := ⟨["a"], "B", []⟩) rfl hbefore (p := ⟨"B", ["b"]⟩) (by decide) rfl
  obtain ⟨words, hwords, hderive⟩ := exists_words_derive nested hrules hleftmost hplain
  have hthree := hderive 3 0 [] (by decide)
  rw [List.append_nil] at hthree
  exact ⟨hrules, hleftmost, hplain, words, hwords, hthree⟩

end Grammar

end ContextFree
