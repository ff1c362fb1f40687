import ContextFree.Derivation.Random
import ContextFree.Proofs.Derivation.Leftmost

/-!
# Random derivations are leftmost derivations

`Grammar.derive` is a loop over a `Progress`.  This module proves what the loop keeps, for every
source of words and every limit, and what it gives when it stops.  A derivation that ends was dealt
finitely many words, so whatever a source deals after them, the list of these words stands for it.

* `Words.choose_mem` is all that the proofs need to know about drawing.
* `Declaration.Draws` says which words were dealt for which productions.
* `Progress.Tracks` is the invariant.  `Progress.Tracks.step` says that a step keeps it, and
  `Progress.Tracks.finish` follows it to the end of the loop.
-/

namespace ContextFree

/-- What is drawn from a list is a member of it. -/
theorem Words.choose_mem {α : Type} (words : Words) (items : List α) (h : items ≠ []) :
    (words.choose items h).1 ∈ items := by
  rw [choose]
  exact List.get_mem items _

/-- Productions that were drawn one after the other, each from those for its own head, with the
source of words before the first draw and after the last one. -/
inductive Declaration.Draws (d : Declaration) (words : Words) : List Production → Words → Prop
  | nil : Draws d words [] words
  | concat {ps : List Production} {p : Production} {between rest : Words}
      (h : d.rulesFor p.head ≠ []) :
      Draws d words ps between → between.choose (d.rulesFor p.head) h = (p, rest) →
        Draws d words (ps ++ [p]) rest

namespace Progress

variable {d : Declaration} {p next : Progress} {words : Words}

theorem sentence_derivation (p : Progress) : p.derivation.sentence = p.form := by
  simp [derivation, Derivation.sentence]

theorem step?_eq_none_iff : p.step? d = none ↔ ∀ s ∈ p.form, ¬ d.IsHead s := by
  have hredex : p.step? d = none ↔ d.redex? p.form = none := by
    rw [step?]
    split
    · next h => simp [h]
    · next r h => simp [h]
  rw [hredex, Declaration.redex?_eq_none_iff]
  simp only [← Declaration.rulesFor_ne_nil_iff, not_not]

/-- A step replaces the first symbol that is the head of a production, by a production drawn from
those for this symbol. -/
theorem step?_eq_some (h : p.step? d = some next) :
    ∃ (r : Redex) (rule : Production) (rest : Words) (hrules : d.rulesFor r.head ≠ []),
      p.form = r.form ∧ (∀ s ∈ r.before, ¬ d.IsHead s) ∧
        p.words.choose (d.rulesFor r.head) hrules = (rule, rest) ∧
        next = ⟨r.fill rule.body, p.form :: p.earlier, rule :: p.rules, rest⟩ := by
  rw [step?] at h
  split at h
  · simp at h
  · next r hredex =>
    obtain ⟨hform, hrules, hbefore⟩ := Declaration.redex?_eq_some hredex
    refine ⟨r, _, _, hrules, hform.symm, fun s hs => ?_, rfl, (Option.some.inj h).symm⟩
    rw [← Declaration.rulesFor_ne_nil_iff, hbefore s hs]
    exact not_not_intro rfl

/-- The step that replaces the first head of a production by what is drawn for it. -/
theorem step?_of_choose {r : Redex} {rule : Production} {rest : Words}
    (hredex : d.redex? p.form = some r) (hrules : d.rulesFor r.head ≠ [])
    (hchoose : p.words.choose (d.rulesFor r.head) hrules = (rule, rest)) :
    p.step? d = some ⟨r.fill rule.body, p.form :: p.earlier, rule :: p.rules, rest⟩ := by
  rw [step?]
  split
  · next h => simp [hredex] at h
  · next r' h =>
    obtain rfl : r' = r := Option.some.inj (h.symm.trans hredex)
    rw [hchoose]

theorem finish_of_step?_eq_none (h : p.step? d = none) (limit : Nat) :
    p.finish d limit = .ok p := by
  rw [finish.eq_def, h]

theorem finish_zero (h : p.step? d = some next) : p.finish d 0 = .error p := by
  rw [finish, h]

theorem finish_succ (h : p.step? d = some next) (limit : Nat) :
    p.finish d (limit + 1) = next.finish d limit := by
  rw [finish, h]

/-- What a derivation under way has done so far: leftmost steps from the start symbol, by
productions that were drawn. -/
structure Tracks (d : Declaration) (words : Words) (p : Progress) : Prop where
  leftmost : d.IsLeftmost p.derivation
  draws : d.Draws words p.rules.reverse p.words

namespace Tracks

theorem start (d : Declaration) (words : Words) : Tracks d words ⟨[d.start], [], [], words⟩ :=
  ⟨Declaration.IsLeftmost.start d, .nil⟩

theorem step (h : p.Tracks d words) (hstep : p.step? d = some next) :
    next.Tracks d words ∧ next.rules.length = p.rules.length + 1 := by
  obtain ⟨r, rule, rest, hrules, hform, hbefore, hchoose, rfl⟩ := step?_eq_some hstep
  have hmem : rule ∈ d.rulesFor r.head := by
    have hdrawn := p.words.choose_mem (d.rulesFor r.head) hrules
    rwa [hchoose] at hdrawn
  obtain ⟨hrule, hhead⟩ := Declaration.mem_rulesFor.1 hmem
  refine ⟨⟨?_, ?_⟩, rfl⟩
  · have hlast : p.derivation.forms.getLast? = some r.form := by simp [derivation, hform]
    have hconcat := h.leftmost.concat hlast hbefore hrule hhead
    simpa [derivation] using hconcat
  · obtain ⟨before, head, after⟩ := r
    obtain rfl : rule.head = head := hhead
    rw [List.reverse_cons]
    exact .concat hrules h.draws hchoose

/-- The loop stops where there is nothing to replace, within the limit, or where the limit is
reached and there still is.  The induction is on the steps that are left. -/
theorem finish (limit : Nat) (h : p.Tracks d words) :
    match p.finish d limit with
    | .ok last => last.Tracks d words ∧ last.rules.length ≤ p.rules.length + limit ∧
        ∀ s ∈ last.form, ¬ d.IsHead s
    | .error last => last.Tracks d words ∧ last.rules.length = p.rules.length + limit ∧
        ∃ s ∈ last.form, d.IsHead s := by
  induction limit generalizing p with
  | zero =>
    cases hstep : p.step? d with
    | none =>
      rw [finish_of_step?_eq_none hstep]
      exact ⟨h, Nat.le_refl _, step?_eq_none_iff.1 hstep⟩
    | some next =>
      have hsome : p.step? d ≠ none := by simp [hstep]
      rw [finish_zero hstep]
      exact ⟨h, rfl, by simpa [step?_eq_none_iff] using hsome⟩
  | succ limit ih =>
    cases hstep : p.step? d with
    | none =>
      rw [finish_of_step?_eq_none hstep]
      exact ⟨h, Nat.le_add_right _ _, step?_eq_none_iff.1 hstep⟩
    | some next =>
      obtain ⟨hnext, hlength⟩ := h.step hstep
      have hrest := ih hnext
      have hcount : next.rules.length + limit = p.rules.length + (limit + 1) := by omega
      rw [hcount] at hrest
      rwa [finish_succ hstep]

end Tracks

end Progress

namespace Grammar

variable {g : Grammar} {words rest : Words} {limit : Nat} {e : Derivation}

/-- A derivation that is given back is a leftmost one within the limit, and has come to its end. -/
theorem ended_of_derive (h : g.derive words limit = (.ok e, rest)) :
    g.IsLeftmost e ∧ e.rules.length ≤ limit ∧ ∀ s ∈ e.sentence, ¬ g.IsHead s := by
  have hfinish := (Progress.Tracks.start g.toDeclaration words).finish limit
  rw [derive] at h
  cases hlast : Progress.finish g.toDeclaration limit ⟨[g.start], [], [], words⟩ with
  | ok last =>
    rw [hlast] at h hfinish
    obtain ⟨htracks, hle, hdone⟩ := hfinish
    obtain rfl : last.derivation = e := Except.ok.inj (Prod.mk.inj h).1
    have hlength : last.derivation.rules.length ≤ limit := by
      simpa [Progress.derivation] using hle
    exact ⟨htracks.leftmost, hlength, by rwa [Progress.sentence_derivation]⟩
  | error last =>
    rw [hlast] at h
    exact absurd (Prod.mk.inj h).1 (by simp)

/-- What is derived at random is a leftmost derivation. -/
theorem isLeftmost_of_derive (h : g.derive words limit = (.ok e, rest)) : g.IsLeftmost e :=
  (ended_of_derive h).1

/-- What is derived at random is a leftmost derivation, by the productions that were drawn.

A derivation that is given back has ended: its last form has no head of a production, and it took
no more steps than the limit.  If the limit was exceeded, then that many steps were taken, and the
last form still has a head. -/
theorem derive_isLeftmost (g : Grammar) (words : Words) (limit : Nat) :
    match g.derive words limit with
    | (.ok e, rest) =>
      g.IsLeftmost e ∧ e.rules.length ≤ limit ∧ (∀ s ∈ e.sentence, ¬ g.IsHead s) ∧
        (∀ form ∈ e.forms, form ⊆ g.vocabulary) ∧ g.Draws words e.rules rest
    | (.error refusal, rest) =>
      refusal = ⟨limit⟩ ∧ ∃ e, g.IsLeftmost e ∧ e.rules.length = limit ∧
        (∃ s ∈ e.sentence, g.IsHead s) ∧ (∀ form ∈ e.forms, form ⊆ g.vocabulary) ∧
        g.Draws words e.rules rest := by
  have hfinish := (Progress.Tracks.start g.toDeclaration words).finish limit
  rw [derive]
  cases hlast : Progress.finish g.toDeclaration limit ⟨[g.start], [], [], words⟩ with
  | ok last =>
    rw [hlast] at hfinish
    obtain ⟨htracks, hle, hdone⟩ := hfinish
    have hlength : last.derivation.rules.length ≤ limit := by
      simpa [Progress.derivation] using hle
    refine ⟨htracks.leftmost, hlength, ?_, htracks.leftmost.forms_subset g.wellFormed,
      htracks.draws⟩
    rwa [Progress.sentence_derivation]
  | error last =>
    rw [hlast] at hfinish
    obtain ⟨htracks, heq, hopen⟩ := hfinish
    have hlength : last.derivation.rules.length = limit := by
      simpa [Progress.derivation] using heq
    refine ⟨rfl, last.derivation, htracks.leftmost, hlength, ?_,
      htracks.leftmost.forms_subset g.wellFormed, htracks.draws⟩
    rwa [Progress.sentence_derivation]

end Grammar

end ContextFree
