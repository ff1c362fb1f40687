import ContextFree.Derivation.Basic
import ContextFree.Proofs.Grammar.WellFormed
import Mathlib.Data.List.Basic
import Mathlib.Data.List.Induction

/-!
# Leftmost derivations

A `Derivation` is a list of forms and a list of productions, and nothing in it says that they belong
together.  `Declaration.IsLeftmost` says so, step by step: each production replaces the first symbol
of its form that any production replaces.

`IsLeftmost.start` and `IsLeftmost.concat` are the two ways to make such a derivation, and
`IsLeftmost.growth` is the induction that follows them.  `IsLeftmost.forms_subset` says that its
forms are made of declared symbols.
-/

namespace ContextFree

namespace Declaration

variable {d : Declaration}

/-- Whether a symbol is the head of a production. -/
def IsHead (d : Declaration) (s : Symbol) : Prop := ∃ p ∈ d.rules, p.head = s

theorem rulesFor_ne_nil_iff {s : Symbol} : d.rulesFor s ≠ [] ↔ d.IsHead s := by
  constructor
  · intro h
    obtain ⟨p, hp⟩ := List.exists_mem_of_ne_nil _ h
    exact ⟨p, mem_rulesFor.1 hp⟩
  · intro h
    obtain ⟨p, hp⟩ := h
    exact List.ne_nil_of_mem (mem_rulesFor.2 hp)

/-- The place that is replaced in a form is the only one with a head of a production at it and none
before it. -/
theorem redex?_eq_some_iff {form : Form} {r : Redex} :
    d.redex? form = some r ↔
      form = r.form ∧ d.IsHead r.head ∧ ∀ s ∈ r.before, ¬ d.IsHead s := by
  have hnone : ∀ {s : Symbol}, d.rulesFor s = [] ↔ ¬ d.IsHead s := fun {s} => by
    rw [← rulesFor_ne_nil_iff, not_not]
  constructor
  · intro h
    obtain ⟨hform, hhead, hbefore⟩ := redex?_eq_some h
    exact ⟨hform.symm, rulesFor_ne_nil_iff.1 hhead, fun s hs => hnone.1 (hbefore s hs)⟩
  · rintro ⟨rfl, hhead, hbefore⟩
    obtain ⟨before, head, after⟩ := r
    induction before with
    | nil => exact if_pos (rulesFor_ne_nil_iff.2 hhead)
    | cons s before ih =>
      obtain ⟨hs, hbefore⟩ := List.forall_mem_cons.1 hbefore
      have hrest : d.redex? (before ++ head :: after) = some ⟨before, head, after⟩ :=
        ih hhead hbefore
      show d.redex? (s :: (before ++ head :: after)) = _
      rw [redex?, if_neg (not_not_intro (hnone.2 hs)), hrest]
      rfl

/-- A derivation begins with the start symbol, and each production leads from one form to the next
by replacing the first symbol that is the head of a production at all. -/
structure IsLeftmost (d : Declaration) (e : Derivation) : Prop where
  first : e.forms[0]? = some [d.start]
  length : e.forms.length = e.rules.length + 1
  step : ∀ (i : Nat) (p : Production), e.rules[i]? = some p →
    p ∈ d.rules ∧ ∃ r : Redex, p.head = r.head ∧ e.forms[i]? = some r.form ∧
      e.forms[i + 1]? = some (r.fill p.body) ∧ ∀ s ∈ r.before, ¬ d.IsHead s

namespace IsLeftmost

variable {e : Derivation}

theorem start (d : Declaration) : d.IsLeftmost ⟨[[d.start]], []⟩ :=
  ⟨rfl, rfl, by simp⟩

theorem forms_ne_nil (h : d.IsLeftmost e) : e.forms ≠ [] := by
  intro hnil
  simpa [hnil] using h.first

/-- One more leftmost step can be taken from the last form. -/
theorem concat (h : d.IsLeftmost e) {r : Redex} (hlast : e.forms.getLast? = some r.form)
    (hbefore : ∀ s ∈ r.before, ¬ d.IsHead s) {p : Production} (hp : p ∈ d.rules)
    (hhead : p.head = r.head) :
    d.IsLeftmost ⟨e.forms ++ [r.fill p.body], e.rules ++ [p]⟩ where
  first := by
    rw [List.getElem?_append_left (by rw [h.length]; omega)]
    exact h.first
  length := by simp [h.length]
  step i q hq := by
    have hlength := h.length
    rcases Nat.lt_or_ge i e.rules.length with hi | hi
    · rw [List.getElem?_append_left hi] at hq
      obtain ⟨hq, s, hs, hform, hnext, hbefore⟩ := h.step i q hq
      refine ⟨hq, s, hs, ?_, ?_, hbefore⟩
      · rwa [List.getElem?_append_left (by omega)]
      · rwa [List.getElem?_append_left (by omega)]
    · -- The new step is the last one.
      have hlt : i < (e.rules ++ [p]).length := (List.getElem?_eq_some_iff.1 hq).1
      obtain rfl : i = e.rules.length := by
        rw [List.length_append, List.length_singleton] at hlt
        omega
      obtain rfl : p = q := by simpa using hq
      refine ⟨hp, r, hhead, ?_, ?_, hbefore⟩
      · rw [List.getElem?_append_left (by omega), ← hlast, List.getLast?_eq_getElem?, hlength,
          Nat.add_sub_cancel]
      · rw [← hlength]
        exact List.getElem?_concat_length

/-- A leftmost derivation with productions is one with a step less, and the last step. -/
theorem exists_of_concat {forms : List Form} {ps : List Production} {p : Production}
    (h : d.IsLeftmost ⟨forms, ps ++ [p]⟩) :
    ∃ (earlier : List Form) (r : Redex), forms = earlier ++ [r.fill p.body] ∧
      d.IsLeftmost ⟨earlier, ps⟩ ∧ earlier.getLast? = some r.form ∧
      (∀ s ∈ r.before, ¬ d.IsHead s) ∧ p ∈ d.rules ∧ p.head = r.head := by
  have hlength : forms.length = ps.length + 1 + 1 := by simpa using h.length
  obtain rfl | ⟨earlier, last, rfl⟩ := forms.eq_nil_or_concat'
  · simp at hlength
  · have hearlier : earlier.length = ps.length + 1 := by simpa using hlength
    have hform : ∀ i ≤ ps.length, (earlier ++ [last])[i]? = earlier[i]? := fun i hi =>
      List.getElem?_append_left (by omega)
    obtain ⟨hp, r, hhead, hreplaced, hfill, hbefore⟩ :=
      h.step ps.length p List.getElem?_concat_length
    have hlast : earlier.getLast? = some r.form := by
      rw [List.getLast?_eq_getElem?, hearlier, Nat.add_sub_cancel, ← hform _ (Nat.le_refl _)]
      exact hreplaced
    obtain rfl : last = r.fill p.body := by
      simpa [← hearlier] using hfill
    refine ⟨earlier, r, rfl, ⟨?_, hearlier, fun i q hq => ?_⟩, hlast, hbefore, hp, hhead⟩
    · exact (hform 0 (Nat.zero_le _)).symm.trans h.first
    · have hi : i < ps.length := (List.getElem?_eq_some_iff.1 hq).1
      have hstep := h.step i q ((List.getElem?_append_left hi).trans hq)
      simp only [hform i (Nat.le_of_lt hi), hform (i + 1) hi] at hstep
      exact hstep

/-- What holds of the derivation without steps, and of a derivation with one more step whenever it
holds without that step, holds of every leftmost derivation. -/
@[elab_as_elim]
theorem growth {motive : (e : Derivation) → d.IsLeftmost e → Prop}
    (start : motive ⟨[[d.start]], []⟩ (.start d))
    (concat : ∀ {e : Derivation} {r : Redex} {p : Production} (h : d.IsLeftmost e)
      (hlast : e.forms.getLast? = some r.form) (hbefore : ∀ s ∈ r.before, ¬ d.IsHead s)
      (hp : p ∈ d.rules) (hhead : p.head = r.head),
      motive e h → motive ⟨e.forms ++ [r.fill p.body], e.rules ++ [p]⟩
        (h.concat hlast hbefore hp hhead))
    {e : Derivation} (h : d.IsLeftmost e) : motive e h := by
  obtain ⟨forms, ps⟩ := e
  induction ps using List.reverseRecOn generalizing forms with
  | nil =>
    obtain ⟨form, rfl⟩ := List.length_eq_one_iff.1 h.length
    obtain rfl : form = [d.start] := Option.some.inj h.first
    exact start
  | append_singleton ps p ih =>
    obtain ⟨earlier, r, rfl, hearlier, hlast, hbefore, hp, hhead⟩ := exists_of_concat h
    exact concat hearlier hlast hbefore hp hhead (ih earlier hearlier)

/-- A symbol of a form is the start symbol or comes from the body of a production. -/
theorem forms_subset (h : d.IsLeftmost e) (hd : d.WellFormed) :
    ∀ form ∈ e.forms, form ⊆ d.vocabulary := by
  have hindex : ∀ (i : Nat) (form : Form), e.forms[i]? = some form → form ⊆ d.vocabulary := by
    intro i
    induction i with
    | zero =>
      intro form hform
      obtain rfl : form = [d.start] := Option.some.inj (hform.symm.trans h.first)
      exact List.cons_subset.2 ⟨List.mem_append_right _ hd.start_mem, List.nil_subset _⟩
    | succ i ih =>
      intro form hform
      have hi : i < e.rules.length := by
        have hlt := (List.getElem?_eq_some_iff.1 hform).1
        have hlength := h.length
        omega
      obtain ⟨hp, r, -, hbefore, hafter, -⟩ := h.step i _ (List.getElem?_eq_getElem hi)
      obtain rfl : form = r.fill e.rules[i].body := Option.some.inj (hform.symm.trans hafter)
      obtain ⟨hleft, hright⟩ := List.append_subset.1 (ih r.form hbefore)
      exact List.append_subset.2 ⟨List.append_subset.2 ⟨hleft, hd.body_subset _ hp⟩,
        List.subset_of_cons_subset hright⟩
  intro form hform
  obtain ⟨i, hi⟩ := List.getElem?_of_mem hform
  exact hindex i form hi

end IsLeftmost

end Declaration

end ContextFree
