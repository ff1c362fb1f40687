import ContextFree.Proofs.Derivation.Possible
import ContextFree.Proofs.Text.Cut
import ContextFree.Proofs.Vocabulary.Split

/-!
# Written derivations

A derivation is written without its productions, and its forms without anything between their
symbols.  For a leftmost derivation of a grammar nothing is lost by this.

* `IsLeftmost.eq_of_forms_eq` finds the productions again: the forms before and after a step say
  which production was used.
* `Grammar.pieces_render` finds the forms again: no declared symbol has the arrow's equals sign, and
  the vocabulary is unambiguous.
* `Grammar.eq_of_render_eq` puts both together for derivations that were drawn at random.
-/

namespace ContextFree

/-! ## Productions from forms -/

/-- What was filled in can be told from the filled form and its place. -/
theorem Redex.fill_injective (r : Redex) : Function.Injective r.fill := by
  intro body other h
  exact List.append_cancel_left (List.append_cancel_right h)

namespace Declaration.IsLeftmost

variable {d : Declaration} {e f : Derivation}

/-- A step is taken at the place that `redex?` finds, and fills in the body of its production. -/
theorem redex?_of_step (h : d.IsLeftmost e) {i : Nat} {p : Production}
    (hp : e.rules[i]? = some p) :
    ∃ form r, e.forms[i]? = some form ∧ d.redex? form = some r ∧ p.head = r.head ∧
      e.forms[i + 1]? = some (r.fill p.body) := by
  obtain ⟨hmem, r, hhead, hform, hnext, hbefore⟩ := h.step i p hp
  exact ⟨r.form, r, hform, redex?_eq_some_iff.2 ⟨rfl, ⟨p, hmem, hhead⟩, hbefore⟩, hhead, hnext⟩

/-- Where two derivations agree on the forms before and after a step, they use the same
production. -/
theorem rule_eq_of_forms_eq (he : d.IsLeftmost e) (hf : d.IsLeftmost f) {i : Nat}
    (hform : e.forms[i]? = f.forms[i]?) (hnext : e.forms[i + 1]? = f.forms[i + 1]?)
    {p q : Production} (hp : e.rules[i]? = some p) (hq : f.rules[i]? = some q) : p = q := by
  obtain ⟨form, r, hbefore, hredex, hhead, hafter⟩ := he.redex?_of_step hp
  obtain ⟨form', r', hbefore', hredex', hhead', hafter'⟩ := hf.redex?_of_step hq
  obtain rfl : form = form' := Option.some.inj (hbefore.symm.trans (hform.trans hbefore'))
  obtain rfl : r = r' := Option.some.inj (hredex.symm.trans hredex')
  have hfill : r.fill p.body = r.fill q.body :=
    Option.some.inj (hafter.symm.trans (hnext.trans hafter'))
  have hbody : p.body = q.body := r.fill_injective hfill
  cases p
  cases q
  exact congrArg₂ Production.mk (hhead.trans hhead'.symm) hbody

/-- The forms of a leftmost derivation determine its productions. -/
theorem eq_of_forms_eq (he : d.IsLeftmost e) (hf : d.IsLeftmost f) (h : e.forms = f.forms) :
    e = f := by
  have hlength : e.rules.length = f.rules.length := by
    have hforms := congrArg List.length h
    rw [he.length, hf.length] at hforms
    exact Nat.succ.inj hforms
  have hrules : e.rules = f.rules := by
    refine List.ext_getElem hlength fun i hi hi' => ?_
    exact he.rule_eq_of_forms_eq hf (by rw [h]) (by rw [h]) (List.getElem?_eq_getElem hi)
      (List.getElem?_eq_getElem hi')
  cases e
  cases f
  exact congrArg₂ Derivation.mk h hrules

end Declaration.IsLeftmost

/-! ## Forms from the text -/

/-- Punctuation is not spelled by well-made symbols. -/
theorem Symbol.not_mem_spell {symbols : List Symbol}
    (hsymbols : ∀ s ∈ symbols, s.isMalformed = false) {c : Char} (hc : c ∈ punctuation) :
    c ∉ spell symbols := by
  intro hmem
  obtain ⟨s, hs, hletter⟩ := List.mem_flatMap.1 hmem
  exact not_mem_of_mem_punctuation (hsymbols s hs) hc hletter

namespace Grammar

variable {g : Grammar} {e f : Derivation}

/-- The text of a leftmost derivation is cut at its arrows into the spellings of its forms. -/
theorem pieces_render (h : g.IsLeftmost e) :
    e.render.pieces " => ".toList = e.forms.map Symbol.spell := by
  have hne : e.forms.map Symbol.spell ≠ [] := mt List.map_eq_nil_iff.1 h.forms_ne_nil
  have harrow : '=' ∉ [' '] := by decide
  refine Text.pieces_intercalate harrow ['>', ' '] hne fun text htext => ?_
  obtain ⟨form, hform, rfl⟩ := List.mem_map.1 htext
  have hsub := h.forms_subset g.wellFormed form hform
  exact Symbol.not_mem_spell (fun s hs => g.wellFormed.not_malformed s (hsub hs)) (by decide)

/-- The pieces between the arrows split into the forms. -/
theorem split?_pieces_render (h : g.IsLeftmost e) :
    (e.render.pieces " => ".toList).map g.vocabulary.split? = e.forms.map some := by
  rw [pieces_render h, List.map_map]
  refine List.map_congr_left fun form hform => ?_
  exact g.wellFormed.unambiguous_vocabulary.split?_spell (h.forms_subset g.wellFormed form hform)

/-- Leftmost derivations that are written alike have the same forms. -/
theorem forms_eq_of_render_eq (he : g.IsLeftmost e) (hf : g.IsLeftmost f)
    (h : e.render = f.render) : e.forms = f.forms := by
  have hforms : e.forms.map some = f.forms.map some := by
    rw [← split?_pieces_render he, h, split?_pieces_render hf]
  exact (List.map_inj_right fun _ _ => Option.some.inj).1 hforms

/-- What is written of a derivation that was drawn at random determines it, with its productions,
whatever words and limits were given.  The pieces of the text between the arrows are split into the
forms over the vocabulary of the grammar. -/
theorem eq_of_render_eq (g : Grammar) {words words' rest rest' : Words} {limit limit' : Nat}
    {d e : Derivation} (hd : g.derive words limit = (.ok d, rest))
    (he : g.derive words' limit' = (.ok e, rest')) :
    (d.render = e.render → d = e) ∧
      (d.render.pieces " => ".toList).map g.vocabulary.split? = d.forms.map some := by
  have hd := isLeftmost_of_derive hd
  have he := isLeftmost_of_derive he
  exact ⟨fun h => hd.eq_of_forms_eq he (forms_eq_of_render_eq hd he h), split?_pieces_render hd⟩

/-- Two derivations of `nested` are written differently.  The last form of the first one is empty,
and so is what is written after its last arrow. -/
theorem nested_eq_of_render_eq :
    let d : Derivation := ⟨[["S"], []], [⟨"S", []⟩]⟩
    nested.derive ⟨[0x80000000], 0⟩ 1 = (.ok d, ⟨[], 1⟩) ∧
      nested.derive ⟨[0, 0x80000000, 0], 0⟩ 3 = (.ok nestedDerivation, ⟨[], 3⟩) ∧
      d.render ≠ nestedDerivation.render ∧
      (d.render.pieces " => ".toList).map nested.vocabulary.split? = d.forms.map some := by
  intro d
  have hd : nested.derive ⟨[0x80000000], 0⟩ 1 = (.ok d, ⟨[], 1⟩) := by decide +kernel
  have he : nested.derive ⟨[0, 0x80000000, 0], 0⟩ 3 = (.ok nestedDerivation, ⟨[], 3⟩) := by
    decide +kernel
  obtain ⟨heq, hpieces⟩ := eq_of_render_eq nested hd he
  have hne : d ≠ nestedDerivation := by decide
  exact ⟨hd, he, mt heq hne, hpieces⟩

end Grammar

end ContextFree
