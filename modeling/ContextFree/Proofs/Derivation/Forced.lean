import ContextFree.Proofs.Derivation.Rendering
import Mathlib.Logic.Function.Iterate

/-!
# Derivations without a choice

Where no symbol is the head of two different productions, every leftmost step is forced, and random
words have no say in a derivation.  The same production may still be declared several times, and a
draw takes words even where there is one candidate, so two sources do not deal the same number of
words.

* `Declaration.replaced` replaces the first head of a production in a form, without drawing.
* `IsLeftmost.getElem?_forms` says that the forms of a leftmost derivation are what repeated
  replacement gives.  `IsLeftmost.exists_head` and `IsLeftmost.eq_of_ended` say how long it goes on,
  and that there is one derivation that has come to its end.
* `Grammar.derive_forced` compares two sources of words.
-/

namespace ContextFree

namespace Declaration

variable {d : Declaration}

/-! ## Forced steps -/

/-- Whether no symbol is the head of two different productions. -/
def LeavesNoChoice (d : Declaration) : Prop :=
  ∀ p ∈ d.rules, ∀ q ∈ d.rules, p.head = q.head → p = q

/-- The form with its first head of a production replaced by the body of the first production for
it.  A form without heads stays as it is. -/
def replaced (d : Declaration) : Form → Form
  | [] => []
  | s :: rest =>
    match d.rules.find? fun p => p.head = s with
    | some p => p.body ++ rest
    | none => s :: d.replaced rest

theorem find?_eq_none_iff {s : Symbol} :
    (d.rules.find? fun p => p.head = s) = none ↔ ¬ d.IsHead s := by
  simp [IsHead]

/-- Without a choice it does not matter which production for a symbol comes first. -/
theorem LeavesNoChoice.find?_eq (hd : d.LeavesNoChoice) {p : Production} (hp : p ∈ d.rules) :
    (d.rules.find? fun q => q.head = p.head) = some p := by
  cases hfind : d.rules.find? fun q => q.head = p.head with
  | none => exact absurd ⟨p, hp, rfl⟩ (find?_eq_none_iff.1 hfind)
  | some q =>
    have hhead : q.head = p.head := by simpa using List.find?_some hfind
    rw [hd q (List.mem_of_find?_eq_some hfind) p hp hhead]

/-- A leftmost step is the replacement. -/
theorem LeavesNoChoice.replaced_form (hd : d.LeavesNoChoice) {r : Redex} {p : Production}
    (hp : p ∈ d.rules) (hhead : p.head = r.head) (hbefore : ∀ s ∈ r.before, ¬ d.IsHead s) :
    d.replaced r.form = r.fill p.body := by
  obtain ⟨before, head, after⟩ := r
  obtain rfl : p.head = head := hhead
  induction before with
  | nil =>
    show d.replaced (p.head :: after) = p.body ++ after
    rw [replaced, hd.find?_eq hp]
  | cons s before ih =>
    obtain ⟨hs, hbefore⟩ := List.forall_mem_cons.1 hbefore
    show d.replaced (s :: (before ++ p.head :: after)) = s :: (before ++ p.body ++ after)
    rw [replaced, find?_eq_none_iff.2 hs]
    exact congrArg _ (ih hbefore)

namespace IsLeftmost

variable {e f : Derivation}

/-- The forms of a leftmost derivation are what repeated replacement gives. -/
theorem getElem?_forms (h : d.IsLeftmost e) (hd : d.LeavesNoChoice) {i : Nat}
    (hi : i ≤ e.rules.length) : e.forms[i]? = some (d.replaced^[i] [d.start]) := by
  induction i with
  | zero => exact h.first
  | succ i ih =>
    obtain ⟨hp, r, hhead, hform, hnext, hbefore⟩ := h.step i _ (List.getElem?_eq_getElem hi)
    have hr : r.form = d.replaced^[i] [d.start] :=
      Option.some.inj (hform.symm.trans (ih (Nat.le_of_succ_le hi)))
    rw [hnext, Function.iterate_succ_apply', ← hr, hd.replaced_form hp hhead hbefore]

theorem sentence_eq_iterate (h : d.IsLeftmost e) (hd : d.LeavesNoChoice) :
    e.sentence = d.replaced^[e.rules.length] [d.start] := by
  have hlast := h.getElem?_forms hd (Nat.le_refl _)
  rw [Derivation.sentence, List.getLast?_eq_getElem?, h.length, Nat.add_sub_cancel, hlast]
  rfl

/-- Before the end of a derivation there is a head to replace. -/
theorem exists_head (h : d.IsLeftmost e) (hd : d.LeavesNoChoice) {i : Nat}
    (hi : i < e.rules.length) : ∃ s ∈ d.replaced^[i] [d.start], d.IsHead s := by
  obtain ⟨hp, r, hhead, hform, -, -⟩ := h.step i _ (List.getElem?_eq_getElem hi)
  have hr := Option.some.inj (hform.symm.trans (h.getElem?_forms hd (Nat.le_of_lt hi)))
  rw [← hr]
  exact ⟨r.head, by simp [Redex.form], _, hp, hhead⟩

/-- Without a choice two derivations that have come to their end are the same. -/
theorem eq_of_ended (he : d.IsLeftmost e) (hf : d.IsLeftmost f) (hd : d.LeavesNoChoice)
    (hedone : ∀ s ∈ e.sentence, ¬ d.IsHead s) (hfdone : ∀ s ∈ f.sentence, ¬ d.IsHead s) :
    e = f := by
  have hle : ∀ {e f : Derivation}, d.IsLeftmost e → d.IsLeftmost f →
      (∀ s ∈ f.sentence, ¬ d.IsHead s) → e.rules.length ≤ f.rules.length := by
    intro e f he hf hfdone
    refine Nat.le_of_not_lt fun hlt => ?_
    obtain ⟨s, hs, hhead⟩ := he.exists_head hd hlt
    exact hfdone s (hf.sentence_eq_iterate hd ▸ hs) hhead
  have hlength : e.rules.length = f.rules.length :=
    Nat.le_antisymm (hle he hf hfdone) (hle hf he hedone)
  refine he.eq_of_forms_eq hf (List.ext_getElem? fun i => ?_)
  rcases Nat.lt_or_ge e.rules.length i with hi | hi
  · rw [List.getElem?_eq_none (by rw [he.length]; omega),
      List.getElem?_eq_none (by rw [hf.length]; omega)]
  · rw [he.getElem?_forms hd hi, hf.getElem?_forms hd (hlength ▸ hi)]

end IsLeftmost

end Declaration

/-! ## Random words -/

namespace Grammar

variable {g : Grammar} {words : Words} {limit : Nat} {e : Derivation}

/-- What is derived ends where repeated replacement leaves no head. -/
theorem forms_of_derive (hd : g.LeavesNoChoice) (h : (g.derive words limit).1 = .ok e) :
    (∀ i ≤ e.rules.length, e.forms[i]? = some (g.replaced^[i] [g.start])) ∧
      e.rules.length ≤ limit ∧
      ∀ s ∈ g.replaced^[e.rules.length] [g.start], ¬ g.IsHead s := by
  obtain ⟨hleftmost, hle, hdone⟩ := ended_of_derive (Prod.ext h rfl)
  rw [hleftmost.sentence_eq_iterate hd] at hdone
  exact ⟨fun i hi => hleftmost.getElem?_forms hd hi, hle, hdone⟩

/-- Where the limit is exceeded, repeated replacement leaves a head up to the limit. -/
theorem exists_head_of_exceeded (hd : g.LeavesNoChoice) {refusal : StepLimitExceeded}
    (h : (g.derive words limit).1 = .error refusal) :
    refusal = ⟨limit⟩ ∧ ∀ n ≤ limit, ∃ s ∈ g.replaced^[n] [g.start], g.IsHead s := by
  have hderive := g.derive_isLeftmost words limit
  rw [← Prod.mk.eta (p := g.derive words limit), h] at hderive
  obtain ⟨hrefusal, e, hleftmost, rfl, hopen, -⟩ := hderive
  refine ⟨hrefusal, fun n hn => ?_⟩
  rcases Nat.lt_or_eq_of_le hn with hlt | rfl
  · exact hleftmost.exists_head hd hlt
  · rw [← hleftmost.sentence_eq_iterate hd]
    exact hopen

/-- A derivation is given if repeated replacement leaves no head within the limit. -/
theorem exists_derive_iff (hd : g.LeavesNoChoice) :
    (∃ e, (g.derive words limit).1 = .ok e) ↔
      ∃ n ≤ limit, ∀ s ∈ g.replaced^[n] [g.start], ¬ g.IsHead s := by
  constructor
  · intro h
    obtain ⟨e, he⟩ := h
    obtain ⟨-, hle, hdone⟩ := forms_of_derive hd he
    exact ⟨e.rules.length, hle, hdone⟩
  · intro h
    obtain ⟨n, hn, hdone⟩ := h
    cases hderive : (g.derive words limit).1 with
    | ok e => exact ⟨e, rfl⟩
    | error refusal =>
      obtain ⟨s, hs, hhead⟩ := (exists_head_of_exceeded hd hderive).2 n hn
      exact absurd hhead (hdone s hs)

/-- Where no symbol is the head of two different productions, random words make no difference.

Whatever the two sources deal, and whatever the limit is, the same derivation is given, or the same
limit is exceeded.  A derivation is given exactly if repeated replacement of the first head comes to
a form without heads within the limit, and its forms are the ones that are passed on the way. -/
theorem derive_forced (g : Grammar) (hd : g.LeavesNoChoice) (words words' : Words) (limit : Nat) :
    (g.derive words limit).1 = (g.derive words' limit).1 ∧
      ((∃ e, (g.derive words limit).1 = .ok e) ↔
        ∃ n ≤ limit, ∀ s ∈ g.replaced^[n] [g.start], ¬ g.IsHead s) ∧
      ∀ e, (g.derive words limit).1 = .ok e →
        ∀ i ≤ e.rules.length, e.forms[i]? = some (g.replaced^[i] [g.start]) := by
  refine ⟨?_, exists_derive_iff hd, fun e he => (forms_of_derive hd he).1⟩
  cases hfirst : (g.derive words limit).1 with
  | ok e =>
    obtain ⟨f, hsecond⟩ := (exists_derive_iff hd).2 ((exists_derive_iff hd).1 ⟨e, hfirst⟩)
    obtain ⟨heleft, -, hedone⟩ := ended_of_derive (Prod.ext hfirst rfl)
    obtain ⟨hfleft, -, hfdone⟩ := ended_of_derive (Prod.ext hsecond rfl)
    rw [hsecond, heleft.eq_of_ended hfleft hd hedone hfdone]
  | error refusal =>
    cases hsecond : (g.derive words' limit).1 with
    | ok f =>
      have hends : ∃ e, (g.derive words limit).1 = .ok e :=
        (exists_derive_iff hd).2 ((exists_derive_iff hd).1 ⟨f, hsecond⟩)
      simp [hfirst] at hends
    | error other =>
      rw [(exists_head_of_exceeded hd hfirst).1, (exists_head_of_exceeded hd hsecond).1]

/-- A grammar with two productions, one of which is declared twice. -/
def repeating : Grammar where
  inputs := ["a", "b"]
  heads := ["S", "T"]
  start := "S"
  rules := [⟨"S", ["a", "T"]⟩, ⟨"S", ["a", "T"]⟩, ⟨"T", ["b"]⟩]
  faults_eq_nil := by decide +kernel

/-- One word chooses the second of the equal productions, and the same word is then passed over for
the only candidate.  Without these words zeros are dealt, and the same derivation takes one word
less.  One step is too few for it in both cases. -/
theorem repeating_derive_forced :
    repeating.LeavesNoChoice ∧
      (repeating.derive ⟨[0x80000000, 0x80000000], 0⟩ 2).1 = (repeating.derive ⟨[], 0⟩ 2).1 ∧
      (repeating.derive ⟨[], 0⟩ 2).1 = .ok
        ⟨[["S"], ["a", "T"], ["a", "b"]], [⟨"S", ["a", "T"]⟩, ⟨"T", ["b"]⟩]⟩ ∧
      (repeating.derive ⟨[0x80000000, 0x80000000], 0⟩ 2).2.taken = 3 ∧
      (repeating.derive ⟨[], 0⟩ 2).2.taken = 2 ∧
      (repeating.derive ⟨[0x80000000, 0x80000000], 0⟩ 1).1 = (repeating.derive ⟨[], 0⟩ 1).1 ∧
      (repeating.derive ⟨[], 0⟩ 1).1 = .error ⟨1⟩ := by
  have hchoice : repeating.LeavesNoChoice := by
    show ∀ p ∈ repeating.rules, ∀ q ∈ repeating.rules, p.head = q.head → p = q
    decide
  obtain ⟨htwo, -⟩ := derive_forced repeating hchoice ⟨[0x80000000, 0x80000000], 0⟩ ⟨[], 0⟩ 2
  obtain ⟨hone, -⟩ := derive_forced repeating hchoice ⟨[0x80000000, 0x80000000], 0⟩ ⟨[], 0⟩ 1
  exact ⟨hchoice, htwo, by decide +kernel, by decide +kernel, by decide +kernel, hone,
    by decide +kernel⟩

end Grammar

end ContextFree
