import ContextFree.Proofs.Grammar.WellFormed
import Mathlib.Data.List.Sort

/-!
# The report on a declaration is exact

A declaration is checked in stages, and all that is wrong with it is reported at once.  This module
says what there is to report without any list of faults: `Declaration.Finds` relates a `Site` of the
declaration to the fault that is found there.  Sites have an order, and the report is the list of
these faults in the order of their sites, one for each (`IsReport`).

* Reports.  `IsReport.eq` says that there is only one report.  The lemmas after it put reports
  together as lists are put together, and `IsReport.next` is the one that adds a stage.
* Stages.  There is one lemma for each, and `Declaration.isReport_faults` joins them.
* `Declaration.check_reports` is the whole contract of the check: which declarations are grammars,
  and what is said about the others.
-/

namespace ContextFree

/-! ## Sites -/

/-- Where in a declaration something can be wrong, and how.  Positions count the symbols of the
vocabulary or of a body, and rules are numbered as well, all from zero. -/
inductive Site where
  | again (position : Nat)
  | reserved (position : Nat)
  | malformed (position : Nat)
  | vocabulary
  | start
  | head (rule : Nat)
  | body (rule position : Nat)
deriving DecidableEq

namespace Site

/-- The stage of the check that looks at a site. -/
def stage : Site → Nat
  | again _ => 0
  | reserved _ => 1
  | malformed _ => 2
  | vocabulary => 3
  | start => 4
  | head _ => 5
  | body _ _ => 5

theorem stage_lt (s : Site) : s.stage < 6 := by
  cases s <;> simp [stage]

/-- Where a site is within its stage.  The head of a rule comes before its body. -/
def offset : Site → List Nat
  | again position => [position]
  | reserved position => [position]
  | malformed position => [position]
  | vocabulary => []
  | start => []
  | head rule => [rule]
  | body rule position => [rule, position]

/-- The order of sites: by their stages, and in one stage by where they are. -/
def Before (a b : Site) : Prop := a.stage :: a.offset < b.stage :: b.offset

theorem before_of_stage_lt {a b : Site} (h : a.stage < b.stage) : a.Before b :=
  List.cons_lt_cons_iff.2 (Or.inl h)

theorem before_of_offset_lt {a b : Site} (hstage : a.stage = b.stage)
    (hoffset : a.offset < b.offset) : a.Before b :=
  List.cons_lt_cons_iff.2 (Or.inr ⟨hstage, hoffset⟩)

theorem Before.asymm {a b : Site} (h : a.Before b) : ¬ b.Before a := List.lt_asymm h

theorem before_of_position_lt {a b : Site} {i j : Nat} {m n : List Nat}
    (hstage : a.stage = b.stage) (ha : a.offset = i :: m) (hb : b.offset = j :: n) (h : i < j) :
    a.Before b :=
  before_of_offset_lt hstage (by rw [ha, hb]; exact List.cons_lt_cons_iff.2 (Or.inl h))

theorem body_before {k i j : Nat} (h : i < j) : (body k i).Before (body k j) :=
  before_of_offset_lt rfl
    (List.cons_lt_cons_iff.2 (Or.inr ⟨rfl, List.cons_lt_cons_iff.2 (Or.inl h)⟩))

theorem head_before_body {k i : Nat} : (head k).Before (body k i) :=
  before_of_offset_lt rfl (List.cons_lt_cons_iff.2 (Or.inr ⟨rfl, List.nil_lt_cons i []⟩))

end Site

/-! ## Reports -/

/-- A list of faults reports what is found if it has one fault for every finding, in the order of
the sites. -/
def IsReport (found : Site → Fault → Prop) (faults : List Fault) : Prop :=
  ∃ findings : List (Site × Fault),
    findings.Pairwise (fun a b => a.1.Before b.1) ∧
      (∀ site fault, (site, fault) ∈ findings ↔ found site fault) ∧
      findings.map Prod.snd = faults

namespace IsReport

variable {P Q : Site → Fault → Prop} {xs ys : List Fault}

theorem congr (h : IsReport P xs) (hiff : ∀ site fault, P site fault ↔ Q site fault) :
    IsReport Q xs := by
  obtain ⟨findings, hsorted, hmem, hmap⟩ := h
  exact ⟨findings, hsorted, fun site fault => (hmem site fault).trans (hiff site fault), hmap⟩

/-- There is only one report on the same findings. -/
theorem eq (hxs : IsReport P xs) (hys : IsReport P ys) : xs = ys := by
  obtain ⟨findings, hsorted, hmem, rfl⟩ := hxs
  obtain ⟨findings', hsorted', hmem', rfl⟩ := hys
  let before := fun a b : Site × Fault => a.1.Before b.1
  have : Std.Asymm before := ⟨fun _ _ h => h.asymm⟩
  have hsame : findings = findings' :=
    List.Pairwise.eq_of_mem_iff (r := before) hsorted hsorted' fun a =>
      (hmem a.1 a.2).trans (hmem' a.1 a.2).symm
  rw [hsame]

theorem nil (h : ∀ site fault, ¬ P site fault) : IsReport P [] :=
  ⟨[], List.Pairwise.nil, fun site fault => by simp [h site fault], rfl⟩

/-- A fault that is found at one site unless a condition holds. -/
theorem single (c : Prop) [Decidable c] (site : Site) (fault : Fault) :
    IsReport (fun s f => ¬ c ∧ s = site ∧ f = fault) (if c then [] else [fault]) := by
  split
  · next hc => exact nil fun s f h => h.1 hc
  · next hc => exact ⟨[(site, fault)], List.pairwise_singleton _ _, fun s f => by simp [hc], rfl⟩

/-- One report after another. -/
theorem append (hxs : IsReport P xs) (hys : IsReport Q ys)
    (hbefore : ∀ a f b g, P a f → Q b g → a.Before b) :
    IsReport (fun s f => P s f ∨ Q s f) (xs ++ ys) := by
  obtain ⟨findings, hsorted, hmem, rfl⟩ := hxs
  obtain ⟨findings', hsorted', hmem', rfl⟩ := hys
  refine ⟨findings ++ findings', ?_, fun s f => ?_, List.map_append⟩
  · refine List.pairwise_append.2 ⟨hsorted, hsorted', fun a ha b hb => ?_⟩
    exact hbefore a.1 a.2 b.1 b.2 ((hmem _ _).1 ha) ((hmem' _ _).1 hb)
  · rw [List.mem_append, hmem, hmem']

/-- A report on what stands first, and then one on what stands at the later positions. -/
theorem cons {α : Type} {a : α} {rest : List α} (R : Nat → α → Site → Fault → Prop)
    (hxs : IsReport (R 0 a) xs)
    (hys : IsReport (fun s f => ∃ i b, rest[i]? = some b ∧ R (i + 1) b s f) ys)
    (hbefore : ∀ i b s f t g, R 0 a s f → R (i + 1) b t g → s.Before t) :
    IsReport (fun s f => ∃ i b, (a :: rest)[i]? = some b ∧ R i b s f) (xs ++ ys) := by
  refine (hxs.append hys fun s f t g hs ht => ?_).congr fun s f => ?_
  · obtain ⟨i, b, -, hb⟩ := ht
    exact hbefore i b s f t g hs hb
  · rw [← Nat.or_exists_add_one (p := fun i => ∃ b, (a :: rest)[i]? = some b ∧ R i b s f)]
    simp

/-- A report on each item of a list, one after another. -/
theorem flatMap {α : Type} {items : List α} {report : α → List Fault}
    (R : Nat → α → Site → Fault → Prop)
    (hitem : ∀ i, ∀ a ∈ items, IsReport (R i a) (report a))
    (hbefore : ∀ i j a b s f t g, i < j → R i a s f → R j b t g → s.Before t) :
    IsReport (fun s f => ∃ i a, items[i]? = some a ∧ R i a s f) (items.flatMap report) := by
  induction items generalizing R with
  | nil => exact nil fun s f h => by simp at h
  | cons a rest ih =>
    rw [List.flatMap_cons]
    refine cons R (hitem 0 a List.mem_cons_self) ?_ fun i b s f t g =>
      hbefore 0 (i + 1) a b s f t g (Nat.succ_pos i)
    refine ih (fun i => R (i + 1)) (fun i b hb => hitem (i + 1) b (List.mem_cons_of_mem a hb)) ?_
    exact fun i j a b s f t g hij => hbefore (i + 1) (j + 1) a b s f t g (Nat.succ_lt_succ hij)

/-- The members of a list that have a property are reported one by one. -/
theorem filter (symbols : List Symbol) (bad : Symbol → Bool) (place : Nat → Site)
    (about : Symbol → Fault) (hplace : ∀ i j, i < j → (place i).Before (place j)) :
    IsReport
      (fun s f => ∃ i a, symbols[i]? = some a ∧ bad a = true ∧ s = place i ∧ f = about a)
      ((symbols.filter bad).map about) := by
  have hfilter : (symbols.filter bad).map about =
      symbols.flatMap fun a => if bad a = false then [] else [about a] := by
    induction symbols with
    | nil => rfl
    | cons a rest ih =>
      rw [List.flatMap_cons, ← ih, List.filter_cons]
      cases bad a with
      | true => rfl
      | false => rfl
  rw [hfilter]
  refine (flatMap (fun i a s f => ¬ bad a = false ∧ s = place i ∧ f = about a)
    (fun i a _ => single (bad a = false) (place i) (about a)) ?_).congr fun s f => ?_
  · rintro i j a b s f t g hij ⟨-, rfl, -⟩ ⟨-, rfl, -⟩
    exact hplace i j hij
  · simp only [Bool.not_eq_false]

/-- What is found at a stage comes after what is found earlier. -/
theorem next {k : Nat} (hxs : IsReport (fun s f => P s f ∧ s.stage < k) xs)
    (hys : IsReport (fun s f => P s f ∧ s.stage = k) ys) :
    IsReport (fun s f => P s f ∧ s.stage < k + 1) (xs ++ ys) := by
  refine (hxs.append hys fun s f t g hs ht => ?_).congr fun s f => ?_
  · exact Site.before_of_stage_lt (ht.2 ▸ hs.2)
  · rw [← and_or_left, Nat.lt_succ_iff_lt_or_eq]

end IsReport

/-! ## What is found -/

/-- What is wrong with a declaration, site by site. -/
inductive Declaration.Finds (d : Declaration) : Site → Fault → Prop where
  /-- A symbol that stands at an earlier position as well. -/
  | again {i : Nat} {s : Symbol} (hs : d.vocabulary[i]? = some s)
      (hearlier : s ∈ d.vocabulary.take i) : Finds d (.again i) (.duplicateSymbol s)
  /-- A symbol that the automaton reserves. -/
  | reserved {i : Nat} {s : Symbol} (hs : d.vocabulary[i]? = some s)
      (hreserved : s = .bottom ∨ s = .nothing) : Finds d (.reserved i) (.reservedSymbol s)
  /-- A symbol without letters, or with a character that separates words. -/
  | malformed {i : Nat} {s : Symbol} (hs : d.vocabulary[i]? = some s)
      (hmalformed : ¬ (s.text ≠ [] ∧
        ∀ c ∈ s.text, isBlank c = false ∧ c ∉ Symbol.punctuation)) :
      Finds d (.malformed i) (.malformedSymbol s)
  /-- Two sequences of symbols and bottom markers that are written the same. -/
  | vocabulary (hambiguous : ¬ (d.vocabulary ++ [Symbol.bottom]).Unambiguous) :
      Finds d .vocabulary .ambiguousVocabulary
  /-- A start symbol that no production may replace. -/
  | start (hstart : d.start ∉ d.heads) : Finds d .start (.undefinedStart d.start)
  /-- A head that no production may replace. -/
  | head {k : Nat} {p : Production} (hp : d.rules[k]? = some p) (hhead : p.head ∉ d.heads) :
      Finds d (.head k) (.undefinedHead p.head)
  /-- A symbol of a body that is in neither vocabulary. -/
  | body {k i : Nat} {p : Production} {s : Symbol} (hp : d.rules[k]? = some p)
      (hs : p.body[i]? = some s) (hinputs : s ∉ d.inputs) (hheads : s ∉ d.heads) :
      Finds d (.body k i) (.undefinedSymbol s)

/-! ## Stages -/

/-- What is reported as repeated: the members that were seen before or stand further left. -/
theorem Symbol.isReport_repeatsAfter (seen symbols : List Symbol) (place : Nat → Site)
    (hplace : ∀ i j, i < j → (place i).Before (place j)) :
    IsReport
      (fun s f => ∃ i a, symbols[i]? = some a ∧
        (a ∈ seen ∨ a ∈ symbols.take i) ∧ s = place i ∧ f = .duplicateSymbol a)
      ((repeatsAfter seen symbols).map .duplicateSymbol) := by
  induction symbols generalizing seen place with
  | nil => exact IsReport.nil fun s f h => by simp at h
  | cons a rest ih =>
    have hlater : ∀ i j, i < j → (place (i + 1)).Before (place (j + 1)) := fun i j hij =>
      hplace (i + 1) (j + 1) (Nat.succ_lt_succ hij)
    -- Whether or not the first symbol is new, it counts as seen for the rest.
    have hsplit : (repeatsAfter seen (a :: rest)).map Fault.duplicateSymbol =
        (if a ∉ seen then [] else [.duplicateSymbol a]) ++
          (repeatsAfter (if a ∈ seen then seen else a :: seen) rest).map .duplicateSymbol := by
      by_cases ha : a ∈ seen
      · simp [repeatsAfter, ha]
      · simp [repeatsAfter, ha]
    have hseen : ∀ b, b ∈ (if a ∈ seen then seen else a :: seen) ↔ b ∈ seen ∨ b = a := by
      intro b
      split
      · next ha => exact ⟨Or.inl, fun h => h.elim id fun heq => heq ▸ ha⟩
      · rw [List.mem_cons, or_comm]
    rw [hsplit]
    refine IsReport.cons
      (fun i b s f => (b ∈ seen ∨ b ∈ (a :: rest).take i) ∧ s = place i ∧ f = .duplicateSymbol b)
      ?_ ?_ ?_
    · exact (IsReport.single (a ∉ seen) (place 0) (.duplicateSymbol a)).congr fun s f => by simp
    · refine (ih _ (fun i => place (i + 1)) hlater).congr fun s f => ?_
      simp only [hseen, List.take_succ_cons, List.mem_cons, or_assoc]
    · rintro i b s f t g ⟨-, rfl, -⟩ ⟨-, rfl, -⟩
      exact hplace 0 (i + 1) (Nat.succ_pos i)

namespace Declaration

variable {d : Declaration}

theorem isReport_duplicates :
    IsReport (fun s f => d.Finds s f ∧ s.stage = 0)
      ((Symbol.repeatsAfter [] d.vocabulary).map .duplicateSymbol) := by
  refine (Symbol.isReport_repeatsAfter [] d.vocabulary .again
    fun _ _ => Site.before_of_position_lt rfl rfl rfl).congr fun s f => ⟨?_, ?_⟩
  · rintro ⟨i, a, ha, hearlier, rfl, rfl⟩
    exact ⟨.again ha (by simpa using hearlier), rfl⟩
  · rintro ⟨hfinds, hstage⟩
    cases hfinds with
    | @again i a ha hearlier => exact ⟨i, a, ha, Or.inr hearlier, rfl, rfl⟩
    | _ => cases hstage

theorem isReport_reserved :
    IsReport (fun s f => d.Finds s f ∧ s.stage = 1)
      ((d.vocabulary.filter (Symbol.reserved.contains ·)).map .reservedSymbol) := by
  have hreserved : ∀ a : Symbol,
      Symbol.reserved.contains a = true ↔ a = .bottom ∨ a = .nothing := by simp [Symbol.reserved]
  refine (IsReport.filter d.vocabulary _ .reserved .reservedSymbol
    fun _ _ => Site.before_of_position_lt rfl rfl rfl).congr fun s f => ⟨?_, ?_⟩
  · rintro ⟨i, a, ha, hbad, rfl, rfl⟩
    exact ⟨.reserved ha ((hreserved a).1 hbad), rfl⟩
  · rintro ⟨hfinds, hstage⟩
    cases hfinds with
    | @reserved i a ha hbad => exact ⟨i, a, ha, (hreserved a).2 hbad, rfl, rfl⟩
    | _ => cases hstage

theorem isReport_malformed :
    IsReport (fun s f => d.Finds s f ∧ s.stage = 2)
      ((d.vocabulary.filter Symbol.isMalformed).map .malformedSymbol) := by
  have hmalformed : ∀ a : Symbol, a.isMalformed = true ↔
      ¬ (a.text ≠ [] ∧ ∀ c ∈ a.text, isBlank c = false ∧ c ∉ Symbol.punctuation) := fun a => by
    rw [← Symbol.isMalformed_eq_false_iff, Bool.not_eq_false]
  refine (IsReport.filter d.vocabulary _ .malformed .malformedSymbol
    fun _ _ => Site.before_of_position_lt rfl rfl rfl).congr fun s f => ⟨?_, ?_⟩
  · rintro ⟨i, a, ha, hbad, rfl, rfl⟩
    exact ⟨.malformed ha ((hmalformed a).1 hbad), rfl⟩
  · rintro ⟨hfinds, hstage⟩
    cases hfinds with
    | @malformed i a ha hbad => exact ⟨i, a, ha, (hmalformed a).2 hbad, rfl, rfl⟩
    | _ => cases hstage

theorem isReport_ambiguous :
    IsReport (fun s f => d.Finds s f ∧ s.stage = 3)
      (if Vocabulary.isDecodable (d.vocabulary ++ [Symbol.bottom]) then []
        else [.ambiguousVocabulary]) := by
  have hdecodable : Vocabulary.isDecodable (d.vocabulary ++ [Symbol.bottom]) = true ↔
      (d.vocabulary ++ [Symbol.bottom]).Unambiguous := by
    rw [Vocabulary.unambiguous_iff, ← Vocabulary.isDecodable_iff_overhang]
  refine (IsReport.single _ .vocabulary .ambiguousVocabulary).congr fun s f => ⟨?_, ?_⟩
  · rintro ⟨hambiguous, rfl, rfl⟩
    exact ⟨.vocabulary (mt hdecodable.2 hambiguous), rfl⟩
  · rintro ⟨hfinds, hstage⟩
    cases hfinds with
    | vocabulary hambiguous => exact ⟨mt hdecodable.1 hambiguous, rfl, rfl⟩
    | _ => cases hstage

theorem isReport_startFaults :
    IsReport (fun s f => d.Finds s f ∧ s.stage = 4) d.startFaults := by
  refine (IsReport.single _ .start (.undefinedStart d.start)).congr fun s f => ⟨?_, ?_⟩
  · rintro ⟨hstart, rfl, rfl⟩
    exact ⟨.start hstart, rfl⟩
  · rintro ⟨hfinds, hstage⟩
    cases hfinds with
    | start hstart => exact ⟨hstart, rfl, rfl⟩
    | _ => cases hstage

/-- The report on one production: its head, and then its body. -/
theorem isReport_ruleFaults (k : Nat) (p : Production) :
    IsReport
      (fun s f => (p.head ∉ d.heads ∧ s = .head k ∧ f = .undefinedHead p.head) ∨
        ∃ i a, p.body[i]? = some a ∧
          (a ∉ d.vocabulary) ∧ s = .body k i ∧ f = .undefinedSymbol a)
      (d.ruleFaults p) := by
  have hbody := IsReport.filter p.body (· ∉ d.vocabulary) (.body k) .undefinedSymbol
    fun _ _ => Site.body_before
  simp only [decide_eq_true_eq] at hbody
  refine (IsReport.single _ (.head k) (.undefinedHead p.head)).append hbody ?_
  rintro s f t g ⟨-, rfl, -⟩ ⟨i, a, -, -, rfl, -⟩
  exact Site.head_before_body

theorem isReport_rules :
    IsReport (fun s f => d.Finds s f ∧ s.stage = 5) (d.rules.flatMap d.ruleFaults) := by
  refine (IsReport.flatMap _ (fun k p _ => isReport_ruleFaults k p) ?_).congr
    fun s f => ⟨?_, ?_⟩
  · intro k l p q s f t g hkl hs ht
    rcases hs with ⟨-, rfl, -⟩ | ⟨i, a, -, -, rfl, -⟩ <;>
    rcases ht with ⟨-, rfl, -⟩ | ⟨j, b, -, -, rfl, -⟩ <;>
    exact Site.before_of_position_lt rfl rfl rfl hkl
  · rintro ⟨k, p, hp, ⟨hhead, rfl, rfl⟩ | ⟨i, a, ha, hnew, rfl, rfl⟩⟩
    · exact ⟨.head hp hhead, rfl⟩
    · rw [vocabulary, List.mem_append, not_or] at hnew
      exact ⟨.body hp ha hnew.1 hnew.2, rfl⟩
  · rintro ⟨hfinds, hstage⟩
    cases hfinds with
    | @head k p hp hhead => exact ⟨k, p, hp, Or.inl ⟨hhead, rfl, rfl⟩⟩
    | @body k i p a hp ha hinputs hheads =>
      refine ⟨k, p, hp, Or.inr ⟨i, a, ha, ?_, rfl, rfl⟩⟩
      rw [vocabulary, List.mem_append, not_or]
      exact ⟨hinputs, hheads⟩
    | _ => cases hstage

/-- The faults of a declaration report what is wrong with it. -/
theorem isReport_faults (d : Declaration) : IsReport d.Finds d.faults := by
  have hnone : IsReport (fun s f => d.Finds s f ∧ s.stage < 0) [] :=
    IsReport.nil fun s f h => Nat.not_lt_zero _ h.2
  have hall := hnone.next isReport_duplicates |>.next isReport_reserved |>.next isReport_malformed
    |>.next isReport_ambiguous |>.next isReport_startFaults |>.next isReport_rules
  exact hall.congr fun s f => and_iff_left s.stage_lt

/-! ## The check -/

/-- The check of a declaration gives a grammar exactly if the declared symbols are told apart, each
alone and in sequences with the bottom marker, and all that is used is declared where it has to be.
Otherwise it gives the report of what is wrong. -/
theorem check_reports (d : Declaration) :
    ((∃ g : Grammar, d.check = .ok g ∧ g.toDeclaration = d) ↔
      d.vocabulary.Nodup ∧
        (∀ s ∈ d.vocabulary, s ≠ .bottom ∧ s ≠ .nothing ∧ s.text ≠ [] ∧
          ∀ c ∈ s.text, isBlank c = false ∧ c ∉ Symbol.punctuation) ∧
        (d.vocabulary ++ [Symbol.bottom]).Unambiguous ∧
        d.start ∈ d.heads ∧
        ∀ p ∈ d.rules, p.head ∈ d.heads ∧ ∀ s ∈ p.body, s ∈ d.inputs ∨ s ∈ d.heads) ∧
      ∀ faults, d.check = .error faults ↔ faults ≠ [] ∧ IsReport d.Finds faults := by
  have hused : ∀ p : Production,
      p.body ⊆ d.vocabulary ↔ ∀ s ∈ p.body, s ∈ d.inputs ∨ s ∈ d.heads := fun p => by
    simp only [List.subset_def, vocabulary, List.mem_append]
  refine ⟨exists_check_eq_ok_iff.trans ⟨?_, ?_⟩, fun faults => ?_⟩
  · intro h
    refine ⟨h.nodup, fun s hs => ?_, h.unambiguous, h.start_mem, fun p hp => ?_⟩
    · have hreserved := h.not_reserved s hs
      have hmalformed := Symbol.isMalformed_eq_false_iff.1 (h.not_malformed s hs)
      simp only [Symbol.reserved, List.mem_cons, List.not_mem_nil, or_false, not_or] at hreserved
      exact ⟨hreserved.1, hreserved.2, hmalformed⟩
    · exact ⟨h.head_mem p hp, (hused p).1 (h.body_subset p hp)⟩
  · rintro ⟨hnodup, hsymbols, hunambiguous, hstart, hrules⟩
    refine ⟨hnodup, fun s hs => ?_, fun s hs => ?_, hunambiguous, hstart,
      fun p hp => (hrules p hp).1, fun p hp => (hused p).2 (hrules p hp).2⟩
    · obtain ⟨hbottom, hnothing, -⟩ := hsymbols s hs
      simp [Symbol.reserved, hbottom, hnothing]
    · obtain ⟨-, -, hmade⟩ := hsymbols s hs
      exact Symbol.isMalformed_eq_false_iff.2 hmade
  · rw [check_eq_error_iff, and_comm]
    refine and_congr_right fun _ => ⟨?_, fun h => d.isReport_faults.eq h⟩
    rintro rfl
    exact d.isReport_faults

end Declaration

end ContextFree
