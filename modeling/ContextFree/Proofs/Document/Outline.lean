import ContextFree.Proofs.Document.ByLine
import Mathlib.Data.List.Induction

/-!
# What the statements of a document add up to

An outline grows statement by statement.  This module says what it is in the end, and what was wrong
on the way, in terms of what the lines of the document say.

* Sections.  Of all contents of a section, the last one counts (`IsLast`).
* Refusals.  `Statement.Refused` says what is wrong with a statement, given what was said before it.
* Outlines.  `Outline.Sums` is the invariant of adding statements: `Outline.Sums.next` adds one of
  them, and `Outline.sums_addAll` is the induction on the lines.
-/

namespace ContextFree

/-! ## The last content -/

/-- Of what is given on lines, the last one counts. -/
def IsLast {α : Type} (given : Nat → α → Prop) : Option α → Prop
  | none => ∀ number a, ¬ given number a
  | some a => ∃ number, given number a ∧ ∀ n b, given n b → n ≤ number

namespace IsLast

variable {α : Type} {given : Nat → α → Prop} {x y : Option α}

theorem isSome_iff (h : IsLast given x) : x.isSome ↔ ∃ number a, given number a := by
  cases x with
  | none =>
    have hnone : ∀ number a, ¬ given number a := h
    simp [hnone]
  | some a =>
    obtain ⟨number, ha, -⟩ := h
    simp only [Option.isSome_some, true_iff]
    exact ⟨number, a, ha⟩

/-- If no line gives two things, then only one of all counts. -/
theorem unique (hgiven : ∀ number a b, given number a → given number b → a = b)
    (hx : IsLast given x) (hy : IsLast given y) : x = y := by
  cases x with
  | none =>
    cases y with
    | none => rfl
    | some b =>
      obtain ⟨number, hb, -⟩ := hy
      exact absurd hb (hx number b)
  | some a =>
    obtain ⟨number, ha, hmax⟩ := hx
    cases y with
    | none => exact absurd ha (hy number a)
    | some b =>
      obtain ⟨n, hb, hmax'⟩ := hy
      obtain rfl : n = number := Nat.le_antisymm (hmax n b hb) (hmax' number a ha)
      exact congrArg some (hgiven n a b ha hb)

/-- One more line, after all others. -/
theorem next (h : IsLast given x) {number : Nat} (hbefore : ∀ n a, given n a → n < number)
    {more : Nat → α → Prop} {new : Option α}
    (hmore : ∀ n a, more n a ↔ given n a ∨ n = number ∧ new = some a) :
    IsLast more (new.or x) := by
  cases new with
  | some a =>
    refine ⟨number, (hmore number a).2 (.inr ⟨rfl, rfl⟩), fun n b hb => ?_⟩
    rcases (hmore n b).1 hb with hb | ⟨rfl, -⟩
    · exact (hbefore n b hb).le
    · exact le_rfl
  | none =>
    have heq : more = given := by
      funext n a
      simp [hmore]
    rw [heq]
    exact h

end IsLast

/-! ## Sections and refusals -/

/-- The sections of a document, in the order in which missing ones are reported. -/
def SectionName.all : List Text :=
  [SectionName.inputs, SectionName.heads, SectionName.start, SectionName.productions]

namespace Statement

/-- The section that a statement gives. -/
def section? : Statement → Option Text
  | .vocabulary name _ =>
    if name = SectionName.inputs ∨ name = SectionName.heads then some name else none
  | .start _ => some SectionName.start
  | .productions => some SectionName.productions
  | .rule _ => none

/-- The symbols that a statement lists, if it gives the vocabulary with the given name. -/
def vocabulary? (name : Text) : Statement → Option (List Symbol)
  | .vocabulary other symbols => if other = name then some symbols else none
  | _ => none

/-- The start symbol that a statement gives. -/
def start? : Statement → Option Symbol
  | .start symbol => some symbol
  | _ => none

/-- The rule that a statement is. -/
def rule? : Statement → Option RuleLine
  | .rule r => some r
  | _ => none

variable {s : Statement}

theorem vocabulary?_eq_some_iff {name : Text} {symbols : List Symbol} :
    s.vocabulary? name = some symbols ↔ .vocabulary name symbols = s := by
  cases s <;> simp [vocabulary?, eq_comm]

theorem start?_eq_some_iff {symbol : Symbol} : s.start? = some symbol ↔ .start symbol = s := by
  cases s <;> simp [start?, eq_comm]

theorem rule?_eq_some_iff {r : RuleLine} : s.rule? = some r ↔ .rule r = s := by
  cases s <;> simp [rule?, eq_comm]

theorem section?_eq_some_iff {name : Text} :
    s.section? = some name ↔
      (name = SectionName.inputs ∨ name = SectionName.heads) ∧
          (∃ symbols, s = .vocabulary name symbols) ∨
        name = SectionName.start ∧ (∃ symbol, s = .start symbol) ∨
        name = SectionName.productions ∧ s = .productions := by
  cases s with
  | vocabulary other symbols =>
    simp only [section?, Option.ite_none_right_eq_some, Option.some.injEq, vocabulary.injEq,
      reduceCtorEq, exists_false, and_false, or_false, exists_and_left, exists_eq', and_true]
    constructor
    · rintro ⟨hname, rfl⟩
      exact ⟨hname, rfl⟩
    · rintro ⟨hname, rfl⟩
      exact ⟨hname, rfl⟩
  | start symbol => simp [section?, eq_comm]
  | productions => simp [section?, eq_comm]
  | rule r => simp [section?]

/-- Whether a section is given by one of certain statements. -/
def Give (before : Statement → Prop) (name : Text) : Prop :=
  ∃ t, before t ∧ t.section? = some name

variable {before : Statement → Prop}

theorem give_vocabulary_iff {name : Text}
    (hname : name = SectionName.inputs ∨ name = SectionName.heads) :
    Give before name ↔ ∃ symbols, before (.vocabulary name symbols) := by
  have hother : name ≠ SectionName.start ∧ name ≠ SectionName.productions := by
    rcases hname with rfl | rfl <;> decide
  simp [Give, section?_eq_some_iff, hname, hother]

theorem give_start_iff :
    Give before SectionName.start ↔ ∃ symbol, before (.start symbol) := by
  have hother : ¬ (SectionName.start = SectionName.inputs ∨ SectionName.start = SectionName.heads) ∧
      SectionName.start ≠ SectionName.productions := by decide
  simp [Give, section?_eq_some_iff, hother]

theorem give_productions_iff : Give before SectionName.productions ↔ before .productions := by
  have hother : ¬ (SectionName.productions = SectionName.inputs ∨
      SectionName.productions = SectionName.heads) ∧
      SectionName.productions ≠ SectionName.start := by decide
  simp [Give, section?_eq_some_iff, hother]

/-- What is wrong with a statement, given what was said before it. -/
inductive Refused (before : Statement → Prop) : Statement → LoadError → Prop where
  | unknown {name : Text} {symbols : List Symbol}
      (hname : ¬ (name = SectionName.inputs ∨ name = SectionName.heads)) :
      Refused before (.vocabulary name symbols) (.unknownSection name)
  | repeated {s : Statement} {name : Text} (hsection : s.section? = some name)
      (hbefore : Give before name) : Refused before s (.duplicateSection name)
  | early {r : RuleLine} (hbefore : ¬ before .productions) :
      Refused before (.rule r) .ruleOutsideProductions

variable {e : LoadError}

/-- A statement that gives a section is only refused if the section was given before. -/
theorem refused_section_iff {name : Text} (hsection : s.section? = some name) :
    s.Refused before e ↔ Give before name ∧ e = .duplicateSection name := by
  constructor
  · intro h
    cases h with
    | unknown hname => simp [section?, hname] at hsection
    | repeated hother hbefore =>
      obtain rfl := Option.some.inj (hother.symm.trans hsection)
      exact ⟨hbefore, rfl⟩
    | early hbefore => simp [section?] at hsection
  · rintro ⟨hbefore, rfl⟩
    exact .repeated hsection hbefore

theorem refused_vocabulary_iff {name : Text} {symbols : List Symbol}
    (hname : ¬ (name = SectionName.inputs ∨ name = SectionName.heads)) :
    Refused before (.vocabulary name symbols) e ↔ e = .unknownSection name := by
  constructor
  · intro h
    cases h with
    | unknown => rfl
    | repeated hsection => simp [section?, hname] at hsection
  · rintro rfl
    exact .unknown hname

theorem refused_rule_iff {r : RuleLine} :
    Refused before (.rule r) e ↔ ¬ before .productions ∧ e = .ruleOutsideProductions := by
  constructor
  · intro h
    cases h with
    | repeated hsection => simp [section?] at hsection
    | early hbefore => exact ⟨hbefore, rfl⟩
  · rintro ⟨hbefore, rfl⟩
    exact .early hbefore

end Statement

/-! ## Documents as they grow -/

namespace Document

/-- What a document says when one more line is read. -/
def Then (said : Nat → Statement → Prop) (number : Nat) (s : Statement) (n : Nat)
    (t : Statement) : Prop :=
  said n t ∨ n = number ∧ t = s

/-- What a document says before a line. -/
def Before (said : Nat → Statement → Prop) (number : Nat) (t : Statement) : Prop :=
  ∃ n < number, said n t

/-- The rules of a document, without those that come too early. -/
def Collected (said : Nat → Statement → Prop) (number : Nat) (rule : RuleLine) : Prop :=
  said number (.rule rule) ∧ Before said number .productions

/-- What is wrong with the lines of a document, seen one after the other. -/
def Refusal (said : Nat → Statement → Prop) (number : Nat) (e : LoadError) : Prop :=
  ∃ s, said number s ∧ s.Refused (Before said number) e

section

variable {said : Nat → Statement → Prop} {number : Nat} {s : Statement}

theorem before_then_of_le (said : Nat → Statement → Prop) {n number : Nat} (s : Statement)
    (h : n ≤ number) : Before (Then said number s) n = Before said n := by
  funext t
  refine propext ⟨?_, ?_⟩
  · rintro ⟨m, hm, ht | ⟨rfl, -⟩⟩
    · exact ⟨m, hm, ht⟩
    · exact absurd h hm.not_ge
  · rintro ⟨m, hm, ht⟩
    exact ⟨m, hm, .inl ht⟩

/-- What is found on the lines of a document, each seen with the lines before it, is found on the
last line or was found without it. -/
theorem exists_then_iff (hbefore : ∀ n t, said n t → n < number)
    (P : (Statement → Prop) → Statement → Prop) (n : Nat) :
    (∃ t, Then said number s n t ∧ P (Before (Then said number s) n) t) ↔
      (∃ t, said n t ∧ P (Before said n) t) ∨ n = number ∧ P (fun t => ∃ m, said m t) s := by
  have hlast : Before said number = fun t => ∃ m, said m t := by
    funext t
    exact propext (exists_congr fun m => ⟨And.right, fun ht => ⟨hbefore m t ht, ht⟩⟩)
  constructor
  · rintro ⟨t, ht | ⟨rfl, rfl⟩, hP⟩
    · rw [before_then_of_le said s (hbefore n t ht).le] at hP
      exact .inl ⟨t, ht, hP⟩
    · rw [before_then_of_le said t le_rfl, hlast] at hP
      exact .inr ⟨rfl, hP⟩
  · rintro (⟨t, ht, hP⟩ | ⟨rfl, hP⟩)
    · rw [← before_then_of_le said s (hbefore n t ht).le] at hP
      exact ⟨t, .inl ht, hP⟩
    · rw [← hlast, ← before_then_of_le said s le_rfl] at hP
      exact ⟨s, .inr ⟨rfl, rfl⟩, hP⟩

theorem collected_iff {r : RuleLine} :
    Collected said number r ↔
      ∃ t, said number t ∧ t = .rule r ∧ Before said number .productions := by
  constructor
  · rintro ⟨hsaid, hearlier⟩
    exact ⟨_, hsaid, rfl, hearlier⟩
  · rintro ⟨_, hsaid, rfl, hearlier⟩
    exact ⟨hsaid, hearlier⟩

end

end Document

/-! ## Outlines as they grow -/

namespace Outline

open Document

variable {o : Outline} {number : Nat} {s : Statement}

/-- The state after adding a statement, section by section. -/
theorem add_fst (o : Outline) (number : Nat) (s : Statement) :
    (o.add number s).1 =
      { inputs := (s.vocabulary? SectionName.inputs).or o.inputs
        heads := (s.vocabulary? SectionName.heads).or o.heads
        start := s.start?.or o.start
        announced := o.announced || decide (s = .productions)
        rules := o.rules ++
          (if o.announced then s.rule? else none).toList.map (number, ·) } := by
  have hname : SectionName.heads ≠ SectionName.inputs := by decide
  obtain ⟨inputs, heads, start, announced, rules⟩ := o
  cases s with
  | vocabulary name symbols =>
    by_cases hinputs : name = SectionName.inputs
    · simp [add, Statement.vocabulary?, Statement.start?, Statement.rule?, hinputs, hname.symm]
    · by_cases hheads : name = SectionName.heads
      · simp [add, Statement.vocabulary?, Statement.start?, Statement.rule?, hheads, hname]
      · simp [add, Statement.vocabulary?, Statement.start?, Statement.rule?, hinputs, hheads]
  | start symbol => simp [add, Statement.vocabulary?, Statement.start?, Statement.rule?]
  | productions => simp [add, Statement.vocabulary?, Statement.start?, Statement.rule?]
  | rule r =>
    cases announced <;> simp [add, Statement.vocabulary?, Statement.start?, Statement.rule?]

/-- What the lines of a document add up to. -/
structure Sums (said : Nat → Statement → Prop) (o : Outline) : Prop where
  inputs : IsLast (fun n symbols => said n (.vocabulary SectionName.inputs symbols)) o.inputs
  heads : IsLast (fun n symbols => said n (.vocabulary SectionName.heads symbols)) o.heads
  start : IsLast (fun n symbol => said n (.start symbol)) o.start
  announced : o.announced = true ↔ ∃ n, said n .productions
  rules : ByLine (Collected said) o.rules

/-- The empty outline is that of a document that says nothing. -/
theorem sums_empty {said : Nat → Statement → Prop} (h : ∀ n t, ¬ said n t) : Sums said {} where
  inputs := fun n _ => h n _
  heads := fun n _ => h n _
  start := fun n _ => h n _
  announced := by simp [h]
  rules := ByLine.nil fun n _ hrule => h n _ hrule.1

/-- One more statement, after all others. -/
theorem Sums.next {said : Nat → Statement → Prop} (h : o.Sums said)
    (hbefore : ∀ n t, said n t → n < number) : (o.add number s).1.Sums (Then said number s) := by
  rw [add_fst]
  refine ⟨?_, ?_, ?_, ?_, ?_⟩
  · refine h.inputs.next (fun n _ => hbefore n _) fun n symbols => ?_
    rw [Statement.vocabulary?_eq_some_iff, Then]
  · refine h.heads.next (fun n _ => hbefore n _) fun n symbols => ?_
    rw [Statement.vocabulary?_eq_some_iff, Then]
  · refine h.start.next (fun n _ => hbefore n _) fun n symbol => ?_
    rw [Statement.start?_eq_some_iff, Then]
  · simp [h.announced, Then, exists_or, @eq_comm _ s]
  · refine (h.rules.concat ?_ _).congr fun n r => ?_
    · rintro ⟨n, r⟩ hr
      exact hbefore n _ ((h.rules.mem_iff n r).1 hr).1
    · rw [collected_iff, collected_iff,
        exists_then_iff hbefore fun before t => t = .rule r ∧ before .productions]
      refine or_congr_right (and_congr_right fun _ => ?_)
      show _ ↔ s = .rule r ∧ ∃ m, said m .productions
      rw [← h.announced]
      by_cases ho : o.announced = true <;> simp [ho, Statement.rule?_eq_some_iff, @eq_comm _ s]

/-! ## Errors -/

variable {said : Nat → Statement → Prop} {e : LoadError}

/-- Missing sections are named in their order. -/
theorem missing_sublist (o : Outline) : o.missing.Sublist SectionName.all := by
  have hpart : ∀ (c : Prop) [Decidable c] (name : Text),
      (if c then [name] else []).Sublist [name] := by
    intro c _ name
    split
    · exact List.Sublist.refl _
    · exact List.nil_sublist _
  have hlast : (if o.announced then [] else [SectionName.productions]).Sublist
      [SectionName.productions] := by
    split
    · exact List.nil_sublist _
    · exact List.Sublist.refl _
  exact (((hpart _ _).append (hpart _ _)).append (hpart _ _)).append hlast

theorem repeated_eq_some_iff {α : Type} {x : Option α} {name : Text} :
    repeated x name = some e ↔ x.isSome ∧ e = .duplicateSection name := by
  simp [repeated, @eq_comm _ e]

namespace Sums

variable (h : o.Sums said)

include h

theorem give_inputs_iff :
    Statement.Give (fun t => ∃ n, said n t) SectionName.inputs ↔ o.inputs.isSome := by
  rw [Statement.give_vocabulary_iff (.inl rfl), h.inputs.isSome_iff, exists_comm]

theorem give_heads_iff :
    Statement.Give (fun t => ∃ n, said n t) SectionName.heads ↔ o.heads.isSome := by
  rw [Statement.give_vocabulary_iff (.inr rfl), h.heads.isSome_iff, exists_comm]

theorem give_start_iff :
    Statement.Give (fun t => ∃ n, said n t) SectionName.start ↔ o.start.isSome := by
  rw [Statement.give_start_iff, h.start.isSome_iff, exists_comm]

theorem give_productions_iff :
    Statement.Give (fun t => ∃ n, said n t) SectionName.productions ↔ o.announced = true := by
  rw [Statement.give_productions_iff, h.announced]

/-- The sections that are missing from an outline are those that no line gives. -/
theorem mem_missing_iff {name : Text} :
    name ∈ o.missing ↔
      name ∈ SectionName.all ∧ ¬ Statement.Give (fun t => ∃ n, said n t) name := by
  have hmissing : name ∈ o.missing ↔
      name = SectionName.inputs ∧ ¬ o.inputs.isSome ∨ name = SectionName.heads ∧ ¬ o.heads.isSome ∨
        name = SectionName.start ∧ ¬ o.start.isSome ∨
        name = SectionName.productions ∧ ¬ o.announced = true := by
    simp [missing, List.mem_ite_nil_left, and_comm]
  rw [hmissing, ← h.give_inputs_iff, ← h.give_heads_iff, ← h.give_start_iff,
    ← h.give_productions_iff]
  simp only [SectionName.all, List.mem_cons, List.not_mem_nil, or_false, or_and_right]
  have hname : ∀ other, name = other ∧ ¬ Statement.Give (fun t => ∃ n, said n t) other ↔
      name = other ∧ ¬ Statement.Give (fun t => ∃ n, said n t) name := fun other =>
    and_congr_right fun heq => heq ▸ Iff.rfl
  exact or_congr (hname _) (or_congr (hname _) (or_congr (hname _) (hname _)))

/-- A statement is refused for what the outline before it contains. -/
theorem add_snd_eq_some_iff :
    (o.add number s).2 = some e ↔ s.Refused (fun t => ∃ n, said n t) e := by
  cases s with
  | vocabulary name symbols =>
    by_cases hinputs : name = SectionName.inputs
    · have hsection : (Statement.vocabulary name symbols).section? = some SectionName.inputs := by
        simp [Statement.section?, hinputs]
      rw [Statement.refused_section_iff hsection, h.give_inputs_iff, ← repeated_eq_some_iff]
      simp [add, hinputs]
    · by_cases hheads : name = SectionName.heads
      · have hsection : (Statement.vocabulary name symbols).section? = some SectionName.heads := by
          simp [Statement.section?, hheads]
        rw [Statement.refused_section_iff hsection, h.give_heads_iff, ← repeated_eq_some_iff,
          add, if_neg hinputs, if_pos hheads, hheads]
      · rw [Statement.refused_vocabulary_iff (not_or.2 ⟨hinputs, hheads⟩)]
        simp [add, hinputs, hheads, @eq_comm _ e]
  | start symbol =>
    rw [Statement.refused_section_iff rfl, h.give_start_iff]
    exact repeated_eq_some_iff
  | productions =>
    rw [Statement.refused_section_iff rfl, h.give_productions_iff]
    simp [add, @eq_comm _ e]
  | rule r =>
    rw [Statement.refused_rule_iff, ← h.announced]
    by_cases ho : o.announced = true <;> simp [add, ho, @eq_comm _ e]

end Sums

theorem addAll_concat (o : Outline) (statements : List (Nat × Statement)) (number : Nat)
    (s : Statement) :
    o.addAll (statements ++ [(number, s)]) =
      (((o.addAll statements).1.add number s).1, (o.addAll statements).2 ++
        ((o.addAll statements).1.add number s).2.toList.map (number, ·)) := by
  induction statements generalizing o with
  | nil => simp [addAll]
  | cons statement statements ih => simp [addAll, ih]

/-- The outline of a document, and all that is wrong with its lines. -/
theorem sums_addAll {statements : List (Nat × Statement)} (h : ByLine said statements) :
    (addAll {} statements).1.Sums said ∧ ByLine (Refusal said) (addAll {} statements).2 := by
  -- from the end, because what counts and what is refused depends on the lines before
  induction statements using List.reverseRecOn generalizing said with
  | nil =>
    have hnothing := h.eq_nil_iff.1 rfl
    refine ⟨sums_empty hnothing, ByLine.nil ?_⟩
    rintro number e ⟨s, hs, -⟩
    exact hnothing number s hs
  | append_singleton statements last ih =>
    obtain ⟨number, s⟩ := last
    obtain ⟨hstatements, hbefore, rfl⟩ := h.of_concat
    obtain ⟨hsums, hrefused⟩ := ih hstatements
    rw [addAll_concat]
    refine ⟨hsums.next hbefore, (hrefused.concat ?_ _).congr fun n e => ?_⟩
    · rintro ⟨n, e⟩ he
      obtain ⟨t, ht, -⟩ := (hrefused.mem_iff n e).1 he
      exact hbefore n t ht
    · rw [hsums.add_snd_eq_some_iff]
      exact (exists_then_iff hbefore (fun before t => t.Refused before e) n).symm

end Outline

end ContextFree
