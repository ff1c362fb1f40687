import ContextFree.Document.Load
import Mathlib.Data.List.Pairwise
import Mathlib.Data.List.Sort

/-!
# What is found line by line

A report on a document has at most one entry for a line, and the lines are in order.  `ByLine` says
this of a list of numbered entries, in terms of a relation that tells what is found on which line.
Two such lists for the same relation are equal (`ByLine.eq`), so a report is settled by its relation
alone.

* `ByLine.numbered` is where such lists come from, and `ByLine.filterMap` makes new ones from them;
  `ByLine.errorsOf` and `ByLine.valuesOf` are its cases for outcomes.
* `ByLine.concat` adds one entry at the end, for lists that grow as lines are read.
-/

namespace ContextFree

/-- An item of a list has the number that it gets when the items are counted from one. -/
def HasNumber {α : Type} (items : List α) (number : Nat) (item : α) : Prop :=
  0 < number ∧ items[number - 1]? = some item

theorem HasNumber.map_iff {α β : Type} {f : α → β} {items : List α} {number : Nat} {b : β} :
    HasNumber (items.map f) number b ↔ ∃ a, HasNumber items number a ∧ f a = b := by
  simp [HasNumber, and_assoc]

/-- A list has one entry for each thing that is found on a line, in the order of the lines. -/
structure ByLine {α : Type} (found : Nat → α → Prop) (entries : List (Nat × α)) : Prop where
  sorted : entries.Pairwise fun a b => a.1 < b.1
  mem_iff : ∀ number a, (number, a) ∈ entries ↔ found number a

namespace ByLine

variable {α β ε : Type} {found other : Nat → α → Prop} {xs ys : List (Nat × α)}

/-- There is only one such list. -/
theorem eq (hxs : ByLine found xs) (hys : ByLine found ys) : xs = ys := by
  let before := fun a b : Nat × α => a.1 < b.1
  have : Std.Asymm before := ⟨fun _ _ h => Nat.lt_asymm h⟩
  exact List.Pairwise.eq_of_mem_iff (r := before) hxs.sorted hys.sorted fun a =>
    (hxs.mem_iff a.1 a.2).trans (hys.mem_iff a.1 a.2).symm

/-- A line has at most one entry. -/
theorem unique (h : ByLine found xs) {number : Nat} {a b : α} (ha : found number a)
    (hb : found number b) : a = b := by
  let differ := fun x y : Nat × α => x.1 ≠ y.1
  have : Std.Symm differ := ⟨fun _ _ hxy => hxy.symm⟩
  have hdiffer : xs.Pairwise differ := h.sorted.imp Nat.ne_of_lt
  by_contra hne
  have hpair : (number, a) ≠ (number, b) := fun heq => hne (Prod.mk.inj heq).2
  exact hdiffer.forall ((h.mem_iff _ _).2 ha) ((h.mem_iff _ _).2 hb) hpair rfl

theorem congr (h : ByLine found xs) (hiff : ∀ number a, found number a ↔ other number a) :
    ByLine other xs :=
  ⟨h.sorted, fun number a => (h.mem_iff number a).trans (hiff number a)⟩

theorem eq_nil_iff (h : ByLine found xs) : xs = [] ↔ ∀ number a, ¬ found number a := by
  rw [List.eq_nil_iff_forall_not_mem, Prod.forall]
  simp only [h.mem_iff]

theorem nil (h : ∀ number a, ¬ found number a) : ByLine found [] :=
  ⟨List.Pairwise.nil, fun number a => by simp [h number a]⟩

/-- The relation is the list of its entries. -/
theorem found_eq (h : ByLine found xs) : found = fun number a => (number, a) ∈ xs := by
  funext number a
  exact propext (h.mem_iff number a).symm

theorem filter (h : ByLine found xs) (p : α → Bool) :
    ByLine (fun number a => found number a ∧ p a = true) (xs.filter fun entry => p entry.2) :=
  ⟨h.sorted.filter _, fun number a => by simp [h.mem_iff]⟩

/-- Entries are looked at one by one, and some of them give new entries for their lines. -/
theorem filterMap (h : ByLine found xs) (f : Nat × α → Option β) :
    ∃ ys, ByLine (fun number b => ∃ a, found number a ∧ f (number, a) = some b) ys ∧
      xs.filterMap f = ys.map Prod.snd := by
  refine ⟨xs.filterMap fun entry => (f entry).map (entry.1, ·), ⟨?_, fun number b => ?_⟩, ?_⟩
  · refine h.sorted.filterMap _ fun a a' hlt b hb b' hb' => ?_
    obtain ⟨_, _, rfl⟩ := Option.map_eq_some_iff.1 hb
    obtain ⟨_, _, rfl⟩ := Option.map_eq_some_iff.1 hb'
    exact hlt
  · simp [h.mem_iff]
  · simp [List.map_filterMap, Option.map_map, Function.comp_def]

/-- The errors among outcomes on numbered lines. -/
theorem errorsOf (h : ByLine found xs) (f : Nat × α → Except ε β) :
    ∃ errors, ByLine (fun number e => ∃ a, found number a ∧ f (number, a) = .error e) errors ∧
      ContextFree.errorsOf (xs.map f) = errors.map Prod.snd := by
  rw [ContextFree.errorsOf, List.filterMap_map]
  obtain ⟨errors, herrors, heq⟩ := h.filterMap _
  refine ⟨errors, herrors.congr fun number e => exists_congr fun a => ?_, heq⟩
  cases hf : f (number, a) <;> simp [hf]

/-- The values among outcomes on numbered lines. -/
theorem valuesOf (h : ByLine found xs) (f : Nat × α → Except ε β) :
    ∃ values, ByLine (fun number b => ∃ a, found number a ∧ f (number, a) = .ok b) values ∧
      ContextFree.valuesOf (xs.map f) = values.map Prod.snd := by
  rw [ContextFree.valuesOf, List.filterMap_map]
  obtain ⟨values, hvalues, heq⟩ := h.filterMap _
  refine ⟨values, hvalues.congr fun number b => exists_congr fun a => ?_, heq⟩
  cases hf : f (number, a) <;> simp [hf]

/-- Items that are numbered from one. -/
theorem numbered (items : List α) : ByLine (HasNumber items) (ContextFree.numbered items) := by
  refine ⟨?_, fun number a => ?_⟩
  · have hnumbers : (items.zipIdx 1).map Prod.snd = List.range' 1 items.length :=
      List.zipIdx_map_snd 1 items
    have hincreasing := List.pairwise_lt_range' (s := 1) (n := items.length) 1
    rw [← hnumbers, List.pairwise_map] at hincreasing
    exact List.pairwise_map.2 hincreasing
  · have hpair : (number, a) ∈ ContextFree.numbered items ↔ (a, number) ∈ items.zipIdx 1 := by
      simp [ContextFree.numbered]
    exact hpair.trans List.mk_mem_zipIdx_iff_le_and_getElem?_sub

/-- The last line comes after all others. -/
theorem of_concat {number : Nat} {a : α} (h : ByLine found (xs ++ [(number, a)])) :
    ByLine (fun n b => (n, b) ∈ xs) xs ∧ (∀ n b, (n, b) ∈ xs → n < number) ∧
      found = fun n b => (n, b) ∈ xs ∨ n = number ∧ b = a := by
  obtain ⟨hsorted, -, hbefore⟩ := List.pairwise_append.1 h.sorted
  refine ⟨⟨hsorted, fun n b => Iff.rfl⟩, fun n b hb => ?_, ?_⟩
  · exact hbefore (n, b) hb (number, a) (List.mem_singleton_self _)
  · rw [h.found_eq]
    simp

/-- One more line, after all others. -/
theorem concat (h : ByLine found xs) {number : Nat} (hafter : ∀ x ∈ xs, x.1 < number)
    (last : Option α) :
    ByLine (fun n a => found n a ∨ n = number ∧ last = some a)
      (xs ++ last.toList.map (number, ·)) := by
  cases last with
  | none => simpa using h
  | some a =>
    refine ⟨?_, fun n b => ?_⟩
    · exact List.pairwise_append.2 ⟨h.sorted, List.pairwise_singleton _ _, by simpa using hafter⟩
    · simp [h.mem_iff, eq_comm]

/-- Findings that are made from entries, each with its line, and tell what they were made from. -/
theorem exists_map {g : Nat × α → β} (f : β → α) (hf : ∀ entry, f (g entry) = entry.2)
    {made : List (Nat × β)}
    (h : ByLine (fun number b => ∃ a, found number a ∧ b = g (number, a)) made) :
    ∃ entries, ByLine found entries ∧ made.map Prod.snd = entries.map g := by
  refine ⟨made.map fun x => (x.1, f x.2), ⟨?_, fun number a => ?_⟩, ?_⟩
  · exact List.pairwise_map.2 h.sorted
  · simp only [List.mem_map, Prod.exists, h.mem_iff, Prod.mk.injEq]
    constructor
    · rintro ⟨n, b, ⟨a', ha', rfl⟩, rfl, rfl⟩
      exact (hf (n, a')).symm ▸ ha'
    · intro ha
      exact ⟨number, _, ⟨a, ha, rfl⟩, rfl, hf (number, a)⟩
  · rw [List.map_map]
    refine List.map_congr_left fun x hx => ?_
    obtain ⟨a, -, ha⟩ := (h.mem_iff x.1 x.2).1 hx
    simp [ha, hf]

end ByLine

end ContextFree
