import ContextFree.Proofs.Document.Report
import Mathlib.Data.List.Forall2

/-!
# The same lines under other numbers

Loading numbers the lines of a document and does nothing with the numbers but report them.  So two
documents whose lines say the same come to the same, except for the places of errors, even if their
lines have different numbers and their files different names.

Every step of loading has a lemma that says this.

* `Agree` compares outcomes, and `Located.Matches` errors that differ in nothing but their place.
* `Outline.Alike` compares outlines that differ in nothing but the numbers of their rules.
  `Outline.Alike.add_fst` and `Outline.Alike.add_snd` are about one statement, and
  `Outline.Alike.addAll` about all of them.
* `Document.agree_declare`, `Document.agree_assemble` and `Document.agree_load` are about the stages
  of loading.
-/

namespace ContextFree

/-! ## Outcomes that agree -/

/-- Outcomes agree if both are errors or both are values, and these are related. -/
inductive Agree {ε δ α β : Type} (E : ε → δ → Prop) (V : α → β → Prop) :
    Except ε α → Except δ β → Prop where
  | ok {a : α} {b : β} (h : V a b) : Agree E V (.ok a) (.ok b)
  | error {e : ε} {d : δ} (h : E e d) : Agree E V (.error e) (.error d)

namespace Agree

variable {ε δ α β : Type} {E : ε → δ → Prop} {V : α → β → Prop}
  {xs : List (Except ε α)} {ys : List (Except δ β)}

theorem errorsOf (h : List.Forall₂ (Agree E V) xs ys) :
    List.Forall₂ E (errorsOf xs) (errorsOf ys) := by
  refine List.rel_filterMap (R := Agree E V) (P := E) ?_ h
  rintro _ _ (hvalue | herror)
  · exact .none
  · exact .some herror

theorem valuesOf (h : List.Forall₂ (Agree E V) xs ys) :
    List.Forall₂ V (valuesOf xs) (valuesOf ys) := by
  refine List.rel_filterMap (R := Agree E V) (P := V) ?_ h
  rintro _ _ (hvalue | herror)
  · exact .some hvalue
  · exact .none

/-- Either there are errors on both sides, or only values. -/
theorem collect_cases (h : List.Forall₂ (Agree E V) xs ys) :
    ContextFree.errorsOf xs = [] ∧ ContextFree.errorsOf ys = [] ∧
        List.Forall₂ V (ContextFree.valuesOf xs) (ContextFree.valuesOf ys) ∨
      ∃ e es d ds, ContextFree.errorsOf xs = e :: es ∧ ContextFree.errorsOf ys = d :: ds ∧
        List.Forall₂ E (e :: es) (d :: ds) := by
  have herrors := Agree.errorsOf h
  generalize ContextFree.errorsOf xs = es at herrors ⊢
  generalize ContextFree.errorsOf ys = ds at herrors ⊢
  cases herrors with
  | nil => exact .inl ⟨rfl, rfl, Agree.valuesOf h⟩
  | cons hfirst hrest => exact .inr ⟨_, _, _, _, rfl, rfl, .cons hfirst hrest⟩

end Agree

/-! ## Numbers that correspond -/

/-- The same thing, under numbers that correspond. -/
def Renumbered {α : Type} (R : Nat → Nat → Prop) (x y : Nat × α) : Prop := R x.1 y.1 ∧ x.2 = y.2

theorem Renumbered.map_toList {α : Type} {R : Nat → Nat → Prop} {n m : Nat} (h : R n m)
    (x : Option α) :
    List.Forall₂ (Renumbered R) (x.toList.map (n, ·)) (x.toList.map (m, ·)) := by
  cases x with
  | none => exact .nil
  | some a => exact .cons ⟨h, rfl⟩ .nil

/-- The same error in two files: in the files as a whole, or at lines that correspond. -/
inductive Located.Matches {κ : Type} (file other : FileName) (R : Nat → Nat → Prop) :
    Located κ → Located κ → Prop where
  | inFile (cause : κ) : Matches file other R (.inFile file cause) (.inFile other cause)
  | atLine {n m : Nat} (h : R n m) (cause : κ) :
      Matches file other R (.atLine file (n, cause)) (.atLine other (m, cause))

section

variable {R : Nat → Nat → Prop} {file other : FileName}

theorem Located.matches_map_atLine {κ : Type} {xs ys : List (Nat × κ)}
    (h : List.Forall₂ (Renumbered R) xs ys) :
    List.Forall₂ (Located.Matches file other R) (xs.map (.atLine file))
      (ys.map (.atLine other)) := by
  refine List.rel_map (R := Renumbered R) ?_ h
  rintro ⟨n, cause⟩ ⟨m, _⟩ ⟨hnumber, rfl⟩
  exact .atLine hnumber cause

theorem Located.matches_map_inFile {κ α : Type} (cause : α → κ) (xs : List α) :
    List.Forall₂ (Located.Matches file other R) (xs.map fun a => .inFile file (cause a))
      (xs.map fun a => .inFile other (cause a)) := by
  rw [List.forall₂_map_left_iff, List.forall₂_map_right_iff, List.forall₂_same]
  exact fun a _ => .inFile (cause a)

/-! ## Outlines -/

namespace Outline

/-- Outlines that differ in nothing but the numbers of their rules. -/
structure Alike (R : Nat → Nat → Prop) (o p : Outline) : Prop where
  inputs : o.inputs = p.inputs
  heads : o.heads = p.heads
  start : o.start = p.start
  announced : o.announced = p.announced
  rules : List.Forall₂ (Renumbered R) o.rules p.rules

theorem addAll_cons (o : Outline) (n : Nat) (s : Statement) (rest : List (Nat × Statement)) :
    o.addAll ((n, s) :: rest) =
      (((o.add n s).1.addAll rest).1,
        (o.add n s).2.toList.map (n, ·) ++ ((o.add n s).1.addAll rest).2) :=
  rfl

namespace Alike

variable {o p : Outline} (h : o.Alike R p)

include h

theorem missing : o.missing = p.missing := by
  rw [Outline.missing, Outline.missing, h.inputs, h.heads, h.start, h.announced]

theorem add_fst {n m : Nat} (hnumber : R n m) (s : Statement) :
    (o.add n s).1.Alike R (p.add m s).1 := by
  rw [Outline.add_fst, Outline.add_fst, h.inputs, h.heads, h.start, h.announced]
  exact ⟨rfl, rfl, rfl, rfl, List.rel_append h.rules (Renumbered.map_toList hnumber _)⟩

theorem add_snd (n m : Nat) (s : Statement) : (o.add n s).2 = (p.add m s).2 := by
  obtain ⟨inputs, heads, start, announced, rules⟩ := o
  obtain ⟨_, _, _, _, rules'⟩ := p
  obtain ⟨rfl, rfl, rfl, rfl, -⟩ := h
  cases s with
  | vocabulary name symbols =>
    simp only [add]
    split
    · rfl
    · split <;> rfl
  | start symbol => rfl
  | productions => rfl
  | rule r => cases announced <;> rfl

/-- The same statements under other numbers. -/
theorem addAll {ss ts : List (Nat × Statement)} (hs : List.Forall₂ (Renumbered R) ss ts) :
    (o.addAll ss).1.Alike R (p.addAll ts).1 ∧
      List.Forall₂ (Renumbered R) (o.addAll ss).2 (p.addAll ts).2 := by
  induction hs generalizing o p with
  | nil => exact ⟨h, .nil⟩
  | @cons x y ss ts hxy _ ih =>
    obtain ⟨n, s⟩ := x
    obtain ⟨m, _⟩ := y
    obtain ⟨hnumber, rfl⟩ : R n m ∧ s = _ := hxy
    obtain ⟨hlast, herrors⟩ := ih (h.add_fst hnumber s)
    rw [addAll_cons, addAll_cons, h.add_snd n m s]
    exact ⟨hlast, List.rel_append (Renumbered.map_toList hnumber _) herrors⟩

end Alike

end Outline

/-! ## Loading -/

namespace Document

variable (file other)

theorem agree_resolveAt (v : Vocabulary) {x y : Nat × RuleLine} (h : Renumbered R x y) :
    Agree (Located.Matches file other R) (· = ·) (resolveAt file v x) (resolveAt other v y) := by
  obtain ⟨n, rule⟩ := x
  obtain ⟨m, _⟩ := y
  obtain ⟨hnumber, rfl⟩ : R n m ∧ rule = _ := h
  rw [resolveAt, resolveAt]
  cases rule.resolve v with
  | ok p => exact .ok rfl
  | error e => exact .error (.atLine hnumber e)

theorem agree_declare (inputs heads : List Symbol) (start : Symbol)
    {rules rules' : List (Nat × RuleLine)} (h : List.Forall₂ (Renumbered R) rules rules') :
    Agree (List.Forall₂ (Located.Matches file other R)) (· = ·)
      (declare file inputs heads start rules) (declare other inputs heads start rules') := by
  have houtcomes := List.rel_map (R := Renumbered R)
    (fun _ _ hxy => agree_resolveAt file other (inputs ++ heads) hxy) h
  rw [declare_eq, declare_eq]
  rcases Agree.collect_cases houtcomes with ⟨hxs, hys, hps⟩ | ⟨_, _, _, _, hxs, hys, herrors⟩
  · rw [hxs, hys]
    rw [List.forall₂_eq_eq_eq] at hps
    exact .ok (congrArg (Declaration.mk inputs heads start) hps)
  · rw [hxs, hys]
    exact .error herrors

theorem agree_checkIn (d : Declaration) :
    Agree (List.Forall₂ (Located.Matches file other R)) (· = ·) (checkIn file d)
      (checkIn other d) := by
  rw [checkIn, checkIn]
  cases d.check with
  | ok g => exact .ok rfl
  | error faults => exact .error (Located.matches_map_inFile LoadError.invalidGrammar faults)

/-- What is put together depends on the outline of the statements alone, up to the numbers of its
rules, and on what is refused. -/
theorem agree_assemble_of_alike {ss ts : List (Nat × Statement)}
    (halike : (Outline.addAll {} ss).1.Alike R (Outline.addAll {} ts).1)
    (hrefused : List.Forall₂ (Renumbered R) (Outline.addAll {} ss).2 (Outline.addAll {} ts).2) :
    Agree (List.Forall₂ (Located.Matches file other R)) (· = ·) (assemble file ss)
      (assemble other ts) := by
  rcases hss : Outline.addAll {} ss with ⟨o, refused⟩
  rcases hts : Outline.addAll {} ts with ⟨p, refused'⟩
  rw [hss, hts] at halike hrefused
  have herrors : List.Forall₂ (Located.Matches file other R) (outlineErrors file o refused)
      (outlineErrors other p refused') := by
    rw [outlineErrors, outlineErrors, halike.missing]
    exact List.rel_append (Located.matches_map_atLine hrefused)
      (Located.matches_map_inFile LoadError.missingSection p.missing)
  by_cases hgiven : ∃ inputs heads start,
      o.inputs = some inputs ∧ o.heads = some heads ∧ o.start = some start
  · obtain ⟨inputs, heads, start, hgiven⟩ := hgiven
    have hgiven' := hgiven
    rw [halike.inputs, halike.heads, halike.start] at hgiven'
    rw [assemble_of_given hss hgiven, assemble_of_given hts hgiven']
    have hdeclare := agree_declare file other inputs heads start halike.rules
    generalize declare file inputs heads start o.rules = x at hdeclare ⊢
    generalize declare other inputs heads start p.rules = y at hdeclare ⊢
    generalize outlineErrors file o refused = es at herrors ⊢
    generalize outlineErrors other p refused' = ds at herrors ⊢
    cases hdeclare with
    | ok hd =>
      subst hd
      cases herrors with
      | nil => exact agree_checkIn file other _
      | cons herror herrors => exact .error (.cons herror herrors)
    | error hmore =>
      cases herrors with
      | nil => exact .error hmore
      | cons herror herrors => exact .error (.cons herror (List.rel_append herrors hmore))
  · have hgiven' := hgiven
    rw [halike.inputs, halike.heads, halike.start] at hgiven'
    rw [(assemble_of_not_given hss hgiven).1, (assemble_of_not_given hts hgiven').1]
    exact .error herrors

/-- Statements are put together in the same way, whatever their numbers are. -/
theorem agree_assemble {ss ts : List (Nat × Statement)}
    (h : List.Forall₂ (Renumbered R) ss ts) :
    Agree (List.Forall₂ (Located.Matches file other R)) (· = ·) (assemble file ss)
      (assemble other ts) := by
  have hempty : Outline.Alike R {} {} := ⟨rfl, rfl, rfl, rfl, .nil⟩
  obtain ⟨halike, hrefused⟩ := hempty.addAll h
  exact agree_assemble_of_alike file other halike hrefused

/-- A line is read in the same way, whatever its number is. -/
theorem agree_readLine {x y : Nat × Except ReadFault Text} (hnumber : R x.1 y.1)
    (hline : Agree (· = ·) (fun a b => Token.ofLine a = Token.ofLine b) x.2 y.2) :
    Agree (Located.Matches file other R) (Renumbered R) (readLine file x) (readLine other y) := by
  obtain ⟨n, line⟩ := x
  obtain ⟨m, line'⟩ := y
  cases hline with
  | error hfault =>
    subst hfault
    exact .error (.inFile _)
  | @ok a b htokens =>
    have hstatement : Statement.ofLine a = Statement.ofLine b := by
      rw [Statement.ofLine, Statement.ofLine, htokens]
    simp only [readLine]
    rw [hstatement]
    cases Statement.ofLine b with
    | ok s => exact .ok ⟨hnumber, rfl⟩
    | error e => exact .error (.atLine hnumber e)

/-- Documents come to the same if the lines that take part in them are the same up to their
numbers. -/
theorem agree_load {lines lines' : List (Except ReadFault Text)}
    (h : List.Forall₂
      (fun x y => R x.1 y.1 ∧
        Agree (· = ·) (fun a b => Token.ofLine a = Token.ofLine b) x.2 y.2)
      ((numbered lines).filter fun line => takesPart line.2)
      ((numbered lines').filter fun line => takesPart line.2)) :
    Agree (List.Forall₂ (Located.Matches file other R)) (· = ·) (load file lines)
      (load other lines') := by
  have houtcomes := List.rel_map (fun _ _ hxy => agree_readLine file other hxy.1 hxy.2) h
  unfold load
  dsimp only
  rcases Agree.collect_cases houtcomes with ⟨hxs, hys, hsaid⟩ | ⟨_, _, _, _, hxs, hys, herrors⟩
  · rw [hxs, hys]
    exact agree_assemble file other hsaid
  · rw [hxs, hys]
    exact .error herrors

end Document

end

end ContextFree
