import ContextFree.Automaton.Basic
import Mathlib.Data.List.Basic

/-!
# Runs of an automaton

`Automaton.fire` and `Automaton.successors` take one step.  This module follows them through whole
runs, for an automaton of any shape.

* `fireAll` fires a list of transitions, and `reads` is what they read.
* `Explores` is a run that a caller makes with `successors`: it offers an input, or none, and goes
  on from one of the answers.
* `explores_iff` says that both make the same runs, as long as what is read is in the input
  alphabet.
* `reachable` collects where such a caller can be after inputs that are given, and
  `explores_iff_exists_mem_reachable` compares the two.
-/

namespace ContextFree

/-- The input symbols that transitions read, in order. -/
def Transition.reads (ts : List Transition) : List Symbol := ts.filterMap Transition.input

namespace Transition

@[simp] theorem reads_nil : reads [] = [] := rfl

@[simp] theorem reads_cons (t : Transition) (ts : List Transition) :
    reads (t :: ts) = t.input.toList ++ reads ts := by
  unfold reads
  cases hinput : t.input with
  | none => rw [List.filterMap_cons_none hinput, Option.toList_none, List.nil_append]
  | some s => rw [List.filterMap_cons_some hinput, Option.toList_some, List.singleton_append]

@[simp] theorem reads_append (ts us : List Transition) :
    reads (ts ++ us) = reads ts ++ reads us := List.filterMap_append

end Transition

namespace Automaton

variable {m : Automaton} {c next last : Configuration}

/-! ## Firing a list of transitions -/

/-- Fires transitions one after the other.  The first one that is refused ends the run. -/
def fireAll (m : Automaton) (c : Configuration) (ts : List Transition) :
    Except MoveError Configuration :=
  ts.foldlM m.fire c

@[simp] theorem fireAll_nil : m.fireAll c [] = .ok c := rfl

theorem fireAll_cons_eq_ok_iff {t : Transition} {ts : List Transition} :
    m.fireAll c (t :: ts) = .ok last ↔
      ∃ next, m.fire c t = .ok next ∧ m.fireAll next ts = .ok last := by
  rw [fireAll, List.foldlM_cons]
  cases hfire : m.fire c t with
  | error e => simp [bind, Except.bind]
  | ok next => simp [bind, Except.bind, fireAll]

theorem fireAll_append {ts us : List Transition} :
    m.fireAll c (ts ++ us) = (m.fireAll c ts).bind fun next => m.fireAll next us :=
  List.foldlM_append

/-- A list of transitions fires with one more at its end exactly if it fires, and the last one
fires where it leads. -/
theorem fireAll_concat_eq_ok_iff {ts : List Transition} {t : Transition} :
    m.fireAll c (ts ++ [t]) = .ok last ↔
      ∃ next, m.fireAll c ts = .ok next ∧ m.fire next t = .ok last := by
  rw [fireAll_append]
  cases m.fireAll c ts with
  | error e => simp [Except.bind]
  | ok next => simp [Except.bind, fireAll_cons_eq_ok_iff]

/-! ## Exploring with successors -/

/-- `m.Explores c word next` says that a caller can go from `c` to `next` by asking for the
successors on an input, or on none, and going on from one of them, where the inputs make up the
word. -/
inductive Explores (m : Automaton) : Configuration → List Symbol → Configuration → Prop
  | stop (c : Configuration) : Explores m c [] c
  | step {c next last : Configuration} {input : Option Symbol} {cs : List Configuration}
      {word : List Symbol} :
      m.successors c input = .ok cs → next ∈ cs → Explores m next word last →
        Explores m c (input.toList ++ word) last

theorem offer?_eq_ok_iff {input : Option Symbol} :
    m.offer? input = .ok () ↔ ∀ s ∈ input, s ∈ m.inputAlphabet := by
  cases input with
  | none => simp [offer?]
  | some s =>
    simp only [offer?, offer, Option.mem_some_iff, forall_eq']
    split
    · next hs => simp [hs]
    · next hs => simp [hs]

/-- The transitions that are applicable are those that fire and read the input that was offered,
and there are any only if the automaton can read it. -/
theorem applicable_eq_ok_iff {input : Option Symbol} {ts : List Transition} :
    m.applicable c input = .ok ts ↔
      (∀ s ∈ input, s ∈ m.inputAlphabet) ∧ ∃ top, c.top? = some top ∧
        ts = m.transitions.filter fun t => t.fits c.state input top := by
  rw [← offer?_eq_ok_iff, applicable]
  cases hoffer : m.offer? input with
  | error e => simp [bind, Except.bind]
  | ok u =>
    cases htop : c.top? with
    | none => simp [bind, Except.bind, throw, throwThe, MonadExceptOf.throw]
    | some top => simp [bind, Except.bind, pure, Except.pure, eq_comm]

theorem successors_eq_ok_iff {input : Option Symbol} {cs : List Configuration} :
    m.successors c input = .ok cs ↔
      ∃ ts, m.applicable c input = .ok ts ∧ ts ≠ [] ∧ cs = ts.map c.move := by
  rw [successors]
  cases happlicable : m.applicable c input with
  | error e => simp [bind, Except.bind]
  | ok ts =>
    cases ts with
    | nil => simp [bind, Except.bind, throw, throwThe, MonadExceptOf.throw]
    | cons t ts => simp [bind, Except.bind, pure, Except.pure, eq_comm]

/-- One step with successors is one transition that fires and reads the input that was offered. -/
theorem exists_mem_successors_iff {input : Option Symbol} :
    (∃ cs, m.successors c input = .ok cs ∧ next ∈ cs) ↔
      (∀ s ∈ input, s ∈ m.inputAlphabet) ∧ ∃ t, t.input = input ∧ m.fire c t = .ok next := by
  constructor
  · intro h
    obtain ⟨cs, hcs, hnext⟩ := h
    obtain ⟨ts, hts, -, rfl⟩ := successors_eq_ok_iff.1 hcs
    obtain ⟨hread, top, htop, rfl⟩ := applicable_eq_ok_iff.1 hts
    obtain ⟨t, ht, rfl⟩ := List.mem_map.1 hnext
    obtain ⟨hmem, hfits⟩ := List.mem_filter.1 ht
    simp only [Transition.fits, Bool.and_eq_true, decide_eq_true_eq] at hfits
    obtain ⟨⟨hsource, hinput⟩, htaken⟩ := hfits
    exact ⟨hread, t, hinput, fire_eq_ok_iff.2 ⟨hmem, hsource, htaken ▸ htop, rfl⟩⟩
  · intro h
    obtain ⟨hread, t, hinput, hfire⟩ := h
    obtain ⟨hmem, hsource, htop, rfl⟩ := fire_eq_ok_iff.1 hfire
    have hfits : t.fits c.state input t.top = true := by simp [Transition.fits, hsource, hinput]
    have ht : t ∈ m.transitions.filter fun u => u.fits c.state input t.top :=
      List.mem_filter.2 ⟨hmem, hfits⟩
    have happlicable := applicable_eq_ok_iff.2 ⟨hread, t.top, htop, rfl⟩
    exact ⟨_, successors_eq_ok_iff.2 ⟨_, happlicable, List.ne_nil_of_mem ht, rfl⟩,
      List.mem_map_of_mem ht⟩

/-- Exploring with successors makes the same runs as firing transitions that read the word, if the
word is one over the input alphabet. -/
theorem explores_iff {word : List Symbol} :
    m.Explores c word last ↔
      (∀ s ∈ word, s ∈ m.inputAlphabet) ∧
        ∃ ts, m.fireAll c ts = .ok last ∧ Transition.reads ts = word := by
  constructor
  · intro h
    induction h with
    | stop c => exact ⟨List.forall_mem_nil _, [], rfl, rfl⟩
    | step hcs hnext _ ih =>
      obtain ⟨hword, ts, hfireAll, rfl⟩ := ih
      obtain ⟨hinput, t, rfl, hfire⟩ := exists_mem_successors_iff.1 ⟨_, hcs, hnext⟩
      refine ⟨?_, t :: ts, fireAll_cons_eq_ok_iff.2 ⟨_, hfire, hfireAll⟩,
        Transition.reads_cons t ts⟩
      intro s hs
      rcases List.mem_append.1 hs with hfirst | hrest
      · exact hinput s (Option.mem_toList.1 hfirst)
      · exact hword s hrest
  · intro h
    obtain ⟨hword, ts, hfireAll, rfl⟩ := h
    induction ts generalizing c with
    | nil =>
      obtain rfl := Except.ok.inj hfireAll
      exact Explores.stop c
    | cons t ts ih =>
      rw [Transition.reads_cons] at hword ⊢
      obtain ⟨next, hfire, hrest⟩ := fireAll_cons_eq_ok_iff.1 hfireAll
      have hinput : ∀ s ∈ t.input, s ∈ m.inputAlphabet := fun s hs =>
        hword s (List.mem_append_left _ (Option.mem_toList.2 hs))
      obtain ⟨cs, hcs, hnext⟩ := exists_mem_successors_iff.2 ⟨hinput, t, rfl, hfire⟩
      exact Explores.step hcs hnext
        (ih hrest fun s hs => hword s (List.mem_append_right _ hs))

/-! ## All that is reached -/

/-- The configurations that a caller reaches who offers inputs, or none, one after the other, and
each time goes on from one of the successors.  A configuration is listed once for every way to
it. -/
def reachable (m : Automaton) : List (Option Symbol) → Configuration → List Configuration
  | [], c => [c]
  | input :: inputs, c =>
    match m.successors c input with
    | .ok cs => cs.flatMap (m.reachable inputs)
    | .error _ => []

theorem mem_reachable_cons {inputs : List (Option Symbol)} :
    last ∈ m.reachable (input :: inputs) c ↔
      ∃ cs, m.successors c input = .ok cs ∧ ∃ next ∈ cs, last ∈ m.reachable inputs next := by
  rw [reachable]
  cases m.successors c input with
  | ok cs => simp
  | error refusal => simp

/-- Exploring reads the symbols among the inputs that are offered. -/
theorem explores_iff_exists_mem_reachable {word : List Symbol} :
    m.Explores c word last ↔
      ∃ inputs, inputs.flatMap Option.toList = word ∧ last ∈ m.reachable inputs c := by
  constructor
  · intro h
    induction h with
    | stop c => exact ⟨[], rfl, List.mem_singleton_self c⟩
    | step hcs hnext _ ih =>
      obtain ⟨inputs, rfl, hlast⟩ := ih
      exact ⟨_ :: inputs, rfl, mem_reachable_cons.2 ⟨_, hcs, _, hnext, hlast⟩⟩
  · intro h
    obtain ⟨inputs, rfl, hlast⟩ := h
    induction inputs generalizing c with
    | nil =>
      obtain rfl := List.mem_singleton.1 hlast
      exact .stop last
    | cons input inputs ih =>
      obtain ⟨cs, hcs, next, hnext, hlast⟩ := mem_reachable_cons.1 hlast
      exact .step hcs hnext (ih hlast)

end Automaton

end ContextFree
