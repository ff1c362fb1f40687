import ContextFree.Automaton.Run
import ContextFree.Proofs.Automaton.Moves

/-!
# What a reset forgets

A caller drives a run with calls of its operations.  An operation is free to change the whole run,
its automaton included, before it is refused or after.  This module says what none of the calls
touches, on an automaton of any shape and wherever its run stands.

* One call.  `Run.Effect` lists what a call can do, with its outcome, and `effect_perform` says that
  the list is complete.  `automaton_perform` and `perform_eq_self` are read off it.
* Sequences of calls.  `Run.after` is where calls lead, and `Run.record` is what a caller sees on
  the way.  `automaton_of_mem_record` and `record_append` go along them.

`Run.driven_run` puts these together.  After a reset nothing that was done before can be seen.
-/

namespace ContextFree

/-- A call of one of the operations of a run, with its arguments. -/
inductive Call where
  | offer (s : Symbol)
  | applicable (input : Option Symbol)
  | successors (input : Option Symbol)
  | fire (t : Transition)
  | install (c : Configuration)
  | reset
deriving DecidableEq

/-- What a call gives back, if it is not refused. -/
inductive Reply where
  | done
  | transitions (ts : List Transition)
  | configurations (cs : List Configuration)
deriving DecidableEq

namespace Call

/-- Whether a call only asks something. -/
def IsQuestion : Call → Prop
  | .offer _ | .applicable _ | .successors _ => True
  | .fire _ | .install _ | .reset => False

/-- The operation that is called, with what it gives back. -/
def operation : Call → Run.Operation Reply
  | .offer s => do Run.offer s; return .done
  | .applicable input => return .transitions (← Run.applicable input)
  | .successors input => return .configurations (← Run.successors input)
  | .fire t => do Run.fire t; return .done
  | .install c => do Run.install c; return .done
  | .reset => do Run.reset; return .done

end Call

namespace Run

variable {r : Run} {call : Call}

/-- Calls an operation.  Gives the outcome and the run after it. -/
def perform (r : Run) (call : Call) : Except MoveError Reply × Run := r.obey call.operation

/-! ## One call -/

/-- What a call can do, as its outcome and the run after it. -/
inductive Effect (r : Run) (call : Call) : Except MoveError Reply → Run → Prop
  | answers {outcome : Except MoveError Reply} : call.IsQuestion → Effect r call outcome r
  | refuses (e : MoveError) : Effect r call (.error e) r
  | moves (reply : Reply) (c : Configuration) : ¬ call.IsQuestion →
      Effect r call (.ok reply) (r.goTo c)

/-- A question leaves the run as it was, whatever is made of the answer. -/
theorem obey_bind_of_question {α β : Type} {question : Operation α}
    {outcome : Except MoveError α} (h : r.obey question = (outcome, r)) (f : α → β) :
    (r.obey (question >>= fun a => pure (f a))).2 = r := by
  rw [obey_bind, h]
  cases outcome with
  | ok a => rfl
  | error e => rfl

/-- Every call does one of the things that `Effect` lists. -/
theorem effect_perform (r : Run) (call : Call) :
    r.Effect call (r.perform call).1 (r.perform call).2 := by
  have hquestion (hcall : call.IsQuestion) (h : (r.perform call).2 = r) :
      r.Effect call (r.perform call).1 (r.perform call).2 := by
    rw [h]
    exact .answers hcall
  cases call with
  | offer s => exact hquestion trivial (obey_bind_of_question (r.obey_offer s) _)
  | applicable input =>
    exact hquestion trivial (obey_bind_of_question (r.obey_applicable input) _)
  | successors input =>
    exact hquestion trivial (obey_bind_of_question (r.obey_successors input) _)
  | fire t =>
    rw [perform, Call.operation, obey_bind, obey_fire]
    cases r.automaton.fire r.configuration t with
    | ok c => exact .moves .done c id
    | error e => exact .refuses e
  | install c => exact .moves .done c id
  | reset => exact .moves .done r.automaton.initial id

/-- A call does not change the automaton. -/
theorem automaton_perform (r : Run) (call : Call) :
    (r.perform call).2.automaton = r.automaton := by
  have heffect := r.effect_perform call
  generalize (r.perform call).1 = outcome at heffect
  generalize (r.perform call).2 = next at heffect ⊢
  cases heffect with
  | answers => rfl
  | refuses => rfl
  | moves => rfl

/-- A question changes nothing, and neither does a call that is refused. -/
theorem perform_eq_self (h : call.IsQuestion ∨ ∃ e, (r.perform call).1 = .error e) :
    (r.perform call).2 = r := by
  have heffect := r.effect_perform call
  generalize (r.perform call).1 = outcome at h heffect
  generalize (r.perform call).2 = next at heffect ⊢
  cases heffect with
  | answers => rfl
  | refuses => rfl
  | moves reply c hcall =>
    obtain ⟨e, he⟩ := h.resolve_left hcall
    simp at he

theorem perform_reset (r : Run) : r.perform .reset = (.ok .done, r.automaton.begin) := by
  rw [perform, Call.operation, obey_bind, obey_reset]
  rfl

/-! ## Sequences of calls -/

/-- Where calls lead, one after the other. -/
def after (r : Run) (calls : List Call) : Run := calls.foldl (fun r call => (r.perform call).2) r

theorem after_cons (r : Run) (call : Call) (calls : List Call) :
    r.after (call :: calls) = (r.perform call).2.after calls := rfl

/-- What a caller sees of calls: the outcome of each, with the run after it. -/
def record (r : Run) : List Call → List (Except MoveError Reply × Run)
  | [] => []
  | call :: calls => r.perform call :: (r.perform call).2.record calls

theorem record_append (r : Run) (calls further : List Call) :
    r.record (calls ++ further) = r.record calls ++ (r.after calls).record further := by
  induction calls generalizing r with
  | nil => rfl
  | cons call calls ih => rw [List.cons_append, record, record, ih, after_cons, List.cons_append]

/-- Calls do not change the automaton. -/
theorem automaton_after (r : Run) (calls : List Call) :
    (r.after calls).automaton = r.automaton := by
  induction calls generalizing r with
  | nil => rfl
  | cons call calls ih => rw [after_cons, ih, automaton_perform]

theorem automaton_of_mem_record (r : Run) (calls : List Call) :
    ∀ entry ∈ r.record calls, entry.2.automaton = r.automaton := by
  induction calls generalizing r with
  | nil => exact List.forall_mem_nil _
  | cons call calls ih =>
    have hfirst := r.automaton_perform call
    intro entry hentry
    rcases List.mem_cons.1 hentry with heq | hmem
    · rw [heq, hfirst]
    · rw [ih _ entry hmem, hfirst]

/-- Calls of the operations of a run touch nothing but where it stands, and a reset forgets even
that.

Whatever the automaton is, and wherever its run stands, no sequence of calls changes the automaton.
A question changes nothing at all, and neither does a call that is refused.  What is seen after a
reset is what is seen of the same automaton in a run that has not moved yet. -/
theorem driven_run (r : Run) :
    (∀ calls, ∀ entry ∈ r.record calls, entry.2.automaton = r.automaton) ∧
    (∀ calls call, (call.IsQuestion ∨ ∃ e, ((r.after calls).perform call).1 = .error e) →
      ((r.after calls).perform call).2 = r.after calls) ∧
    ∀ calls further, r.record (calls ++ .reset :: further) =
      r.record calls ++ (.ok .done, r.automaton.begin) :: r.automaton.begin.record further := by
  refine ⟨r.automaton_of_mem_record, fun calls call => perform_eq_self, ?_⟩
  intro calls further
  rw [record_append, record, perform_reset, automaton_after]

/-- A run is put where the automaton cannot go on, and a transition of another automaton is refused
there.  After a reset both are forgotten, but not that the empty stack is accepted. -/
theorem twofold_driven_run :
    let r := Automaton.twofold.begin.withEmptyStackAcceptance
    let stuck : List Call := [.install ⟨"q", ["Z"]⟩]
    let foreign : Call := .fire ⟨"q", none, "Z", "q", []⟩
    let further : List Call := [.successors (some "x"), .fire ⟨"p", some "x", "Z", "p", []⟩]
    ((r.after stuck).perform foreign).1 = .error .noApplicableTransition ∧
      ((r.after stuck).perform foreign).2 = r.after stuck ∧
      r.record (stuck ++ .reset :: further) =
        [(.ok .done, r.goTo ⟨"q", ["Z"]⟩), (.ok .done, r),
          (.ok (.configurations [⟨"p", []⟩, ⟨"p", []⟩]), r), (.ok .done, r.goTo ⟨"p", []⟩)] := by
  intro r stuck foreign further
  obtain ⟨-, hstays, hreset⟩ := driven_run r
  have hrefused : ((r.after stuck).perform foreign).1 = .error .noApplicableTransition := by
    decide +kernel
  have hafterwards : r.automaton.begin.record further =
      [(.ok (.configurations [⟨"p", []⟩, ⟨"p", []⟩]), r), (.ok .done, r.goTo ⟨"p", []⟩)] := by
    decide +kernel
  refine ⟨hrefused, hstays stuck foreign (.inr ⟨_, hrefused⟩), ?_⟩
  rw [hreset stuck further, hafterwards]
  rfl

end Run

end ContextFree
