import ContextFree.Automaton.Session
import ContextFree.Proofs.Automaton.Run

/-!
# What a command can do

A session obeys twelve commands, and most of them only answer.  This module says once what they can
do, for an automaton of any shape, so that proofs about whole sessions do not look at commands.

* `Run.Turn` says what comes of asking a run or firing a transition, and there is one lemma for each
  operation that does so, from `turn_offer` to `turn_fireAt`.
* `Session.LeadsTo` lists what a command can come to, as the session after it and the answer, and
  `leadsTo_perform` says that the list is complete.  A run that goes on has fired a transition, has
  installed what it was told to, or begins again, and what is refused has done nothing.
* `Session.perform_ne_stackUnderflow` says that no command is refused for want of a top while there
  is something on the stack.
* `Session.Reached` lists the sessions of a caller who installs only what was offered.
-/

namespace ContextFree

namespace Automaton

variable {m : Automaton} {c : Configuration}

/-! ## Moves with something on the stack -/

/-- With something on the stack a transition is refused only because it does not fit. -/
theorem fire_eq_error (hc : c.stack ≠ []) {t : Transition} {e : MoveError}
    (h : m.fire c t = .error e) : e = .noApplicableTransition := by
  obtain ⟨top, below, hstack⟩ := List.exists_cons_of_ne_nil hc
  have htop : c.top? = some top := by simp [Configuration.top?, hstack]
  rw [fire, htop] at h
  dsimp only at h
  split at h
  · simp at h
  · exact (Except.error.inj h).symm

/-- No transition fires in a state that the automaton's transitions do not leave. -/
theorem fire_of_source_ne (hc : c.stack ≠ []) (hleave : ∀ t ∈ m.transitions, t.source ≠ c.state)
    (t : Transition) : m.fire c t = .error .noApplicableTransition := by
  cases hfire : m.fire c t with
  | ok next =>
    obtain ⟨hmem, hsource, -⟩ := fire_eq_ok_iff.1 hfire
    exact absurd hsource (hleave t hmem)
  | error e => rw [fire_eq_error hc hfire]

/-- A chain does not end with an error that none of its links gives. -/
theorem bind_ne_error {α β : Type} {first : Except MoveError α} {next : α → Except MoveError β}
    {e : MoveError} (hfirst : first ≠ .error e) (hthen : ∀ a, next a ≠ .error e) :
    (first >>= next) ≠ .error e := by
  cases first with
  | ok a => exact hthen a
  | error e' => simpa [bind, Except.bind] using hfirst

theorem offer_ne_stackUnderflow (s : Symbol) : m.offer s ≠ .error .stackUnderflow := by
  rw [offer]
  split
  · simp
  · simp

theorem stack_eq_nil_of_applicable {input : Option Symbol}
    (h : m.applicable c input = .error .stackUnderflow) : c.stack = [] := by
  by_contra hc
  obtain ⟨top, below, hstack⟩ := List.exists_cons_of_ne_nil hc
  have htop : c.top? = some top := by simp [Configuration.top?, hstack]
  have hoffer : m.offer? input ≠ .error .stackUnderflow := by
    cases input with
    | none => simp [offer?]
    | some s => exact offer_ne_stackUnderflow s
  rw [applicable, htop] at h
  exact bind_ne_error hoffer (fun _ => by simp [pure, Except.pure]) h

theorem stack_eq_nil_of_successors {input : Option Symbol}
    (h : m.successors c input = .error .stackUnderflow) : c.stack = [] := by
  by_contra hc
  refine bind_ne_error (mt stack_eq_nil_of_applicable hc) (fun fitting => ?_) h
  cases fitting with
  | nil => simp [throw, throwThe, MonadExceptOf.throw]
  | cons t ts => simp [pure, Except.pure]

theorem stack_eq_nil_of_fire {t : Transition} (h : m.fire c t = .error .stackUnderflow) :
    c.stack = [] := by
  by_contra hc
  exact absurd (fire_eq_error hc h) (by simp)

end Automaton

/-! ## Operations -/

namespace Run

/-- What comes of an operation that asks something or fires a transition.  Either the run stays where
it was, and there was no top if that is why.  Or it has gone where a transition leads. -/
inductive Turn {α : Type} (r : Run) : Except MoveError α × Run → Prop
  | stays {outcome : Except MoveError α} :
      (outcome = .error .stackUnderflow → r.configuration.stack = []) → Turn r (outcome, r)
  | fires {t : Transition} {c : Configuration} (a : α) :
      r.automaton.fire r.configuration t = .ok c → Turn r (.ok a, r.goTo c)

variable (r : Run)

theorem turn_offer (s : Symbol) : r.Turn (r.obey (offer s)) := by
  rw [obey_offer]
  exact .stays fun h => absurd h (Automaton.offer_ne_stackUnderflow s)

theorem turn_applicable (input : Option Symbol) : r.Turn (r.obey (applicable input)) := by
  rw [obey_applicable]
  exact .stays Automaton.stack_eq_nil_of_applicable

theorem turn_successors (input : Option Symbol) : r.Turn (r.obey (successors input)) := by
  rw [obey_successors]
  exact .stays Automaton.stack_eq_nil_of_successors

theorem turn_fire (t : Transition) : r.Turn (r.obey (fire t)) := by
  rw [obey_fire]
  cases hfire : r.automaton.fire r.configuration t with
  | ok c => exact .fires () hfire
  | error e =>
    apply Turn.stays
    intro he
    rw [Except.error.inj he] at hfire
    exact Automaton.stack_eq_nil_of_fire hfire

end Run

namespace Session

/-- A successor that is picked is where one of the automaton's own transitions leads. -/
theorem turn_choose (r : Run) (input : Option Symbol) (pick : Nat) :
    r.Turn (r.obey (choose input pick)) := by
  rw [choose, Run.obey_bind, Run.obey_successors]
  cases hcs : r.automaton.successors r.configuration input with
  | error e =>
    apply Run.Turn.stays
    intro he
    rw [Except.error.inj he] at hcs
    exact Automaton.stack_eq_nil_of_successors hcs
  | ok cs =>
    dsimp only
    cases hc : cs[pick % cs.length]? with
    | none => exact .stays (by simp)
    | some c =>
      obtain ⟨-, t, -, hfire⟩ :=
        Automaton.exists_mem_successors_iff.1 ⟨cs, hcs, List.mem_of_getElem? hc⟩
      exact .fires cs.length hfire

theorem turn_fireAt (r : Run) (index : Nat) : r.Turn (r.obey (fireAt index)) := by
  rw [fireAt, Run.obey_get_bind]
  cases r.transitions[index]? with
  | none => exact .stays (by simp)
  | some t =>
    dsimp only
    rw [Run.obey_bind]
    have hturn := r.turn_fire t
    generalize r.obey (Run.fire t) = result at hturn ⊢
    cases hturn with
    | @stays outcome h =>
      cases outcome with
      | ok a => exact .stays (by simp)
      | error e => exact .stays (by simpa using h)
    | fires _ hfire => exact .fires t hfire

/-! ## Commands -/

/-- What a command can come to, as the session after it and the answer.  Either the session stays as
it was, with an answer or a refusal.  Or its run goes on elsewhere, or begins again, or accepts in
one more way, or a run is put aside or taken up again. -/
inductive LeadsTo (s : Session) (command : Command) : Session → Answer → Prop
  | answers {answer : Answer} : (∀ e, answer ≠ .refused e) → LeadsTo s command s answer
  | refuses {e : MoveError} : (e = .stackUnderflow → s.current.configuration.stack = []) →
      LeadsTo s command s (.refused e)
  | fires {t : Transition} {c : Configuration} {answer : Answer} :
      s.current.automaton.fire s.current.configuration t = .ok c → (∀ e, answer ≠ .refused e) →
        LeadsTo s command (s.goTo c) answer
  | installs {c : Configuration} : command = .install c → LeadsTo s command (s.goTo c) .done
  | resets : LeadsTo s command { s with current := s.current.automaton.begin } .done
  | acceptsEmptyStack :
      LeadsTo s command { s with current := s.current.withEmptyStackAcceptance } .done
  | saves : LeadsTo s command { s with saved := s.current } .done
  | restores : LeadsTo s command { s with current := s.saved } .done

variable {s : Session} {command : Command}

/-- A command that has the run ask something or fire a transition leads where this leads. -/
theorem LeadsTo.of_turn {α : Type} {operation : Run.Operation α} {answer : α → Answer}
    (hturn : s.current.Turn (s.current.obey operation)) (hanswer : ∀ a e, answer a ≠ .refused e) :
    s.LeadsTo command (s.tell operation answer).1 (s.tell operation answer).2 := by
  unfold tell
  generalize s.current.obey operation = result at hturn ⊢
  cases hturn with
  | @stays outcome hempty =>
    cases outcome with
    | ok a => exact .answers (hanswer a)
    | error e => exact .refuses fun he => hempty (by rw [he])
  | fires a hfire => exact .fires hfire (hanswer a)

/-- Every command comes to one of the things that `LeadsTo` lists. -/
theorem leadsTo_perform (s : Session) (command : Command) :
    s.LeadsTo command (s.perform command).1 (s.perform command).2 := by
  cases command with
  | offer symbol => exact .of_turn (s.current.turn_offer symbol) (by simp)
  | applicable input => exact .of_turn (s.current.turn_applicable input) (by simp)
  | successors input => exact .of_turn (s.current.turn_successors input) (by simp)
  | choose input pick => exact .of_turn (turn_choose s.current input pick) (by simp)
  | install c => exact .installs rfl
  | fireAt index => exact .of_turn (turn_fireAt s.current index) (by simp)
  | fire t => exact .of_turn (s.current.turn_fire t) (by simp)
  | reset => exact .resets
  | render => exact .answers (by simp [perform])
  | acceptEmptyStack => exact .acceptsEmptyStack
  | save => exact .saves
  | restore => exact .restores

/-- With something on the stack no command is refused for want of a top. -/
theorem perform_ne_stackUnderflow (hc : s.current.configuration.stack ≠ []) (command : Command) :
    (s.perform command).2 ≠ .refused .stackUnderflow := by
  intro hanswer
  have hleads := s.leadsTo_perform command
  rw [hanswer] at hleads
  generalize (s.perform command).1 = next at hleads
  cases hleads with
  | answers hne => exact hne _ rfl
  | refuses hempty => exact hc (hempty rfl)
  | fires _ hne => exact hne _ rfl

/-! ## Sessions of an honest caller -/

/-- The sessions that a caller can reach who installs only configurations that were offered as
successors before, with all that were offered so far. -/
inductive Reached (m : Automaton) : Session → List Configuration → Prop
  | start : Reached m (Session.start m) []
  | ask {s : Session} {offered cs : List Configuration} {input : Option Symbol} :
      Reached m s offered → s.perform (.successors input) = (s, .configurations cs) →
        Reached m s (offered ++ cs)
  | perform {s : Session} {offered : List Configuration} {command : Command} :
      Reached m s offered → (∀ c, command = .install c → c ∈ offered) →
        Reached m (s.perform command).1 offered

theorem successors_eq_ok_of_perform {input : Option Symbol} {cs : List Configuration}
    (h : s.perform (.successors input) = (s, .configurations cs)) :
    s.current.automaton.successors s.current.configuration input = .ok cs := by
  rw [perform, tell, Run.obey_successors] at h
  cases hcs : s.current.automaton.successors s.current.configuration input with
  | ok offered =>
    rw [hcs] at h
    obtain ⟨-, hanswer⟩ := Prod.mk.inj h
    rw [Answer.configurations.inj hanswer]
  | error e =>
    rw [hcs] at h
    simp at h

end Session

end ContextFree
