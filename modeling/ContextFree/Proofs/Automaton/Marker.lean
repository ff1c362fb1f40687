import ContextFree.Automaton.OfGrammar
import ContextFree.Proofs.Automaton.Session
import ContextFree.Proofs.Grammar.WellFormed

/-!
# The bottom marker stays where it is

A run of a grammar's automaton has declared symbols on its stack and the bottom marker under them,
whatever it is told to do.  Nothing can be taken from an empty stack then, and accepting with an
empty stack as well makes no difference.

* Configurations.  `Grammar.Marked` is the invariant.  `Grammar.Marked.move` is the step: the marker
  is not a declared symbol, so only the opening and the closing transition see it.
* Sessions.  `Grammar.Keeps` is the invariant of a run, `Grammar.Keeps.leadsTo` says that a command
  keeps it, and `Grammar.keeps_of_reached` that a whole session does.
-/

namespace ContextFree

open Automaton

/-! ## Configurations -/

namespace Grammar

variable {g : Grammar} {c next : Configuration} {m : Automaton}

/-- The bottom marker is under declared symbols, and under nothing in `closing`. -/
structure Marked (g : Grammar) (c : Configuration) : Prop where
  stack : ∃ above, above ⊆ g.vocabulary ∧ c.stack = above ++ [Symbol.bottom]
  closed : c.state = closing → c.stack = [Symbol.bottom]

namespace Marked

theorem stack_ne_nil (h : g.Marked c) : c.stack ≠ [] := by
  obtain ⟨above, -, hstack⟩ := h.stack
  simp [hstack]

/-- Where the marker is on top, nothing else is on the stack. -/
theorem stack_eq_of_top (h : g.Marked c) (htop : c.top? = some Symbol.bottom) :
    c.stack = [Symbol.bottom] := by
  obtain ⟨above, habove, hstack⟩ := h.stack
  cases above with
  | nil => exact hstack
  | cons s above =>
    have hs : s = Symbol.bottom := by simpa [Configuration.top?, hstack] using htop
    exact absurd (habove (List.mem_cons_self)) (hs ▸ g.wellFormed.bottom_not_mem)

/-- Where a declared symbol is on top, the marker is still under what is below it. -/
theorem tail_of_top (h : g.Marked c) {s : Symbol} (hs : s ∈ g.vocabulary)
    (htop : c.top? = some s) :
    ∃ above, above ⊆ g.vocabulary ∧ c.stack.tail = above ++ [Symbol.bottom] := by
  obtain ⟨above, habove, hstack⟩ := h.stack
  cases above with
  | nil =>
    have heq : Symbol.bottom = s := by simpa [Configuration.top?, hstack] using htop
    exact absurd hs (heq ▸ g.wellFormed.bottom_not_mem)
  | cons t above => exact ⟨above, (List.cons_subset.1 habove).2, by simp [hstack]⟩

/-- Runs begin with nothing above the marker. -/
theorem initial (g : Grammar) (fromOpening : Bool) :
    g.Marked (g.automaton fromOpening).initial :=
  ⟨⟨[], List.nil_subset _, rfl⟩, fun _ => rfl⟩

/-- A transition keeps the marker where it is. -/
theorem move (h : g.Marked c) {t : Transition} (ht : t ∈ g.transitions)
    (htop : c.top? = some t.top) : g.Marked (c.move t) := by
  have hworking : working ≠ closing := by decide
  rcases Declaration.mem_transitions.1 ht with rfl | rfl | ⟨p, hp, rfl⟩
  · have hstart : [g.start] ⊆ g.vocabulary :=
      List.cons_subset.2 ⟨List.mem_append_right _ g.wellFormed.start_mem, List.nil_subset _⟩
    refine ⟨⟨[g.start], hstart, ?_⟩, fun hstate => absurd hstate hworking⟩
    rw [Configuration.move_stack, h.stack_eq_of_top htop]
    rfl
  · have hstack : (c.move Declaration.closingTransition).stack = [Symbol.bottom] := by
      rw [Configuration.move_stack, h.stack_eq_of_top htop]
      rfl
    exact ⟨⟨[], List.nil_subset _, hstack⟩, fun _ => hstack⟩
  · have hhead : p.head ∈ g.vocabulary := List.mem_append_right _ (g.wellFormed.head_mem p hp)
    obtain ⟨above, habove, htail⟩ := h.tail_of_top hhead htop
    have hbody : p.body.tail ⊆ g.vocabulary := fun s hs =>
      g.wellFormed.body_subset p hp (List.mem_of_mem_tail hs)
    refine ⟨⟨p.body.tail ++ above, List.append_subset.2 ⟨hbody, habove⟩, ?_⟩,
      fun hstate => absurd hstate hworking⟩
    rw [Configuration.move_stack, htail, List.append_assoc]
    rfl

theorem fire (h : g.Marked c) (hm : m.transitions = g.transitions) {t : Transition}
    (hfire : m.fire c t = .ok next) : g.Marked next := by
  obtain ⟨hmem, -, htop, rfl⟩ := fire_eq_ok_iff.1 hfire
  exact h.move (hm ▸ hmem) htop

theorem successors (h : g.Marked c) (hm : m.transitions = g.transitions) {input : Option Symbol}
    {cs : List Configuration} (hcs : m.successors c input = .ok cs) :
    ∀ next ∈ cs, g.Marked next := by
  intro next hnext
  obtain ⟨-, t, -, hfire⟩ := exists_mem_successors_iff.1 ⟨cs, hcs, hnext⟩
  exact h.fire hm hfire

/-- Nothing moves in `closing`. -/
theorem fire_closing (h : g.Marked c) (hm : m.transitions = g.transitions)
    (hstate : c.state = closing) (t : Transition) :
    m.fire c t = .error .noApplicableTransition := by
  have hopening : opening ≠ closing := by decide
  have hworking : working ≠ closing := by decide
  refine fire_of_source_ne h.stack_ne_nil (fun t ht => ?_) t
  rw [hstate]
  rcases Declaration.mem_transitions.1 (hm ▸ ht) with rfl | rfl | ⟨p, -, rfl⟩
  · exact hopening
  · exact hworking
  · exact hworking

end Marked

/-! ## Sessions -/

/-- What a run keeps: it is one of the grammar's automaton, accepting with an empty stack or not,
and the bottom marker is in its place. -/
structure Keeps (g : Grammar) (fromOpening : Bool) (r : Run) : Prop where
  automaton : r.automaton = g.automaton fromOpening ∨
    r.automaton = (g.automaton fromOpening).withEmptyStackAcceptance
  marked : g.Marked r.configuration

variable {fromOpening : Bool}

namespace Keeps

variable {r : Run} {s next : Session}

theorem begin (g : Grammar) (fromOpening : Bool) :
    g.Keeps fromOpening (g.automaton fromOpening).begin :=
  ⟨Or.inl rfl, Marked.initial g fromOpening⟩

theorem transitions (h : g.Keeps fromOpening r) : r.automaton.transitions = g.transitions := by
  rcases h.automaton with heq | heq
  · rw [heq]; rfl
  · rw [heq]; rfl

theorem goTo (h : g.Keeps fromOpening r) (hc : g.Marked c) : g.Keeps fromOpening (r.goTo c) :=
  ⟨h.automaton, hc⟩

theorem reset (h : g.Keeps fromOpening r) : g.Keeps fromOpening r.automaton.begin := by
  refine ⟨h.automaton, ?_⟩
  rcases h.automaton with heq | heq
  · rw [heq]; exact Marked.initial g fromOpening
  · rw [heq, Run.begin_withEmptyStackAcceptance]; exact Marked.initial g fromOpening

theorem withEmptyStackAcceptance (h : g.Keeps fromOpening r) :
    g.Keeps fromOpening r.withEmptyStackAcceptance := by
  refine ⟨Or.inr ?_, h.marked⟩
  change r.automaton.withEmptyStackAcceptance = _
  rcases h.automaton with heq | heq
  · rw [heq]
  · rw [heq]; rfl

/-- A command keeps the run and the one that was put aside, if what it installs has the marker in
its place. -/
theorem leadsTo {command : Command} (h : g.Keeps fromOpening s.current)
    (hsaved : g.Keeps fromOpening s.saved) (hinstall : ∀ c, command = .install c → g.Marked c)
    {answer : Answer} (hnext : s.LeadsTo command next answer) :
    g.Keeps fromOpening next.current ∧ g.Keeps fromOpening next.saved := by
  cases hnext with
  | answers => exact ⟨h, hsaved⟩
  | refuses => exact ⟨h, hsaved⟩
  | fires hfire => exact ⟨h.goTo (h.marked.fire h.transitions hfire), hsaved⟩
  | installs hcommand => exact ⟨h.goTo (hinstall _ hcommand), hsaved⟩
  | resets => exact ⟨h.reset, hsaved⟩
  | acceptsEmptyStack => exact ⟨h.withEmptyStackAcceptance, hsaved⟩
  | saves => exact ⟨h, h⟩
  | restores => exact ⟨hsaved, hsaved⟩

end Keeps

/-- All runs of a session keep the marker in its place, and so do the configurations that were
offered. -/
theorem keeps_of_reached {s : Session} {offered : List Configuration}
    (h : Session.Reached (g.automaton fromOpening) s offered) :
    g.Keeps fromOpening s.current ∧ g.Keeps fromOpening s.saved ∧
      ∀ c ∈ offered, g.Marked c := by
  induction h with
  | start => exact ⟨Keeps.begin g fromOpening, Keeps.begin g fromOpening, List.forall_mem_nil _⟩
  | ask _ hask ih =>
    obtain ⟨hcurrent, hsaved, hoffered⟩ := ih
    have hcs := Session.successors_eq_ok_of_perform hask
    have hmarked := hcurrent.marked.successors hcurrent.transitions hcs
    exact ⟨hcurrent, hsaved, List.forall_mem_append.2 ⟨hoffered, hmarked⟩⟩
  | @perform s offered command _ hinstall ih =>
    obtain ⟨hcurrent, hsaved, hoffered⟩ := ih
    have hmarked : ∀ c, command = .install c → g.Marked c := fun c hc =>
      hoffered c (hinstall c hc)
    obtain ⟨hcurrent, hsaved⟩ := hcurrent.leadsTo hsaved hmarked (s.leadsTo_perform command)
    exact ⟨hcurrent, hsaved, hoffered⟩

/-- In every session of a caller who installs only what was offered, the bottom marker stands at
the bottom of the stack and nowhere else, under declared symbols, and alone in the state `closing`,
where no transition fires.  So no command is refused for want of a top, and accepting with an empty
stack as well makes no difference. -/
theorem marker_at_bottom (g : Grammar) (fromOpening : Bool) {s : Session}
    {offered : List Configuration} (h : Session.Reached (g.automaton fromOpening) s offered) :
    (∃ above, s.current.configuration.stack = above ++ [Symbol.bottom] ∧
        Symbol.bottom ∉ above ∧ above ⊆ g.vocabulary) ∧
      (s.current.configuration.state = closing →
        s.current.configuration.stack = [Symbol.bottom] ∧
        ∀ t, s.current.automaton.fire s.current.configuration t =
          .error .noApplicableTransition) ∧
      (∀ command, (s.perform command).2 ≠ .refused .stackUnderflow) ∧
      ∀ emptyStack,
        { s.current.automaton with acceptsEmptyStack := emptyStack }.accepts
            s.current.configuration =
          s.current.automaton.accepts s.current.configuration := by
  obtain ⟨hcurrent, -, -⟩ := keeps_of_reached h
  have hmarked := hcurrent.marked
  refine ⟨?_, fun hstate => ⟨hmarked.closed hstate, ?_⟩, ?_, fun emptyStack => ?_⟩
  · obtain ⟨above, habove, hstack⟩ := hmarked.stack
    exact ⟨above, hstack, fun hmem => g.wellFormed.bottom_not_mem (habove hmem), habove⟩
  · exact hmarked.fire_closing hcurrent.transitions hstate
  · exact Session.perform_ne_stackUnderflow hmarked.stack_ne_nil
  · have hstack : s.current.configuration.stack.isEmpty = false := by
      simpa using hmarked.stack_ne_nil
    simp [accepts, hstack]

/-- A grammar whose start symbol is spelled like the state `working`. -/
def misleading : Grammar where
  inputs := ["x"]
  heads := ["a1"]
  start := "a1"
  rules := [⟨"a1", ["x"]⟩]
  faults_eq_nil := by decide +kernel

/-- A run that begins in the start symbol `a1` can enter `closing` at once, by a configuration that
was offered, and it stays there with nothing but the marker. -/
theorem misleading_marker_at_bottom :
    Session.Reached (misleading.automaton false)
        ⟨⟨misleading.automaton false, closing, [Symbol.bottom]⟩,
          (misleading.automaton false).begin⟩ [⟨closing, [Symbol.bottom]⟩] ∧
      ∀ t, (misleading.automaton false).fire ⟨closing, [Symbol.bottom]⟩ t =
        .error .noApplicableTransition := by
  have hoffer : (Session.start (misleading.automaton false)).perform (.successors none) =
      (Session.start (misleading.automaton false),
        .configurations [⟨closing, [Symbol.bottom]⟩]) := by decide
  have hask : Session.Reached (misleading.automaton false)
      (Session.start (misleading.automaton false)) [⟨closing, [Symbol.bottom]⟩] :=
    .ask .start hoffer
  have hinstall : Session.Reached (misleading.automaton false)
      ((Session.start (misleading.automaton false)).perform
        (.install ⟨closing, [Symbol.bottom]⟩)).1 [⟨closing, [Symbol.bottom]⟩] :=
    .perform hask (by simp)
  exact ⟨hinstall, ((marker_at_bottom misleading false hinstall).2.1 rfl).2⟩

end Grammar

end ContextFree
