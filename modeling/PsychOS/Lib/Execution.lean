/-
Executions of event systems whose steps also answer something.  An execution
is the list of its transitions, each with the states around it, so that later
statements can point at a transition and at what happened before it.
-/
import Mathlib.Data.List.Induction
import PsychOS.Lib.Run

namespace PsychOS

universe u v w

variable {σ : Type u} {ε : Type v} {ο : Type w}

/-- One event at a time with an answer, `none` for an event the state does not
allow. -/
abbrev OutFn (σ : Type u) (ε : Type v) (ο : Type w) := σ → ε → Option (σ × ο)

/-- The steps without their answers. -/
def OutFn.next (step : OutFn σ ε ο) : StepFn σ ε :=
  fun state event => (step state event).map Prod.fst

structure Transition (σ : Type u) (ε : Type v) (ο : Type w) where
  before : σ
  event : ε
  answer : ο
  after : σ

/-- The transitions lead from `start` to `final`, one after the other. -/
inductive Execution (step : OutFn σ ε ο) (start : σ) :
    List (Transition σ ε ο) → σ → Prop where
  | nil : Execution step start [] start
  | concat {transitions : List (Transition σ ε ο)} {state next : σ}
      {event : ε} {answer : ο} (earlier : Execution step start transitions state)
      (hstep : step state event = some (next, answer)) :
      Execution step start (transitions ++ [⟨state, event, answer, next⟩]) next

namespace Execution

variable {step : OutFn σ ε ο} {start state final : σ}
  {transitions : List (Transition σ ε ο)}

theorem cons {event : ε} {answer : ο} {next : σ}
    (hstep : step start event = some (next, answer))
    (hrest : Execution step next transitions final) :
    Execution step start (⟨start, event, answer, next⟩ :: transitions)
      final := by
  induction hrest with
  | nil => exact concat nil hstep
  | concat _ hlast ih => exact concat ih hlast

/-- Every transition of an execution is a step. -/
theorem step_of_mem (hexec : Execution step start transitions final)
    {transition : Transition σ ε ο} (hmem : transition ∈ transitions) :
    step transition.before transition.event =
      some (transition.after, transition.answer) := by
  induction hexec with
  | nil => simp at hmem
  | concat _ hlast ih =>
      rcases List.mem_append.mp hmem with hold | hnew
      · exact ih hold
      · obtain rfl := List.mem_singleton.mp hnew
        exact hlast

/-- The execution up to a transition. -/
theorem take_of_getElem? (hexec : Execution step start transitions final)
    {i : Nat} {transition : Transition σ ε ο}
    (hget : transitions[i]? = some transition) :
    Execution step start (transitions.take i) transition.before := by
  induction hexec with
  | nil => simp at hget
  | @concat earlier state _ _ _ hearlier _ ih =>
      rcases Nat.lt_or_ge i earlier.length with hold | hnew
      · rw [List.getElem?_append_left hold] at hget
        rw [List.take_append_of_le_length (Nat.le_of_lt hold)]
        exact ih hget
      · obtain rfl : i = earlier.length := by
          obtain ⟨hi, -⟩ := List.getElem?_eq_some_iff.mp hget
          simp only [List.length_append, List.length_singleton] at hi
          omega
        rw [List.getElem?_concat_length] at hget
        rw [List.take_left, ← Option.some.inj hget]
        exact hearlier

theorem concat_inv {last : Transition σ ε ο}
    (hexec : Execution step start (transitions ++ [last]) final) :
    Execution step start transitions last.before ∧
      step last.before last.event = some (last.after, last.answer) ∧
      last.after = final := by
  generalize hall : transitions ++ [last] = all at hexec
  cases hexec with
  | nil => simp at hall
  | concat hearlier hstep =>
      obtain ⟨rfl, hlast⟩ := List.append_inj' hall rfl
      obtain rfl := List.singleton_inj.mp hlast
      exact ⟨hearlier, hstep, rfl⟩

/-- A transition of an execution, what comes before it and what after. -/
theorem split {earlier later : List (Transition σ ε ο)}
    {transition : Transition σ ε ο}
    (hexec : Execution step start (earlier ++ transition :: later) final) :
    Execution step start earlier transition.before ∧
      step transition.before transition.event =
        some (transition.after, transition.answer) ∧
      Execution step transition.after later final := by
  induction later using List.reverseRecOn generalizing final with
  | nil =>
      obtain ⟨hearlier, hstep, rfl⟩ := hexec.concat_inv
      exact ⟨hearlier, hstep, .nil⟩
  | append_singleton later last ih =>
      rw [← List.cons_append, ← List.append_assoc] at hexec
      obtain ⟨hfront, hlast, rfl⟩ := hexec.concat_inv
      obtain ⟨hearlier, hstep, hlater⟩ := ih hfront
      exact ⟨hearlier, hstep, hlater.concat hlast⟩

theorem run_eq (hexec : Execution step start transitions final) :
    step.next.run start (transitions.map Transition.event) = some final := by
  induction hexec with
  | nil => rfl
  | concat _ hstep ih =>
      rw [List.map_append, StepFn.run_append, ih]
      simp [StepFn.run, OutFn.next, hstep]

end Execution

/-- Every state the transitions pass through is good, both ends included. -/
def AllStates (good : σ → Prop) (transitions : List (Transition σ ε ο))
    (final : σ) : Prop :=
  (∀ transition ∈ transitions, good transition.before) ∧ good final

/-- Every event happens where `cond` allows it, by the transitions before it and
the state they lead to. -/
def AllSteps (cond : List (Transition σ ε ο) → σ → ε → Prop)
    (transitions : List (Transition σ ε ο)) : Prop :=
  ∀ i (_ : i < transitions.length),
    cond (transitions.take i) transitions[i].before transitions[i].event

instance {cond : List (Transition σ ε ο) → σ → ε → Prop}
    [∀ earlier state, DecidablePred (cond earlier state)]
    (transitions : List (Transition σ ε ο)) :
    Decidable (AllSteps cond transitions) :=
  inferInstanceAs (Decidable (∀ i (_ : i < transitions.length), _))

section History

variable {good : σ → Prop} {cond : List (Transition σ ε ο) → σ → ε → Prop}
  {transitions : List (Transition σ ε ο)} {last : Transition σ ε ο} {final : σ}

theorem allStates_concat : AllStates good (transitions ++ [last]) final ↔
    AllStates good transitions last.before ∧ good final := by
  rw [AllStates, AllStates, List.forall_mem_append, List.forall_mem_singleton]

theorem allSteps_concat : AllSteps cond (transitions ++ [last]) ↔
    AllSteps cond transitions ∧ cond transitions last.before last.event := by
  have hlength : (transitions ++ [last]).length = transitions.length + 1 :=
    List.length_append
  constructor
  · intro hall
    constructor
    · intro i hi
      have hcond := hall i (by omega)
      rw [List.take_append_of_le_length (Nat.le_of_lt hi)] at hcond
      simpa only [List.getElem_append_left hi] using hcond
    · have hcond := hall transitions.length (by omega)
      rw [List.take_left] at hcond
      simpa only [List.getElem_concat_length] using hcond
  · rintro ⟨hall, hlast⟩ i hi
    by_cases hold : i < transitions.length
    · rw [List.take_append_of_le_length (Nat.le_of_lt hold)]
      simpa only [List.getElem_append_left hold] using hall i hold
    · obtain rfl : i = transitions.length := by omega
      rw [List.take_left]
      simpa only [List.getElem_concat_length] using hlast

/-- A property that a step keeps exactly if it meets the condition holds
throughout an execution exactly if all its steps do.  What the condition needs
to know of the past is in the invariant, which is kept as long as the states
are good. -/
theorem Execution.allStates_iff_allSteps {step : OutFn σ ε ο} {start : σ}
    {Inv : List (Transition σ ε ο) → σ → Prop}
    (hstep : ∀ earlier state event next answer, Inv earlier state →
      good state → step state event = some (next, answer) →
      (good next ↔ cond earlier state event) ∧
        Inv (earlier ++ [⟨state, event, answer, next⟩]) next)
    (hstart : Inv [] start) (hgood : good start)
    (hexec : Execution step start transitions final) :
    AllStates good transitions final ↔ AllSteps cond transitions := by
  have hboth : (AllStates good transitions final ↔ AllSteps cond transitions) ∧
      (AllStates good transitions final → Inv transitions final) := by
    induction hexec with
    | nil =>
        have hstates : AllStates good ([] : List (Transition σ ε ο)) start :=
          ⟨fun _ hmem => absurd hmem List.not_mem_nil, hgood⟩
        exact ⟨iff_of_true hstates fun i hi => absurd hi (Nat.not_lt_zero i),
          fun _ => hstart⟩
    | @concat earlier state next event answer _ hlast ih =>
        obtain ⟨hiff, hinv⟩ := ih
        rw [allStates_concat, allSteps_concat, ← hiff]
        constructor
        · apply and_congr_right
          intro hstates
          exact (hstep earlier state event next answer (hinv hstates)
            hstates.2 hlast).1
        · rintro ⟨hstates, -⟩
          exact (hstep earlier state event next answer (hinv hstates)
            hstates.2 hlast).2
  exact hboth.1

end History

/-- Perform the events in order and keep the transitions. -/
def trace (step : OutFn σ ε ο) :
    σ → List ε → Option (List (Transition σ ε ο) × σ)
  | state, [] => some ([], state)
  | state, event :: rest =>
      (step state event).bind fun (next, answer) =>
        (trace step next rest).map fun (transitions, final) =>
          (⟨state, event, answer, next⟩ :: transitions, final)

theorem trace_execution {step : OutFn σ ε ο} {start final : σ}
    {events : List ε} {transitions : List (Transition σ ε ο)}
    (htrace : trace step start events = some (transitions, final)) :
    Execution step start transitions final ∧
      transitions.map Transition.event = events := by
  induction events generalizing start transitions with
  | nil =>
      obtain ⟨rfl, rfl⟩ := Prod.mk.inj (Option.some.inj htrace)
      exact ⟨.nil, rfl⟩
  | cons event rest ih =>
      obtain ⟨⟨next, answer⟩, hstep, hrest⟩ :=
        Option.bind_eq_some_iff.mp htrace
      obtain ⟨⟨later, last⟩, hlater, heq⟩ := Option.map_eq_some_iff.mp hrest
      obtain ⟨rfl, rfl⟩ := Prod.mk.inj heq
      obtain ⟨hexec, hevents⟩ := ih hlater
      exact ⟨hexec.cons hstep, by rw [List.map_cons, hevents]⟩

theorem trace_event_mem {step : OutFn σ ε ο} {start final : σ}
    {events : List ε} {transitions : List (Transition σ ε ο)}
    (htrace : trace step start events = some (transitions, final))
    {transition : Transition σ ε ο} (hmem : transition ∈ transitions) :
    transition.event ∈ events := by
  rw [← (trace_execution htrace).2]
  exact List.mem_map_of_mem hmem

/-- Perform the events in order and keep the answers. -/
def answers (step : OutFn σ ε ο) : σ → List ε → Option (σ × List ο)
  | state, [] => some (state, [])
  | state, event :: rest =>
      (step state event).bind fun (next, answer) =>
        (answers step next rest).map fun (final, later) =>
          (final, answer :: later)

theorem answers_cons_eq_some {step : OutFn σ ε ο} {state final : σ}
    {event : ε} {rest : List ε} {replies : List ο} :
    answers step state (event :: rest) = some (final, replies) ↔
      ∃ next answer later, step state event = some (next, answer) ∧
        answers step next rest = some (final, later) ∧
        replies = answer :: later := by
  constructor
  · intro hanswers
    obtain ⟨⟨next, answer⟩, hstep, hrest⟩ :=
      Option.bind_eq_some_iff.mp hanswers
    obtain ⟨⟨last, later⟩, hlater, heq⟩ := Option.map_eq_some_iff.mp hrest
    obtain ⟨rfl, rfl⟩ := Prod.mk.inj heq
    exact ⟨next, answer, later, hstep, hlater, rfl⟩
  · rintro ⟨next, answer, later, hstep, hlater, rfl⟩
    simp [answers, hstep, hlater]

theorem answers_length {step : OutFn σ ε ο} {state final : σ}
    {events : List ε} {replies : List ο}
    (hrun : answers step state events = some (final, replies)) :
    replies.length = events.length := by
  induction events generalizing state replies with
  | nil =>
      obtain ⟨-, rfl⟩ := Prod.mk.inj (Option.some.inj hrun)
      rfl
  | cons event rest ih =>
      obtain ⟨next, answer, later, -, hlater, rfl⟩ :=
        answers_cons_eq_some.mp hrun
      rw [List.length_cons, List.length_cons, ih hlater]

theorem answers_append_eq_some {step : OutFn σ ε ο} {state final : σ}
    {front rest : List ε} {replies : List ο} :
    answers step state (front ++ rest) = some (final, replies) ↔
      ∃ middle earlier later, answers step state front = some (middle, earlier) ∧
        answers step middle rest = some (final, later) ∧
        replies = earlier ++ later := by
  induction front generalizing state replies with
  | nil =>
      constructor
      · intro hrest
        exact ⟨state, [], replies, rfl, hrest, rfl⟩
      · rintro ⟨middle, earlier, later, hfront, hrest, rfl⟩
        obtain ⟨rfl, rfl⟩ := Prod.mk.inj (Option.some.inj hfront)
        exact hrest
  | cons event front ih =>
      rw [List.cons_append, answers_cons_eq_some]
      constructor
      · rintro ⟨next, answer, after, hstep, hafter, rfl⟩
        obtain ⟨middle, earlier, later, hfront, hrest, rfl⟩ := ih.mp hafter
        exact ⟨middle, answer :: earlier, later, answers_cons_eq_some.mpr
          ⟨next, answer, earlier, hstep, hfront, rfl⟩, hrest, rfl⟩
      · rintro ⟨middle, earlier, later, hfront, hrest, rfl⟩
        obtain ⟨next, answer, before, hstep, hbefore, rfl⟩ :=
          answers_cons_eq_some.mp hfront
        exact ⟨next, answer, before ++ later, hstep,
          ih.mpr ⟨middle, before, later, hbefore, hrest, rfl⟩, rfl⟩

/-- A step function that allows every event has every run. -/
theorem exists_answers {step : OutFn σ ε ο}
    (htotal : ∀ state event, ∃ next answer,
      step state event = some (next, answer)) (state : σ) (events : List ε) :
    ∃ final replies, answers step state events = some (final, replies) := by
  induction events generalizing state with
  | nil => exact ⟨state, [], rfl⟩
  | cons event rest ih =>
      obtain ⟨next, answer, hstep⟩ := htotal state event
      obtain ⟨final, replies, hrest⟩ := ih next
      exact ⟨final, answer :: replies, answers_cons_eq_some.mpr
        ⟨next, answer, replies, hstep, hrest, rfl⟩⟩

/-- If a step of the specification is always matched by a step with the same
answer, between related states, then so is every run. -/
theorem answers_simulation {τ : Type u} {step : OutFn σ ε ο}
    {spec : OutFn τ ε ο} {related : σ → τ → Prop} {allowed : ε → Prop}
    (hstep : ∀ state abstract event abstract' answer, related state abstract →
      allowed event → spec abstract event = some (abstract', answer) →
      ∃ next, step state event = some (next, answer) ∧
        related next abstract')
    {state : σ} {abstract final : τ} {events : List ε} {replies : List ο}
    (hrelated : related state abstract)
    (hallowed : ∀ event ∈ events, allowed event)
    (hspec : answers spec abstract events = some (final, replies)) :
    ∃ next, answers step state events = some (next, replies) ∧
      related next final := by
  induction events generalizing state abstract replies with
  | nil =>
      obtain ⟨rfl, rfl⟩ := Prod.mk.inj (Option.some.inj hspec)
      exact ⟨state, rfl, hrelated⟩
  | cons event rest ih =>
      obtain ⟨hhead, htail⟩ := List.forall_mem_cons.mp hallowed
      obtain ⟨middle, answer, later, hfirst, hlater, rfl⟩ :=
        answers_cons_eq_some.mp hspec
      obtain ⟨next, hnext, hmiddle⟩ :=
        hstep state abstract event middle answer hrelated hhead hfirst
      obtain ⟨last, hlast, hfinal⟩ := ih hmiddle htail hlater
      exact ⟨last, answers_cons_eq_some.mpr
        ⟨next, answer, later, hnext, hlast, rfl⟩, hfinal⟩

end PsychOS
