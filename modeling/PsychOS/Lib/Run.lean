/-
Runs of deterministic event systems.  A step function answers `none` when the
event cannot happen in the state, so a run is a list of events every one of
which can.  The rules below are the only inductions over runs the later
modules need: an invariant rule, a rule for properties that hold exactly while
every step meets a condition, and an unwinding rule for projections.
-/
import Mathlib.Data.List.Basic
import Mathlib.Tactic.Common

namespace PsychOS

universe u v w

variable {σ : Type u} {ε : Type v}

/-- One event at a time, `none` for an event the state does not allow. -/
abbrev StepFn (σ : Type u) (ε : Type v) := σ → ε → Option σ

namespace StepFn

variable (step : StepFn σ ε)

/-- Perform the events in order. -/
def run : σ → List ε → Option σ
  | state, [] => some state
  | state, event :: rest => (step state event).bind fun next => run next rest

theorem run_cons_eq_some {state final : σ} {event : ε} {rest : List ε} :
    run step state (event :: rest) = some final ↔
      ∃ next, step state event = some next ∧
        run step next rest = some final := by
  simp [run, Option.bind_eq_some_iff]

theorem run_append {state : σ} (front rest : List ε) :
    run step state (front ++ rest) =
      (run step state front).bind fun middle => run step middle rest := by
  induction front generalizing state with
  | nil => rfl
  | cons event front ih =>
      simp only [List.cons_append, run, Option.bind_assoc, ih]

/-- A run of batches is the run of all their events. -/
theorem run_flatten {state : σ} (batches : List (List ε)) :
    run (run step) state batches = run step state batches.flatten := by
  induction batches generalizing state with
  | nil => rfl
  | cons batch rest ih =>
      rw [List.flatten_cons, run_append, run]
      simp only [ih]

variable {step}

/-- What holds at the start and is kept by every allowed step holds along
every run of allowed events. -/
theorem run_invariant_on {Inv : σ → Prop} {allowed : ε → Prop}
    (hstep : ∀ state event next, Inv state → allowed event →
      step state event = some next → Inv next)
    {state final : σ} {events : List ε} (hstart : Inv state)
    (hallowed : ∀ event ∈ events, allowed event)
    (hrun : run step state events = some final) : Inv final := by
  induction events generalizing state with
  | nil =>
      obtain rfl : state = final := Option.some.inj hrun
      exact hstart
  | cons event rest ih =>
      obtain ⟨next, hnext, hrest⟩ := (run_cons_eq_some step).mp hrun
      have hhead : allowed event := hallowed event List.mem_cons_self
      have htail : ∀ other ∈ rest, allowed other := fun other hother =>
        hallowed other (List.mem_cons_of_mem event hother)
      exact ih (hstep state event next hstart hhead hnext) htail hrest

/-- What holds at the start and is kept by every step holds along every run. -/
theorem run_invariant {Inv : σ → Prop}
    (hstep : ∀ state event next,
      Inv state → step state event = some next → Inv next)
    {state final : σ} {events : List ε} (hstart : Inv state)
    (hrun : run step state events = some final) : Inv final :=
  run_invariant_on (fun state event next hinv _ hnext =>
    hstep state event next hinv hnext) hstart
    (fun _ _ => trivial) hrun

variable (step)

/-- Every event of the run happens in a state where `cond` allows it. -/
def Along (cond : σ → ε → Prop) : σ → List ε → Prop
  | _, [] => True
  | state, event :: rest =>
      cond state event ∧
        ∀ next, step state event = some next → Along cond next rest

/-- Every state the run passes through is good, both ends included. -/
def Throughout (good : σ → Prop) (state : σ) (events : List ε) : Prop :=
  ∀ front middle, front <+: events → run step state front = some middle →
    good middle

variable {step}

instance decidableAlong {cond : σ → ε → Prop}
    [∀ state, DecidablePred (cond state)] :
    (state : σ) → (events : List ε) → Decidable (Along step cond state events)
  | _, [] => isTrue trivial
  | state, event :: rest =>
      match h : step state event with
      | none => decidable_of_iff (cond state event) (by simp [Along, h])
      | some next =>
          have : Decidable (Along step cond next rest) :=
            decidableAlong next rest
          decidable_of_iff (cond state event ∧ Along step cond next rest)
            (by simp [Along, h])

theorem throughout_nil {good : σ → Prop} {state : σ} :
    Throughout step good state [] ↔ good state := by
  constructor
  · intro hall
    exact hall [] state (List.prefix_refl []) rfl
  · intro hgood front middle hprefix hrun
    obtain rfl : front = [] := List.prefix_nil.mp hprefix
    obtain rfl : state = middle := Option.some.inj hrun
    exact hgood

theorem throughout_cons {good : σ → Prop} {state next : σ} {event : ε}
    {rest : List ε} (hstep : step state event = some next) :
    Throughout step good state (event :: rest) ↔
      good state ∧ Throughout step good next rest := by
  constructor
  · intro hall
    refine ⟨hall [] state (List.nil_prefix) rfl, ?_⟩
    intro front middle hprefix hrun
    apply hall (event :: front) middle
    · exact List.cons_prefix_cons.mpr ⟨rfl, hprefix⟩
    · exact (run_cons_eq_some step).mpr ⟨next, hstep, hrun⟩
  · rintro ⟨hgood, hall⟩ front middle hprefix hrun
    cases front with
    | nil =>
        obtain rfl : state = middle := Option.some.inj hrun
        exact hgood
    | cons head front =>
        obtain ⟨rfl, htail⟩ := List.cons_prefix_cons.mp hprefix
        obtain ⟨after, hafter, hrest⟩ := (run_cons_eq_some step).mp hrun
        obtain rfl : next = after :=
          Option.some.inj (hstep.symm.trans hafter)
        exact hall front middle htail hrest

/-- If, between states satisfying the invariant, a step out of a good state
ends in a good state exactly when `cond` holds before it, then a run stays
good throughout exactly when all its steps meet `cond`. -/
theorem throughout_iff_along {Inv good : σ → Prop} {cond : σ → ε → Prop}
    (hinv : ∀ state event next,
      Inv state → step state event = some next → Inv next)
    (hexact : ∀ state event next, Inv state → good state →
      step state event = some next → (good next ↔ cond state event))
    {state final : σ} {events : List ε} (hstart : Inv state)
    (hgood : good state) (hrun : run step state events = some final) :
    Throughout step good state events ↔ Along step cond state events := by
  induction events generalizing state with
  | nil => simp [throughout_nil, Along, hgood]
  | cons event rest ih =>
      obtain ⟨next, hnext, hrest⟩ := (run_cons_eq_some step).mp hrun
      have hiff := hexact state event next hstart hgood hnext
      have htail := fun hg : good next =>
        ih (hinv state event next hstart hnext) hg hrest
      rw [throughout_cons hnext, Along]
      constructor
      · rintro ⟨-, hall⟩
        have hg : good next := hall [] next List.nil_prefix rfl
        refine ⟨hiff.mp hg, ?_⟩
        intro after hafter
        obtain rfl : next = after :=
          Option.some.inj (hnext.symm.trans hafter)
        exact (htail hg).mp hall
      · rintro ⟨hcond, hafter⟩
        have hg : good next := hiff.mpr hcond
        exact ⟨hgood, (htail hg).mpr (hafter next hnext)⟩

/-- What every step that meets `cond` keeps, a run of such steps keeps. -/
theorem run_invariant_along {Inv : σ → Prop} {cond : σ → ε → Prop}
    (hstep : ∀ state event next, Inv state → cond state event →
      step state event = some next → Inv next)
    {state final : σ} {events : List ε} (hstart : Inv state)
    (halong : Along step cond state events)
    (hrun : run step state events = some final) : Inv final := by
  induction events generalizing state with
  | nil =>
      obtain rfl : state = final := Option.some.inj hrun
      exact hstart
  | cons event rest ih =>
      obtain ⟨next, hnext, hrest⟩ := (run_cons_eq_some step).mp hrun
      exact ih (hstep state event next hstart halong.1 hnext)
        (halong.2 next hnext) hrest

/-- Two conditions that agree where the invariant holds, the second of which
keeps it, hold along the same runs. -/
theorem along_iff_along {Inv : σ → Prop} {ok cond : σ → ε → Prop}
    (hexact : ∀ state event next, Inv state →
      step state event = some next → (ok state event ↔ cond state event))
    (hinv : ∀ state event next, Inv state → cond state event →
      step state event = some next → Inv next)
    {state final : σ} {events : List ε} (hstart : Inv state)
    (hrun : run step state events = some final) :
    Along step ok state events ↔ Along step cond state events := by
  induction events generalizing state with
  | nil => exact Iff.rfl
  | cons event rest ih =>
      obtain ⟨next, hnext, hrest⟩ := (run_cons_eq_some step).mp hrun
      rw [Along, Along, hexact state event next hstart hnext]
      apply and_congr_right
      intro hcond
      refine forall₂_congr fun after hafter => ?_
      obtain rfl : next = after := Option.some.inj (hnext.symm.trans hafter)
      exact ih (hinv state event next hstart hcond hnext) hrest

/-- Steps that agree wherever `cond` holds have the same runs along it. -/
theorem run_congr_along {other : StepFn σ ε} {cond : σ → ε → Prop}
    (hagree : ∀ state event, cond state event →
      step state event = other state event)
    {state : σ} {events : List ε} (halong : Along step cond state events) :
    run step state events = run other state events := by
  induction events generalizing state with
  | nil => rfl
  | cons event rest ih =>
      rw [run, run, ← hagree state event halong.1]
      apply Option.bind_congr
      intro next hnext
      exact ih (halong.2 next hnext)

section View

variable {ν : Type w} {viewStep : StepFn ν ε} {view : σ → ν}

/-- A step that acts on the view alone has runs that do. -/
theorem run_map_view
    (hview : ∀ state event,
      (step state event).map view = viewStep (view state) event)
    (state : σ) (events : List ε) :
    (run step state events).map view = run viewStep (view state) events := by
  induction events generalizing state with
  | nil => rfl
  | cons event rest ih =>
      rw [run, run, ← hview state event]
      cases step state event with
      | none => rfl
      | some next => exact ih next

theorem along_view {cond : σ → ε → Prop} {viewCond : ν → ε → Prop}
    (hview : ∀ state event,
      (step state event).map view = viewStep (view state) event)
    (hcond : ∀ state event, cond state event ↔ viewCond (view state) event)
    (state : σ) (events : List ε) :
    Along step cond state events ↔
      Along viewStep viewCond (view state) events := by
  induction events generalizing state with
  | nil => exact Iff.rfl
  | cons event rest ih =>
      rw [Along, Along, hcond, ← hview state event]
      apply and_congr_right
      intro _
      cases step state event with
      | none => simp
      | some next => simp [ih]

end View

theorem along_true (state : σ) (events : List ε) :
    Along step (fun _ _ => True) state events := by
  induction events generalizing state with
  | nil => trivial
  | cons event rest ih => exact ⟨trivial, fun next _ => ih next⟩

theorem along_of_front {cond : σ → ε → Prop} {state : σ}
    {front events : List ε} (hfront : front <+: events)
    (halong : Along step cond state events) :
    Along step cond state front := by
  induction front generalizing state events with
  | nil => trivial
  | cons event rest ih =>
      obtain ⟨later, rfl⟩ := hfront
      exact ⟨halong.1, fun next hnext =>
        ih (List.prefix_append rest later) (halong.2 next hnext)⟩

/-- A run all of whose steps meet `cond` is good throughout. -/
theorem throughout_of_along {Inv good : σ → Prop} {cond : σ → ε → Prop}
    (hinv : ∀ state event next, Inv state → cond state event →
      step state event = some next → Inv next)
    (hgood : ∀ state, Inv state → good state)
    {state : σ} {events : List ε} (hstart : Inv state)
    (halong : Along step cond state events) :
    Throughout step good state events := by
  intro front middle hfront hrun
  exact hgood middle
    (run_invariant_along hinv hstart (along_of_front hfront halong) hrun)

/-- Unwinding.  Events that are not `mine` leave the view alone, and events
that are mine act on the view only.  Then deleting the foreign events from a
run leaves a run that ends with the same view. -/
theorem run_filter_view {ν : Type w} {Inv : σ → Prop} {cond : σ → ε → Prop}
    (view : σ → ν) (mine : ε → Bool)
    (hinv : ∀ state event next, Inv state → cond state event →
      step state event = some next → Inv next)
    (hforeign : ∀ state event next, Inv state → cond state event →
      mine event = false → step state event = some next →
        view next = view state)
    (hmine : ∀ left right event next, Inv left → Inv right →
      view left = view right → cond left event → mine event = true →
      step left event = some next →
        cond right event ∧
          ∃ other, step right event = some other ∧ view other = view next)
    {left right final : σ} {events : List ε} (hleft : Inv left)
    (hright : Inv right) (hview : view left = view right)
    (halong : Along step cond left events)
    (hrun : run step left events = some final) :
    ∃ other, run step right (events.filter mine) = some other ∧
      view other = view final := by
  induction events generalizing left right with
  | nil =>
      obtain rfl : left = final := Option.some.inj hrun
      exact ⟨right, rfl, hview.symm⟩
  | cons event rest ih =>
      obtain ⟨next, hnext, hrest⟩ := (run_cons_eq_some step).mp hrun
      have hcond := halong.1
      have htail := halong.2 next hnext
      have hnextInv := hinv left event next hleft hcond hnext
      cases hevent : mine event with
      | false =>
          have hsame := hforeign left event next hleft hcond hevent hnext
          rw [List.filter_cons_of_neg (by simp [hevent])]
          exact ih hnextInv hright (hsame.trans hview) htail hrest
      | true =>
          obtain ⟨hallowed, other, hother, hagree⟩ :=
            hmine left right event next hleft hright hview hcond hevent hnext
          rw [List.filter_cons_of_pos hevent]
          obtain ⟨last, hlast, hend⟩ := ih hnextInv
            (hinv right event other hright hallowed hother) hagree.symm
            htail hrest
          exact ⟨last,
            (run_cons_eq_some step).mpr ⟨other, hother, hlast⟩, hend⟩

end StepFn

end PsychOS
