/-
Refinement of one event system by another.  A step of the finer system either
does not show in the coarser one or is a step of it, so that an execution of
the finer system, with the steps that do not show left out, is an execution of
the coarser one.
-/
import PsychOS.Lib.Execution

namespace PsychOS

section Refinement

universe u v w

variable {σ τ : Type u} {ε δ : Type v} {ο π : Type w}
  {step : OutFn σ ε ο} {spec : OutFn τ δ π} {view : σ → τ}
  {commit : Transition σ ε ο → Option (Transition τ δ π)}

/-- What a transition of the finer system is in the coarser one. -/
def Transition.Shows (spec : OutFn τ δ π) (view : σ → τ)
    (transition : Transition σ ε ο) : Option (Transition τ δ π) → Prop
  | none => view transition.after = view transition.before
  | some shown => shown.before = view transition.before ∧
      shown.after = view transition.after ∧
      spec shown.before shown.event = some (shown.after, shown.answer)

/-- Steps that show as they should and keep an invariant make executions that
do. -/
theorem Execution.project {Inv : σ → Prop}
    {allowed : Transition τ δ π → Prop}
    (hstep : ∀ state event next answer, Inv state →
      (∀ shown ∈ commit ⟨state, event, answer, next⟩, allowed shown) →
      step state event = some (next, answer) →
      Inv next ∧ Transition.Shows spec view ⟨state, event, answer, next⟩
        (commit ⟨state, event, answer, next⟩))
    {start final : σ} {transitions : List (Transition σ ε ο)}
    (hstart : Inv start) (hexec : Execution step start transitions final)
    (hallowed : ∀ shown ∈ transitions.filterMap commit, allowed shown) :
    Inv final ∧ Execution spec (view start) (transitions.filterMap commit)
      (view final) := by
  induction hexec with
  | nil => exact ⟨hstart, .nil⟩
  | @concat earlier state next event answer _ hlast ih =>
      rw [List.filterMap_append] at hallowed ⊢
      obtain ⟨hinv, hearlier⟩ := ih fun shown hmem =>
        hallowed shown (List.mem_append_left _ hmem)
      have hshown : ∀ shown ∈ commit ⟨state, event, answer, next⟩,
          allowed shown := by
        intro shown hmem
        apply hallowed shown
        apply List.mem_append_right
        rw [List.filterMap_cons, Option.mem_def.mp hmem]
        exact List.mem_singleton_self shown
      obtain ⟨hnext, hshows⟩ := hstep state event next answer hinv hshown hlast
      refine ⟨hnext, ?_⟩
      cases hcommit : commit ⟨state, event, answer, next⟩ with
      | none =>
          rw [hcommit] at hshows
          have hsame : view next = view state := hshows
          rw [List.filterMap_cons_none hcommit, List.filterMap_nil,
            List.append_nil, hsame]
          exact hearlier
      | some shown =>
          rw [hcommit] at hshows
          obtain ⟨before, shownEvent, shownAnswer, after⟩ := shown
          obtain ⟨rfl, rfl, hspec⟩ := hshows
          rw [List.filterMap_cons_some hcommit, List.filterMap_nil]
          exact hearlier.concat hspec

/-- One execution after another. -/
theorem Execution.append {start middle final : σ}
    {earlier later : List (Transition σ ε ο)}
    (hearlier : Execution step start earlier middle)
    (hlater : Execution step middle later final) :
    Execution step start (earlier ++ later) final := by
  induction hlater with
  | nil =>
      rw [List.append_nil]
      exact hearlier
  | concat _ hstep ih =>
      rw [← List.append_assoc]
      exact ih.concat hstep

end Refinement

end PsychOS
