/-
Programs that make calls to a system they share with others.  A program is a
tree of calls, each followed by what is done with the reply.  In a run, every
call is made in the state the others have left by then.  `Ends` says that a
program comes to an end with a given outcome whatever the others do, as long
as they keep to what it relies on.
-/
import PsychOS.Lib.Execution

namespace PsychOS

/-- A program with calls `κ`, replies `ρ` and a result in `α`. -/
inductive Prog (κ ρ α : Type) where
  | ret (value : α)
  | call (request : κ) (rest : ρ → Prog κ ρ α)

/-- A call together with its reply. -/
structure Exchange (κ ρ : Type) where
  request : κ
  reply : ρ

namespace Prog

variable {κ ρ α β σ : Type}

def bind : Prog κ ρ α → (α → Prog κ ρ β) → Prog κ ρ β
  | ret value, next => next value
  | call request rest, next => call request fun reply => (rest reply).bind next

instance : Monad (Prog κ ρ) where
  pure := ret
  bind := bind

/-- Make one call. -/
def ask (request : κ) : Prog κ ρ ρ := call request ret

/-- Run a program.  Before its call number `n` the others act as `others n`
says.  `none` if a call gets no reply. -/
def run (step : OutFn σ κ ρ) (others : Nat → σ → σ) :
    Prog κ ρ α → Nat → σ → Option (α × σ × List (Exchange κ ρ))
  | ret value, _, state => some (value, state, [])
  | call request rest, n, state =>
      (step (others n state) request).bind fun (next, reply) =>
        (run step others (rest reply) (n + 1) next).map
          fun (value, final, log) =>
            (value, final, ⟨request, reply⟩ :: log)

/-- The program ends, and `post` holds of its result, the state and the
exchanges, if between its calls the others change the state only as `rely`
allows. -/
def Ends (step : OutFn σ κ ρ) (rely : σ → σ → Prop) :
    Prog κ ρ α → (α → σ → List (Exchange κ ρ) → Prop) → σ → Prop
  | ret value, post, state => post value state []
  | call request rest, post, state => ∀ met, rely state met →
      ∃ next reply, step met request = some (next, reply) ∧
        Ends step rely (rest reply)
          (fun value final log => post value final (⟨request, reply⟩ :: log))
          next

variable {step : OutFn σ κ ρ} {rely : σ → σ → Prop} {prog : Prog κ ρ α}
  {post post' : α → σ → List (Exchange κ ρ) → Prop} {state : σ}

theorem Ends.run_eq (hends : Ends step rely prog post state)
    {others : Nat → σ → σ} (hothers : ∀ n state, rely state (others n state))
    (n : Nat) :
    ∃ value final log, run step others prog n state =
      some (value, final, log) ∧ post value final log := by
  induction prog generalizing post state n with
  | ret value => exact ⟨value, state, [], rfl, hends⟩
  | call request rest ih =>
      obtain ⟨next, reply, hstep, hrest⟩ := hends _ (hothers n state)
      obtain ⟨value, final, log, hrun, hpost⟩ := ih reply hrest (n + 1)
      refine ⟨value, final, ⟨request, reply⟩ :: log, ?_, hpost⟩
      simp [run, hstep, hrun]

theorem Ends.mono (hends : Ends step rely prog post state)
    (himp : ∀ value final log, post value final log → post' value final log) :
    Ends step rely prog post' state := by
  induction prog generalizing post post' state with
  | ret value => exact himp value state [] hends
  | call request rest ih =>
      intro met hmet
      obtain ⟨next, reply, hstep, hrest⟩ := hends met hmet
      exact ⟨next, reply, hstep, ih reply hrest fun value final log =>
        himp value final (⟨request, reply⟩ :: log)⟩

/-- What holds before a call whatever the others have done. -/
theorem Ends.ask_bind {request : κ} {next : ρ → Prog κ ρ β}
    {post : β → σ → List (Exchange κ ρ) → Prop}
    (hcall : ∀ met, rely state met → ∃ after reply,
      step met request = some (after, reply) ∧
        Ends step rely (next reply) (fun result final later =>
          post result final (⟨request, reply⟩ :: later)) after) :
    Ends step rely (Prog.ask request >>= next) post state :=
  hcall

section View

variable {τ : Type} {larger : OutFn τ κ ρ} {relied : τ → τ → Prop}
  {view : τ → σ} {good : τ → Prop} {whole : τ}

/-- A program that ends on a part of a state ends on the whole, if its calls
see no more than the part and the others keep to what is relied on there. -/
theorem Ends.of_view (hends : Ends step rely prog post (view whole))
    (hstep : ∀ {whole request next reply}, good whole →
      step (view whole) request = some (next, reply) → ∃ after,
        larger whole request = some (after, reply) ∧ view after = next ∧
          good after)
    (hrely : ∀ {whole met}, good whole → relied whole met →
      rely (view whole) (view met) ∧ good met)
    (hgood : good whole) :
    Ends larger relied prog
      (fun value final log => post value (view final) log) whole := by
  induction prog generalizing post whole with
  | ret value => exact hends
  | call request rest ih =>
      intro met hmet
      obtain ⟨hkept, hmetGood⟩ := hrely hgood hmet
      obtain ⟨next, reply, hcall, hrest⟩ := hends (view met) hkept
      obtain ⟨after, hlarger, rfl, hafter⟩ := hstep hmetGood hcall
      exact ⟨after, reply, hlarger, ih reply hrest hafter⟩

end View

end Prog

end PsychOS
