/-
Which `execute` a `halt` returns from.  The registers a parent saved are kept
in its PCB, where a context switch would overwrite them; that it gets back the
ones its own `execute` saved follows from the nesting of the calls.
-/
import PsychOS.Boot

namespace PsychOS

/-- The slot of the process that a successful `execute` started. -/
def created (step : Transition Kernel KernelEvent Outcome) : Option Nat :=
  match step.event, step.answer with
  | .execute _ _ _ _, .entered child _ => some child
  | _, _ => none

/-- The slot of the process that a `halt` or an exception ended.  A root
program is restarted and does not count. -/
def ended (step : Transition Kernel KernelEvent Outcome) : Option Nat :=
  match step.event, step.before.currentPcb.parent with
  | .halt _, some _ => some step.before.current
  | .exception, some _ => some step.before.current
  | _, _ => none

/-- What `execute` returns in the parent. -/
def exitValue : KernelEvent → Int
  | .halt status => ((status % 256 : Nat) : Int)
  | _ => 256

/-- Transition `h` ends the process in the slot that transition `e`
started. -/
structure ReturnsFrom (transitions :
      List (Transition Kernel KernelEvent Outcome)) (e h slot : Nat) :
    Prop where
  started : ∃ call, transitions[e]? = some call ∧ created call = some slot
  stopped : ∃ ret, transitions[h]? = some ret ∧ ended ret = some slot
  lt : e < h
  between : ∀ j step, e < j → j < h → transitions[j]? = some step →
    created step ≠ some slot ∧ ended step ≠ some slot

section Labels

variable {img : Image} {layout : Layout}
  {step : Transition Kernel KernelEvent Outcome}
  {terminal : Fin numTerminals} {caller callee : Nat} {saved : Nat × Nat}

theorem callLabel_of_created (hcreated : created step = some callee) :
    ∃ saved, callLabel step =
      .call (Fin.ofNat _ step.before.currentPcb.terminalNum)
        step.before.current callee saved := by
  unfold created at hcreated
  split at hcreated
  · rename_i command esp ebp junk child entrypoint hevent hanswer
    obtain rfl := Option.some.inj hcreated
    exact ⟨(esp, ebp), by simp only [callLabel, hevent, hanswer]⟩
  · simp at hcreated

theorem callLabel_eq_call
    (hlabel : callLabel step = .call terminal caller callee saved) :
    created step = some callee ∧ step.before.current = caller ∧
      Fin.ofNat _ step.before.currentPcb.terminalNum = terminal ∧
      ∃ command junk,
        step.event = .execute command saved.1 saved.2 junk := by
  unfold callLabel at hlabel
  dsimp only at hlabel
  split at hlabel
  · rename_i command esp ebp junk child entrypoint hevent hanswer
    obtain ⟨hterminal, hcaller, rfl, rfl⟩ := CallLabel.call.inj hlabel
    refine ⟨?_, hcaller, hterminal, command, junk, hevent⟩
    simp only [created, hevent, hanswer]
  all_goals simp at hlabel

theorem ended_of_callLabel
    (hlabel : callLabel step = .ret terminal caller callee saved) :
    ended step = some callee := by
  unfold callLabel at hlabel
  dsimp only at hlabel
  split at hlabel
  · simp at hlabel
  · rename_i status esp ebp value parent hevent hanswer hparent
    obtain ⟨-, -, rfl, -⟩ := CallLabel.ret.inj hlabel
    simp only [ended, hevent, hparent]
  · rename_i esp ebp value parent hevent hanswer hparent
    obtain ⟨-, -, rfl, -⟩ := CallLabel.ret.inj hlabel
    simp only [ended, hevent, hparent]
  · simp at hlabel

/-- A process with a parent that ends returns to it. -/
theorem ended_spec (hstep : kernelStep img layout step.before step.event =
      some (step.after, step.answer)) (hended : ended step = some callee) :
    ∃ parent, step.before.currentPcb.parent = some parent ∧
      step.before.current = callee ∧
      step.answer = .executeReturned (step.before.pcb parent).esp
        (step.before.pcb parent).ebp (exitValue step.event) ∧
      step.after.core = (step.before.core.release callee).returnTo callee
        parent ∧
      callLabel step =
        .ret (Fin.ofNat _ step.before.currentPcb.terminalNum) parent callee
          ((step.before.pcb parent).esp, (step.before.pcb parent).ebp) := by
  obtain ⟨-, hstep⟩ := Option.ite_none_right_eq_some.mp hstep
  have hanswer {status : Int} {parent : Nat}
      (hparent : step.before.currentPcb.parent = some parent)
      (hhalt : haltProgram layout step.before status =
        (step.after, step.answer)) :
      step.after.core = (step.before.core.release step.before.current).returnTo
        step.before.current parent ∧
      step.answer = .executeReturned (step.before.pcb parent).esp
        (step.before.pcb parent).ebp status := by
    have hresult := @haltProgram_parent layout _ _ status hparent
    rw [hhalt] at hresult
    exact hresult
  unfold ended at hended
  split at hended
  · rename_i status parent hevent hparent
    rw [hevent] at hstep
    obtain ⟨hcore, hreturned⟩ := hanswer hparent (Option.some.inj hstep)
    rw [Option.some.inj hended] at hcore
    refine ⟨parent, hparent, Option.some.inj hended, ?_, hcore, ?_⟩
    · rw [hevent]
      exact hreturned
    · simp only [callLabel, hevent, hreturned, hparent,
        Option.some.inj hended]
  · rename_i parent hevent hparent
    rw [hevent] at hstep
    obtain ⟨hcore, hreturned⟩ := hanswer hparent
      (Option.some.inj (Option.ite_none_right_eq_some.mp hstep).2)
    rw [Option.some.inj hended] at hcore
    refine ⟨parent, hparent, Option.some.inj hended, ?_, hcore, ?_⟩
    · rw [hevent]
      exact hreturned
    · simp only [callLabel, hevent, hreturned, hparent,
        Option.some.inj hended]
  · simp at hended

/-- A transition that starts or ends the slot shows in its label. -/
theorem touches_of_step (hstep : kernelStep img layout step.before step.event =
      some (step.after, step.answer))
    (htouch : created step = some callee ∨ ended step = some callee) :
    (callLabel step).Touches callee := by
  rcases htouch with hcreated | hended
  · obtain ⟨saved, hlabel⟩ := callLabel_of_created hcreated
    rw [hlabel]
    rfl
  · obtain ⟨parent, -, -, -, -, hlabel⟩ := ended_spec hstep hended
    rw [hlabel]
    rfl

end Labels

section Runs

variable {img : Image} {layout : Layout} {start final : Kernel}
  {transitions : List (Transition Kernel KernelEvent Outcome)}

theorem label_getElem? {i : Nat}
    {step : Transition Kernel KernelEvent Outcome}
    (hget : transitions[i]? = some step) :
    (transitions.map callLabel)[i]? = some (callLabel step) := by
  rw [List.getElem?_map, hget]
  rfl

theorem step_of_label {i : Nat} {label : ProcessLabel}
    (hlabel : (transitions.map callLabel)[i]? = some label) :
    ∃ step, transitions[i]? = some step ∧ callLabel step = label := by
  rw [List.getElem?_map] at hlabel
  exact Option.map_eq_some_iff.mp hlabel

theorem rootThreads_roots (terminal : Fin numTerminals) :
    ∃ frame, rootThreads.chain terminal = .root frame :=
  ⟨terminal, rfl⟩

theorem returnsFrom_of_returns
    (hexec : Execution (kernelStep img layout) start transitions final)
    {e h : Nat} {terminal : Fin numTerminals} {caller callee : Nat}
    {saved : Nat × Nat}
    (hreturns : Returns (transitions.map callLabel) e h terminal caller callee
      saved) : ReturnsFrom transitions e h callee := by
  obtain ⟨hcall, hret, hlt, hbetween⟩ := hreturns
  obtain ⟨call, hcallGet, hcallLabel⟩ := step_of_label hcall
  obtain ⟨ret, hretGet, hretLabel⟩ := step_of_label hret
  refine ⟨⟨call, hcallGet, (callLabel_eq_call hcallLabel).1⟩,
    ⟨ret, hretGet, ended_of_callLabel hretLabel⟩, hlt, ?_⟩
  intro j step hej hjh hget
  have hstep := hexec.step_of_mem (List.mem_of_getElem? hget)
  have huntouched := hbetween j _ hej hjh (label_getElem? hget)
  exact ⟨fun hcreated => huntouched (touches_of_step hstep (.inl hcreated)),
    fun hended => huntouched (touches_of_step hstep (.inr hended))⟩

/-- A process ends at most once. -/
theorem ReturnsFrom.ret_unique {e h h' slot : Nat}
    (hfirst : ReturnsFrom transitions e h slot)
    (hsecond : ReturnsFrom transitions e h' slot) : h = h' := by
  obtain ⟨ret, hget, hended⟩ := hfirst.stopped
  obtain ⟨ret', hget', hended'⟩ := hsecond.stopped
  rcases Nat.lt_trichotomy h h' with hless | heq | hmore
  · exact absurd hended (hsecond.between h ret hfirst.lt hless hget).2
  · exact heq
  · exact absurd hended' (hfirst.between h' ret' hsecond.lt hmore hget').2

/-- From an `execute` to the end of the process it started, the caller does
not run. -/
theorem caller_ne_current (hboot : Booted img layout start)
    (hexec : Execution (kernelStep img layout) start transitions final)
    {e h : Nat} {terminal : Fin numTerminals} {caller callee : Nat}
    {saved : Nat × Nat}
    (hreturns : Returns (transitions.map callLabel) e h terminal caller callee
      saved) {j : Nat} (hej : e < j) (hjh : j ≤ h)
    {step : Transition Kernel KernelEvent Outcome}
    (hget : transitions[j]? = some step) : step.before.current ≠ caller := by
  obtain ⟨threads, hrun, hrep⟩ :=
    execution_represents hboot (hexec.take_of_getElem? hget)
  obtain ⟨other, hcurrent⟩ := hrep.current_top
  rw [List.map_take] at hrun
  have hcall := (List.getElem?_take_of_lt hej).trans hreturns.call
  rw [← hcurrent]
  refine hrun.caller_ne_top rootThreads_roots hcall ?_ other
  intro i label hei hlabel
  obtain ⟨hlt, -⟩ := List.getElem?_eq_some_iff.mp hlabel
  have hij : i < j := Nat.lt_of_lt_of_le hlt (List.length_take_le ..)
  rw [List.getElem?_take_of_lt hij] at hlabel
  exact hreturns.between i label hei (Nat.lt_of_lt_of_le hij hjh) hlabel

/-- The end of a process frees its slot and gives its parent the stack
back. -/
theorem ended_state (hboot : Booted img layout start)
    (hexec : Execution (kernelStep img layout) start transitions final)
    {h slot : Nat} {ret : Transition Kernel KernelEvent Outcome}
    (hget : transitions[h]? = some ret) (hended : ended ret = some slot)
    {parent : Nat} (hparent : ret.before.currentPcb.parent = some parent) :
    ret.after.current = parent ∧ (ret.after.pcb slot).inUse = false ∧
      (ret.after.pcb slot).status = .none := by
  have hstep := hexec.step_of_mem (List.mem_of_getElem? hget)
  obtain ⟨parent', hparent', rfl, -, hcore, -⟩ := ended_spec hstep hended
  obtain rfl : parent' = parent :=
    Option.some.inj (hparent'.symm.trans hparent)
  obtain ⟨threads, -, hrep⟩ :=
    execution_represents hboot (hexec.take_of_getElem? hget)
  obtain ⟨terminal, hcurrent⟩ := hrep.current_top
  obtain ⟨caller, hchain, rfl, hstack⟩ :=
    @chain_of_parent ret.before.core _ hrep _ hparent _ hcurrent
  have hne : ret.before.current ≠ caller.top :=
    threads.callee_ne_caller hchain
  obtain ⟨hchild, -, -, hesp⟩ := @halt_table ret.before.core _ _ hne
  rw [← hcore] at hchild hesp
  exact ⟨(congrArg slotOfEsp hesp).trans hstack,
    congrArg ProcessEntry.inUse hchild, congrArg ProcessEntry.status hchild⟩

/-- Kernel entries with commands that have room are the ones followed here. -/
theorem fitting_execution
    (hexec : Execution (kernelEntry img layout) start transitions final)
    (hfits : ∀ step ∈ transitions, step.event.Fits) :
    Execution (kernelStep img layout) start transitions final := by
  induction hexec with
  | nil => exact .nil
  | concat _ hstep ih =>
      have hearlier := ih fun step hmem =>
        hfits step (List.mem_append_left _ hmem)
      have hlast := hfits _ (List.mem_append_right _ List.mem_cons_self)
      exact hearlier.concat ((if_pos hlast).trans hstep)

end Runs

/-- Transition `ret`, at place `h`, ends the process in the slot as it should:
the parent goes on where the `execute` that started the process saved its
registers, with the exit value as the result.  In between the parent did not
run, no other process was started or ended in that slot, and whatever was
started later on the terminal has ended before. -/
def PairedReturn (transitions : List (Transition Kernel KernelEvent Outcome))
    (h slot : Nat) (ret : Transition Kernel KernelEvent Outcome) : Prop :=
  ∃ e call command esp ebp junk,
    transitions[e]? = some call ∧
    call.event = .execute command esp ebp junk ∧
    ReturnsFrom transitions e h slot ∧
    ret.before.currentPcb.parent = some call.before.current ∧
    ret.after.current = call.before.current ∧
    ret.answer = .executeReturned esp ebp (exitValue ret.event) ∧
    (ret.after.pcb slot).inUse = false ∧
    (ret.after.pcb slot).status = .none ∧
    (∀ j step, e < j → j ≤ h → transitions[j]? = some step →
      step.before.current ≠ call.before.current) ∧
    (∀ h', ReturnsFrom transitions e h' slot → h' = h) ∧
    ∀ e' call' slot', e < e' → e' < h → transitions[e']? = some call' →
      created call' = some slot' →
      call'.before.currentPcb.terminalNum =
        call.before.currentPcb.terminalNum →
      ∃ h', h' < h ∧ ReturnsFrom transitions e' h' slot'

/-- Programs started on two terminals in turn, the first of which ends. -/
def interleavedShells : List KernelEvent :=
  [.execute [115] (sampleEsp 0) 77 Junk.zero, .timer 1 (sampleEsp 3) 5,
    .execute [115] (sampleEsp 1) 78 Junk.zero, .timer 3 (sampleEsp 4) 6,
    .halt 300]

/-- The program started with a command that overruns its field runs on the
kernel stack of slot 5, in whose name it starts another one, which starts a
third in slot 5 itself.  When a tick leaves that one, what the `execute` of the
first saved is overwritten. -/
def overrunShells : List KernelEvent :=
  [.execute (overrunCommand 115 5) (sampleEsp 0) 0 Junk.zero,
    .execute [115] (sampleEsp 5) 7 Junk.zero,
    .execute [115] (sampleEsp 4) 8 Junk.zero, .tick (sampleEsp 5 - 64) 9,
    .tick (sampleEsp 1) 0, .tick (sampleEsp 2) 0, .halt 0, .halt 0]

end PsychOS
