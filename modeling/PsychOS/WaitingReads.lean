/-
Reads that wait.  `terminal_read` and `rtc_read` wait for their line or their
tick with interrupts enabled, in the middle of a system call: the timer can
switch to other processes there, keys and ticks arrive, and between the last
test of the loop and the `cli` after it anything of this may happen once more.
The system with these reads in pieces has the same executions as the one in
which a read is a single step.
-/
import PsychOS.Lib.Refinement
import PsychOS.ProcessIsolation
import PsychOS.ProcessTree
import PsychOS.SystemInput

namespace PsychOS

/-- What the loop of a read waits for. -/
inductive Wait where
  | line (terminal : Nat)
  | ticks
  deriving DecidableEq

/-- The loop is left: `new_line_ready` or `remaining_rtc_ticks` says so. -/
def Wait.isOver (pcb : Pcb) (tty : Tty) : Wait → Bool
  | .line terminal => tty.newLineReady terminal != 0
  | .ticks => pcb.remainingRtcTicks == 0

/-- `terminal_read` from the `cli` on. -/
def takeLine (tty : Tty) (terminal : Nat) (nbytes : Int) : List UInt8 × Tty :=
  let (bytes, buf) := circularBufferGet tty.inputMem
    (tty.inputBuffer terminal) (readLength tty terminal nbytes)
  (bytes,
    { tty with
      inputBuffer := Function.update tty.inputBuffer terminal buf
      newLineReady := Function.update tty.newLineReady terminal
        ((tty.newLineReady terminal + 255) % 256) })

/-- The handlers from the `cli` on.  Nothing is tested again. -/
def Wait.finish (pcb : Pcb) (tty : Tty) (nbytes : Int) : Wait → ReadOutcome
  | .line terminal =>
      let (bytes, tty) := takeLine tty terminal nbytes
      ⟨pcb, tty, toInt32 bytes.length, bytes⟩
  | .ticks =>
      ⟨{ pcb with remainingRtcTicks := pcb.rtcInterval }, tty, 0, []⟩

/-- `syscall_read` up to the loop of the handler; `none` if it does not come to
one. -/
def readWait (pcb : Pcb) (fd : Int) (buf : Nat) (nbytes : Int) : Option Wait :=
  if !inPageBounds buf nbytes then none
  else
    match pcb.openFd fd with
    | some (_, .stdin) => some (.line pcb.terminalNum)
    | some (_, .rtc) => if pcb.rtcEnabled then some .ticks else none
    | _ => none

/-- A read in the middle, on the stack of its process: the arguments, what it
waits for, and whether it has seen it. -/
structure PendingRead where
  fd : Int
  buf : Nat
  nbytes : Int
  wait : Wait
  woken : Bool

def PendingRead.event (read : PendingRead) : SystemEvent :=
  .file (.call (.readFile read.fd read.buf read.nbytes))

/-- The system with the reads that its processes are in. -/
structure FineState where
  kernel : Kernel
  pending : Nat → Option PendingRead

/-- Nobody is in a read. -/
def FineState.idle (k : Kernel) : FineState := ⟨k, fun _ => none⟩

def FineState.setPending (state : FineState) (slot : Nat)
    (read : Option PendingRead) : FineState :=
  { state with pending := Function.update state.pending slot read }

/-- The steps of the whole system, and a read in three pieces: up to the loop,
one test of the loop, and the rest. -/
inductive FineEvent where
  | whole (event : SystemEvent)
  | enter (fd : Int) (buf : Nat) (nbytes : Int)
  | test
  | leave

/-- What the process would wait for in this call. -/
def SystemEvent.wait (pcb : Pcb) : SystemEvent → Option Wait
  | .file (.call (.readFile fd buf nbytes)) => readWait pcb fd buf nbytes
  | _ => none

/-- Interrupts come at any time.  Calls are made outside of a read, and are
single steps if they do not wait. -/
def FineState.Allows (state : FineState) (event : SystemEvent) : Prop :=
  event.Interrupts ∨ (state.pending state.kernel.current).isNone ∧
    (event.wait state.kernel.currentPcb).isNone

instance (state : FineState) : DecidablePred state.Allows := fun _ =>
  inferInstanceAs (Decidable (_ ∨ _ ∧ _))

abbrev FineTransition := Transition FineState FineEvent (Option SystemAnswer)

def fineStep (img : Image) (layout : Layout) :
    OutFn FineState FineEvent (Option SystemAnswer)
  | state, .whole event =>
      if state.Allows event then
        (systemStep img layout state.kernel event).map fun (k, answer) =>
          ({ state with kernel := k }, some answer)
      else none
  | state, .enter fd buf nbytes =>
      if (state.pending state.kernel.current).isNone then
        (readWait state.kernel.currentPcb fd buf nbytes).map fun wait =>
          (state.setPending state.kernel.current
            (some ⟨fd, buf, nbytes, wait, false⟩), none)
      else none
  | state, .test =>
      (state.pending state.kernel.current).bind fun read =>
        if read.woken then none
        else
          let woken := read.wait.isOver state.kernel.currentPcb state.kernel.tty
          some (state.setPending state.kernel.current
            (some { read with woken := woken }), none)
  | state, .leave =>
      (state.pending state.kernel.current).bind fun read =>
        let outcome := read.wait.finish state.kernel.currentPcb
          state.kernel.tty read.nbytes
        -- as in the single step, a fault in the copy is not a return
        if read.woken ∧
            ∀ addr ∈ touched read.buf outcome.stored.length, HasPage addr then
          some (FineState.setPending
            { state with
              kernel := state.kernel.withSession ⟨outcome.pcb, outcome.tty⟩ }
            state.kernel.current none,
            some (.file ⟨outcome.ret, outcome.stored⟩))
        else none

/-- The step of the whole system that a transition is, if it is one.  A read
takes effect when it is left. -/
def committed (transition : FineTransition) : Option SystemTransition :=
  match transition.event, transition.answer with
  | .whole event, some answer => some ⟨transition.before.kernel, event, answer,
      transition.after.kernel⟩
  | .leave, some answer =>
      (transition.before.pending transition.before.kernel.current).map
        fun read => ⟨transition.before.kernel, read.event, answer,
          transition.after.kernel⟩
  | _, _ => none

section Pieces

variable {img : Image} {pcb : Pcb} {tty : Tty} {fd : Int} {buf : Nat}
  {nbytes : Int} {wait : Wait}

theorem terminalRead_eq_takeLine (terminal : Nat) :
    terminalRead tty terminal nbytes =
      if tty.newLineReady terminal = 0 then none
      else some (takeLine tty terminal nbytes) :=
  rfl

/-- A read that waits is the rest of its handler, once the wait is over. -/
theorem syscallRead_of_wait (hwait : readWait pcb fd buf nbytes = some wait) :
    syscallRead img pcb tty fd buf nbytes =
      if wait.isOver pcb tty then some (wait.finish pcb tty nbytes)
      else none := by
  unfold readWait at hwait
  unfold syscallRead
  split at hwait
  · cases hwait
  · rename_i hbounds
    rw [if_neg hbounds]
    split at hwait
    · rename_i f hopen
      obtain rfl := Option.some.inj hwait
      simp only [hopen, FileOps.hasRead, readHandler, ↓reduceIte,
        terminalRead_eq_takeLine, Wait.isOver, bne_iff_ne, ne_eq, ite_not]
      split <;> rfl
    · rename_i f hopen
      obtain ⟨henabled, heq⟩ := Option.ite_none_right_eq_some.mp hwait
      obtain rfl := Option.some.inj heq
      have hclock : ¬ (!pcb.rtcEnabled) = true := by simp [henabled]
      simp only [hopen, FileOps.hasRead, readHandler, ↓reduceIte,
        if_neg hclock, Wait.isOver, beq_iff_eq, ne_eq, ite_not]
      split <;> rfl
    · cases hwait

/-- What a read waits for is settled by the descriptors, the terminal and the
clock of its process. -/
theorem readWait_congr {next : Pcb} (hfa : next.fa = pcb.fa)
    (hterminal : next.terminalNum = pcb.terminalNum)
    (henabled : next.rtcEnabled = pcb.rtcEnabled) :
    readWait next fd buf nbytes = readWait pcb fd buf nbytes := by
  rw [readWait, readWait, openFd_congr hfa, hterminal, henabled]

theorem readWait_line {terminal : Nat}
    (hwait : readWait pcb fd buf nbytes = some (.line terminal)) :
    terminal = pcb.terminalNum := by
  unfold readWait at hwait
  split at hwait
  · cases hwait
  · split at hwait
    · exact (Wait.line.inj (Option.some.inj hwait)).symm
    · split at hwait <;> cases hwait
    · cases hwait

end Pieces

/-- What a process that waits counts on. -/
structure Pcb.Stays (pcb next : Pcb) : Prop where
  fa_eq : next.fa = pcb.fa
  terminalNum_eq : next.terminalNum = pcb.terminalNum
  rtcEnabled_eq : next.rtcEnabled = pcb.rtcEnabled
  inUse_eq : next.inUse = pcb.inUse
  running : pcb.status = .running → next.status = .running
  ticks : pcb.remainingRtcTicks = 0 → next.remainingRtcTicks = 0

section Stays

variable {img : Image} {layout : Layout} {k next : Kernel} {slot : Nat}

theorem Pcb.Stays.refl (pcb : Pcb) : pcb.Stays pcb :=
  ⟨rfl, rfl, rfl, rfl, id, id⟩

theorem Pcb.Stays.of_eq {pcb next : Pcb} (heq : next = pcb) : pcb.Stays next :=
  heq ▸ .refl pcb

theorem rtcHandler_stays (pcb : Pcb) : pcb.Stays (rtcHandler pcb) := by
  unfold rtcHandler
  split
  · refine ⟨rfl, rfl, rfl, rfl, id, fun hzero => ?_⟩
    rw [hzero]
  · exact .refl pcb

theorem modify_running {other : Nat} {status : Status}
    (hstatus : other = slot → status = .running) :
    (k.pcb slot).Stays ((k.modify other fun pcb =>
      { pcb with status := status }).pcb slot) := by
  by_cases hslot : slot = other
  · subst hslot
    simp only [Kernel.modify, Function.update_self]
    exact ⟨rfl, rfl, rfl, rfl, fun _ => hstatus rfl, id⟩
  · exact .of_eq (Function.update_of_ne hslot ..)

/-- A halt sets the parent running and leaves the others. -/
theorem haltProgram_stays {status : Int} (hother : slot ≠ k.current) :
    (k.pcb slot).Stays ((haltProgram layout k status).1.pcb slot) := by
  have hreleased : (release k k.current).pcb slot = k.pcb slot := by
    rw [release_pcb, Function.update_of_ne hother]
  rw [← hreleased]
  unfold haltProgram
  dsimp only
  split
  · rw [restartProgram_pcb, Function.update_of_ne hother]
    exact .refl _
  · rename_i parent _
    have hchild : ((release k k.current).modify k.current fun pcb =>
        { pcb with status := .none }).pcb slot =
        (release k k.current).pcb slot := Function.update_of_ne hother ..
    rw [← hchild]
    exact @modify_running _ slot parent .running fun _ => rfl

theorem syscallExecute_stays {command : List UInt8} {esp ebp : Nat}
    {junk : Junk} {outcome : Outcome}
    (hcall : syscallExecute img layout k command esp ebp junk =
      (next, outcome)) (huse : (k.pcb slot).inUse = true)
    (hcurrent : k.currentPcb.inUse = true) (hother : slot ≠ k.current) :
    (k.pcb slot).Stays (next.pcb slot) := by
  rcases syscallExecute_inv hcall with ⟨-, rfl⟩ | ⟨child, hfree, hcase⟩
  · exact .refl _
  · have hne {other : Nat} (hused : (k.pcb other).inUse = true) :
        other ≠ child := by
      rintro rfl
      rw [(freeSlot_spec hfree).2] at hused
      cases hused
    have hnamed : (k.modify child fun _ => k.namedPcb command child).pcb slot =
        k.pcb slot := Function.update_of_ne (hne huse) ..
    rcases hcase with ⟨-, rfl⟩ | ⟨entrypoint, -, rfl⟩
    · exact .of_eq hnamed
    · apply Pcb.Stays.of_eq
      rw [startProcess_pcb (hne hcurrent).symm, Function.update_of_ne hother,
        Function.update_of_ne (hne huse)]
      exact hnamed

/-- Calls of others and interrupts leave a process what it waits with. -/
theorem systemStep_stays {event : SystemEvent} {answer : SystemAnswer}
    (hstep : systemStep img layout k event = some (next, answer))
    (huse : (k.pcb slot).inUse = true)
    (hcurrent : k.currentPcb.inUse = true)
    (hown : k.current = slot → event.Interrupts) :
    (k.pcb slot).Stays (next.pcb slot) := by
  cases systemStep_cases hstep with
  | kernel event outcome hentry =>
      cases kernelEntry_cases hentry with
      | switched target esp ebp =>
          rw [contextSwitch_pcb]
          by_cases hslot : slot = k.current
          · subst hslot
            rw [Function.update_self]
            exact ⟨rfl, rfl, rfl, rfl, id, id⟩
          · rw [Function.update_of_ne hslot]
            exact .refl _
      | unswitched | activated => exact .refl _
      | executed command esp ebp junk hstack hcall =>
          exact syscallExecute_stays hcall huse hcurrent
            fun heq => hown heq.symm
      | halted status hevent hhalt =>
          obtain rfl := congrArg Prod.fst hhalt
          apply haltProgram_stays
          rintro rfl
          rcases hevent with rfl | ⟨code, rfl⟩
          · exact hown rfl
          · exact hown rfl
  | file event sess reply htable =>
      by_cases hslot : slot = k.current
      · subst hslot
        have hevent := hown rfl
        have hpcb : (k.withSession sess).pcb k.current = sess.pcb :=
          Function.update_self ..
        rw [hpcb]
        cases tableStep_cases htable with
        | keyTyped terminal ch => exact .refl _
        | openFile | closeFile | readFile | rtcTick | writeFile =>
            exact hevent.elim
      · exact .of_eq (Function.update_of_ne hslot ..)
  | clock => exact tickAll_rule Pcb.Stays.refl rtcHandler_stays k slot

end Stays

/-- A read in the middle: its process can run, its checks would come out the
same, and what it has seen is still there. -/
structure Waiting (k : Kernel) (slot : Nat) (read : PendingRead) : Prop where
  slot_lt : slot < maxProcesses
  running : k.IsRunning slot
  wait_eq : readWait (k.pcb slot) read.fd read.buf read.nbytes =
    some read.wait
  seen : read.woken = true → read.wait.isOver (k.pcb slot) k.tty = true

structure FineInv (layout : Layout) (state : FineState) : Prop where
  represents : ∃ threads,
    Represents state.kernel.core.table state.kernel.current threads
  typing : TypingAll layout state.kernel.tty
  waiting : ∀ slot, ∀ read ∈ state.pending slot,
    Waiting state.kernel slot read

section Steps

variable {img : Image} {layout : Layout} {k next : Kernel} {slot : Nat}
  {read : PendingRead}

/-- Of the processes that can run, each terminal has one. -/
theorem Represents.running_unique {threads : ProcessThreads}
    (hrep : Represents k.core.table k.current threads) {other : Nat}
    (hslot : slot < maxProcesses) (hrunning : k.IsRunning slot)
    (hother : other < maxProcesses) (hrunning' : k.IsRunning other)
    (hterminal : (k.pcb slot).terminalNum = (k.pcb other).terminalNum) :
    slot = other := by
  obtain ⟨terminal, rfl⟩ :=
    hrep.top_of_running hslot hrunning.1 hrunning.2
  obtain ⟨terminal', rfl⟩ :=
    hrep.top_of_running hother hrunning'.1 hrunning'.2
  have hfirst := ((hrep.holds terminal).entry
    (threads.chain terminal).top_mem_frames).2.2
  have hsecond := ((hrep.holds terminal').entry
    (threads.chain terminal').top_mem_frames).2.2
  have heq : terminal = terminal' :=
    Fin.ext (hfirst.symm.trans (hterminal.trans hsecond))
  rw [heq]

/-- Whatever the others and the interrupts do, a read that waits goes on
waiting, and one that has seen its line or its tick still finds it.  Nobody
else reads from its terminal, since nobody else there can run. -/
theorem Waiting.step {event : SystemEvent} {answer : SystemAnswer}
    (hwaiting : Waiting k slot read)
    (hrep : ∃ threads, Represents k.core.table k.current threads)
    (htyping : TypingAll layout k.tty) (hregular : event.Regular)
    (hown : k.current = slot → event.Interrupts)
    (hstep : systemStep img layout k event = some (next, answer)) :
    Waiting next slot read := by
  obtain ⟨threads, hrep⟩ := hrep
  obtain ⟨hslot, hrunning, hwait, hkept⟩ := hwaiting
  have htree := hrep.processTree
  have hstays := systemStep_stays hstep hrunning.1 htree.current.2.1 hown
  refine ⟨hslot, ⟨hstays.inUse_eq.trans hrunning.1,
    hstays.running hrunning.2⟩, ?_, ?_⟩
  · rw [readWait_congr hstays.fa_eq hstays.terminalNum_eq
      hstays.rtcEnabled_eq]
    exact hwait
  · intro hwoken
    have hseen := hkept hwoken
    cases hkind : read.wait with
    | ticks =>
        rw [hkind] at hseen
        exact beq_iff_eq.mpr (hstays.ticks (beq_iff_eq.mp hseen))
    | line terminal =>
        rw [hkind] at hseen hwait
        obtain rfl := readWait_line hwait
        have ht := htree.terminals slot hslot hrunning.1
        have hcase := systemStep_input ht
          (fun t ht => (htyping t ht).ready) hregular hstep
        refine bne_iff_ne.mpr (hcase.counter_ne_zero (htyping _ ht) ?_
          (bne_iff_ne.mp hseen))
        rintro ⟨hsame, hcall⟩
        exact hcall (hown (hrep.running_unique htree.current.1
          htree.current.2 hslot hrunning hsame))

end Steps

section Fine

variable {img : Image} {layout : Layout} {state next : FineState}
  {read : PendingRead}

/-- A step of the whole system, for the reads that are still in the middle
after it. -/
theorem FineInv.step (hinv : FineInv layout state) {event : SystemEvent}
    {answer : SystemAnswer} {k : Kernel} (hregular : event.Regular)
    (hstep : systemStep img layout state.kernel event = some (k, answer))
    {pending : Nat → Option PendingRead}
    (hpending : ∀ slot, ∀ read ∈ pending slot, read ∈ state.pending slot ∧
      (state.kernel.current = slot → event.Interrupts)) :
    FineInv layout ⟨k, pending⟩ := by
  obtain ⟨⟨threads, hrep⟩, htyping, hwaiting⟩ := hinv
  refine ⟨systemStep_represents hrep hregular.fits hstep,
    systemStep_typing htyping hregular hstep, ?_⟩
  intro slot read hread
  obtain ⟨hold, hown⟩ := hpending slot read hread
  exact (hwaiting slot read hold).step ⟨threads, hrep⟩ htyping hregular hown
    hstep

@[simp]
theorem FineState.setPending_same (state : FineState) (slot : Nat)
    (read : Option PendingRead) :
    (state.setPending slot read).pending slot = read :=
  Function.update_self ..

theorem FineState.setPending_other (state : FineState) {slot other : Nat}
    (hne : other ≠ slot) (read : Option PendingRead) :
    (state.setPending slot read).pending other = state.pending other :=
  Function.update_of_ne hne ..

/-- The process that runs gets to another point of its read. -/
theorem FineInv.setPending (hinv : FineInv layout state)
    (hread : Waiting state.kernel state.kernel.current read) :
    FineInv layout (state.setPending state.kernel.current (some read)) := by
  refine ⟨hinv.represents, hinv.typing, ?_⟩
  intro slot other hother
  by_cases hslot : slot = state.kernel.current
  · subst hslot
    rw [FineState.setPending_same] at hother
    exact Option.some.inj hother ▸ hread
  · rw [state.setPending_other hslot] at hother
    exact hinv.waiting slot other hother

/-- A completed read is a step of the whole system. -/
theorem systemStep_read {k : Kernel} {fd : Int} {buf : Nat} {nbytes : Int}
    {outcome : ReadOutcome}
    (hread : syscallRead img k.currentPcb k.tty fd buf nbytes = some outcome)
    (hpages : ∀ addr ∈ touched buf outcome.stored.length, HasPage addr) :
    systemStep img layout k (.file (.call (.readFile fd buf nbytes))) =
      some (k.withSession ⟨outcome.pcb, outcome.tty⟩,
        .file ⟨outcome.ret, outcome.stored⟩) := by
  have hfile : fileStep img k.session (.readFile fd buf nbytes) =
      some (⟨outcome.pcb, outcome.tty⟩, ⟨outcome.ret, outcome.stored⟩) :=
    congrArg (Option.map _) hread
  have htable : tableStep img k.session (.call (.readFile fd buf nbytes)) =
      some (⟨outcome.pcb, outcome.tty⟩, ⟨outcome.ret, outcome.stored⟩) := by
    rw [tableStep, hfile, Option.filter_some]
    exact if_pos (decide_eq_true hpages)
  exact congrArg (Option.map _) htable

/-- The rest of a read that has seen what it waits for is the whole read. -/
theorem Waiting.syscallRead_eq {k : Kernel}
    (hwaiting : Waiting k k.current read) (hwoken : read.woken = true) :
    syscallRead img k.currentPcb k.tty read.fd read.buf read.nbytes =
      some (read.wait.finish k.currentPcb k.tty read.nbytes) := by
  have hwait : readWait k.currentPcb read.fd read.buf read.nbytes =
      some read.wait := hwaiting.wait_eq
  rw [syscallRead_of_wait hwait]
  exact if_pos (hwaiting.seen hwoken)

/-- Every step of the finer system shows as it should. -/
theorem fineStep_shows {event : FineEvent} {answer : Option SystemAnswer}
    (hinv : FineInv layout state)
    (hregular : ∀ shown ∈ committed ⟨state, event, answer, next⟩,
      shown.event.Regular)
    (hstep : fineStep img layout state event = some (next, answer)) :
    FineInv layout next ∧ Transition.Shows (systemStep img layout)
      FineState.kernel ⟨state, event, answer, next⟩
      (committed ⟨state, event, answer, next⟩) := by
  obtain ⟨threads, hrep⟩ := hinv.represents
  obtain ⟨hcurrent, hrunning⟩ := hrep.processTree.current
  cases event with
  | whole event =>
      obtain ⟨hallows, hmap⟩ := Option.ite_none_right_eq_some.mp hstep
      obtain ⟨⟨k, reply⟩, hsystem, heq⟩ := Option.map_eq_some_iff.mp hmap
      obtain ⟨rfl, rfl⟩ := Prod.mk.inj heq
      refine ⟨?_, rfl, rfl, hsystem⟩
      refine hinv.step (hregular _ rfl) hsystem fun slot read hread =>
        ⟨hread, fun hown => ?_⟩
      rcases hallows with hinterrupts | ⟨hnone, -⟩
      · exact hinterrupts
      · rw [hown, Option.mem_def.mp hread] at hnone
        cases hnone
  | enter fd buf nbytes =>
      obtain ⟨-, hmap⟩ := Option.ite_none_right_eq_some.mp hstep
      obtain ⟨wait, hwait, heq⟩ := Option.map_eq_some_iff.mp hmap
      obtain ⟨rfl, rfl⟩ := Prod.mk.inj heq
      refine ⟨hinv.setPending ⟨hcurrent, hrunning, hwait, ?_⟩, rfl⟩
      intro hwoken
      cases hwoken
  | test =>
      obtain ⟨read, hread, htest⟩ := Option.bind_eq_some_iff.mp hstep
      obtain ⟨-, heq⟩ := Option.ite_none_left_eq_some.mp htest
      obtain ⟨rfl, rfl⟩ := Prod.mk.inj (Option.some.inj heq)
      have hwaiting := hinv.waiting _ read hread
      exact ⟨hinv.setPending ⟨hcurrent, hrunning, hwaiting.wait_eq, id⟩, rfl⟩
  | leave =>
      obtain ⟨read, hread, hleave⟩ := Option.bind_eq_some_iff.mp hstep
      obtain ⟨⟨hwoken, hpages⟩, heq⟩ :=
        Option.ite_none_right_eq_some.mp hleave
      obtain ⟨rfl, rfl⟩ := Prod.mk.inj (Option.some.inj heq)
      have hwaiting := hinv.waiting _ read hread
      have hsystem := @systemStep_read img layout _ _ _ _ _
        (hwaiting.syscallRead_eq hwoken) hpages
      have hevent : read.event.Regular := trivial
      refine ⟨hinv.step hevent hsystem fun slot other hother => ?_, ?_⟩
      · -- the read that is left is in the middle no more
        have hne : slot ≠ state.kernel.current := by
          rintro rfl
          have hnone := (Function.update_self ..).symm.trans hother
          cases hnone
        have hold := (Function.update_of_ne hne ..).symm.trans hother
        exact ⟨hold, fun hown => absurd hown.symm hne⟩
      · rw [committed]
        dsimp only
        rw [hread]
        exact ⟨rfl, rfl, hsystem⟩

/-- The process that runs is in this read, and nobody else in any. -/
def FineState.reading (k : Kernel) (read : PendingRead) : FineState :=
  (FineState.idle k).setPending k.current (some read)

theorem FineState.setPending_reading (k : Kernel)
    (read : PendingRead) (other : Option PendingRead) :
    (FineState.reading k read).setPending k.current other =
      (FineState.idle k).setPending k.current other := by
  simp only [reading, setPending, Function.update_idem]

theorem FineState.reading_pending (k : Kernel) (read : PendingRead) :
    (FineState.reading k read).pending
      (FineState.reading k read).kernel.current = some read :=
  FineState.setPending_same ..

/-- Whatever the read has done to the kernel, nobody is in one after it. -/
theorem FineState.leave_reading (k after : Kernel) (read : PendingRead) :
    FineState.setPending { FineState.reading k read with kernel := after }
      k.current none = FineState.idle after := by
  have hnone : Function.update (fun _ : Nat => (none : Option PendingRead))
      k.current none = fun _ => none := Function.update_eq_self ..
  simp only [setPending, reading, idle, Function.update_idem, hnone]

theorem wait_inv {pcb : Pcb} {event : SystemEvent} {wait : Wait}
    (hwait : event.wait pcb = some wait) : ∃ fd buf nbytes,
      event = .file (.call (.readFile fd buf nbytes)) := by
  unfold SystemEvent.wait at hwait
  split at hwait
  · exact ⟨_, _, _, rfl⟩
  · cases hwait

theorem committed_leave (k : Kernel) (read : PendingRead)
    (answer : SystemAnswer) (after : FineState) :
    committed ⟨.reading k read, .leave, some answer, after⟩ =
      some ⟨k, read.event, answer, after.kernel⟩ :=
  congrArg (Option.map _) (FineState.reading_pending k read)

/-- A read in pieces that nothing comes between. -/
theorem exists_fine_read {k : Kernel} {fd : Int} {buf : Nat} {nbytes : Int}
    {wait : Wait} {outcome : ReadOutcome}
    (hwait : readWait k.currentPcb fd buf nbytes = some wait)
    (hover : wait.isOver k.currentPcb k.tty = true)
    (hfinish : wait.finish k.currentPcb k.tty nbytes = outcome)
    (hpages : ∀ addr ∈ touched buf outcome.stored.length, HasPage addr) :
    ∃ transitions, Execution (fineStep img layout) (.idle k) transitions
        (.idle (k.withSession ⟨outcome.pcb, outcome.tty⟩)) ∧
      transitions.filterMap committed =
        [⟨k, .file (.call (.readFile fd buf nbytes)),
          .file ⟨outcome.ret, outcome.stored⟩,
          k.withSession ⟨outcome.pcb, outcome.tty⟩⟩] := by
  have henter : fineStep img layout (.idle k) (.enter fd buf nbytes) =
      some (.reading k ⟨fd, buf, nbytes, wait, false⟩, none) :=
    congrArg (Option.map _) hwait
  have htest : fineStep img layout
      (.reading k ⟨fd, buf, nbytes, wait, false⟩) .test =
        some (.reading k ⟨fd, buf, nbytes, wait, true⟩, none) := by
    have hwoken : (FineState.reading k
        ⟨fd, buf, nbytes, wait, false⟩).setPending k.current
          (some ⟨fd, buf, nbytes, wait, wait.isOver k.currentPcb k.tty⟩) =
        .reading k ⟨fd, buf, nbytes, wait, true⟩ := by
      rw [hover]
      exact FineState.setPending_reading ..
    rw [fineStep, FineState.reading_pending, Option.bind_some]
    exact congrArg (fun state => some (state, none)) hwoken
  have hleave : fineStep img layout
      (.reading k ⟨fd, buf, nbytes, wait, true⟩) .leave =
        some (.idle (k.withSession ⟨outcome.pcb, outcome.tty⟩),
          some (.file ⟨outcome.ret, outcome.stored⟩)) := by
    subst hfinish
    rw [fineStep, FineState.reading_pending, Option.bind_some]
    refine (if_pos ⟨rfl, hpages⟩).trans ?_
    exact congrArg (fun state => some (state, some _))
      (FineState.leave_reading ..)
  refine ⟨_, ((Execution.nil.concat henter).concat htest).concat hleave, ?_⟩
  -- only the last of the three pieces shows
  exact List.filterMap_cons_some (committed_leave k _ _ _)

/-- A step of the whole system, with its read in pieces if it is one that
waits. -/
theorem exists_fine_steps {k after : Kernel} {event : SystemEvent}
    {answer : SystemAnswer}
    (hstep : systemStep img layout k event = some (after, answer)) :
    ∃ transitions, Execution (fineStep img layout) (.idle k) transitions
        (.idle after) ∧
      transitions.filterMap committed = [⟨k, event, answer, after⟩] := by
  cases hwait : event.wait k.currentPcb with
  | none =>
      have hallows : (FineState.idle k).Allows event :=
        Or.inr ⟨rfl, Option.isNone_iff_eq_none.mpr hwait⟩
      have hwhole : fineStep img layout (.idle k) (.whole event) =
          some (.idle after, some answer) := by
        rw [fineStep, if_pos hallows]
        exact congrArg (Option.map _) hstep
      exact ⟨_, Execution.nil.concat hwhole, rfl⟩
  | some wait =>
      obtain ⟨fd, buf, nbytes, rfl⟩ := wait_inv hwait
      cases systemStep_cases hstep with
      | file _ sess reply htable =>
      cases tableStep_cases htable with
      | readFile _ _ _ outcome hread hpages =>
      have hcall : syscallRead img k.currentPcb k.tty fd buf nbytes =
          some outcome := hread
      rw [syscallRead_of_wait hwait] at hcall
      obtain ⟨hover, hfinish⟩ := Option.ite_none_right_eq_some.mp hcall
      exact exists_fine_read hwait hover (Option.some.inj hfinish) hpages

theorem exists_fine_execution {start k : Kernel}
    {steps : List SystemTransition}
    (hexec : Execution (systemStep img layout) start steps k) :
    ∃ transitions, Execution (fineStep img layout) (.idle start) transitions
        (.idle k) ∧ transitions.filterMap committed = steps := by
  induction hexec with
  | nil => exact ⟨[], .nil, rfl⟩
  | concat _ hstep ih =>
      obtain ⟨earlier, hearlier, hcommitted⟩ := ih
      obtain ⟨later, hlater, hlast⟩ := exists_fine_steps hstep
      refine ⟨earlier ++ later, hearlier.append hlater, ?_⟩
      rw [List.filterMap_append, hcommitted, hlast]

end Fine

/-- The finer system, in which reads wait in pieces while anything else goes
on, and the one in which a read is a single step have the same executions:
what the finer one commits is an execution of the other with the same states
and answers, and all its executions come about so. -/
theorem waiting_reads_atomic {img : Image} {layout : Layout} {start : Kernel}
    (hboot : Booted img layout start) {steps : List SystemTransition}
    (hregular : ∀ step ∈ steps, step.event.Regular) (k : Kernel) :
    (∃ transitions final,
      Execution (fineStep img layout) (.idle start) transitions final ∧
        transitions.filterMap committed = steps ∧ final.kernel = k) ↔
      Execution (systemStep img layout) start steps k := by
  constructor
  · rintro ⟨transitions, final, hexec, rfl, rfl⟩
    have hstart : FineInv layout (.idle start) :=
      ⟨⟨_, hboot.represents⟩, hboot.typing, fun _ _ hnone => nomatch hnone⟩
    exact (hexec.project (fun _ _ _ _ hinv hshown hstep =>
      fineStep_shows hinv hshown hstep) hstart hregular).2
  · intro hexec
    obtain ⟨transitions, hfine, hcommitted⟩ := exists_fine_execution hexec
    exact ⟨transitions, .idle k, hfine, hcommitted, rfl⟩

/-- A process waits for a line while another one runs, keys arrive and the
clock ticks; one more key is typed between the last test and the rest of the
read. -/
def interruptedRead : List FineEvent :=
  [.enter 0 0x8048000 16, .test, .whole (.kernel (.timer 1 (sampleEsp 0) 0)),
    .whole (.file (.call (.keyTyped 0 97))),
    .whole (.file (.call (.openFile [115]))), .whole .clock,
    .whole (.file (.call (.keyTyped 0 10))),
    .whole (.kernel (.timer 0 (sampleEsp 1) 0)), .test,
    .whole (.file (.call (.keyTyped 0 98))), .leave]

theorem interruptedRead_atomic : ∃ transitions final,
    Execution (fineStep shellImage sampleLayout) (.idle sampleKernel)
        transitions final ∧
      transitions.map Transition.event = interruptedRead ∧
      ((transitions.filterMap committed).map Transition.answer).getLast? =
        some (.file ⟨2, [97, 10]⟩) ∧
      Execution (systemStep shellImage sampleLayout) sampleKernel
        (transitions.filterMap committed) final.kernel := by
  have hrun : ((trace (fineStep shellImage sampleLayout) (.idle sampleKernel)
      interruptedRead).map fun result =>
        (decide (∀ step ∈ result.1.filterMap committed, step.event.Regular),
          ((result.1.filterMap committed).map Transition.answer).getLast?)) =
      some (true, some (.file ⟨2, [97, 10]⟩)) := by
    decide +kernel
  obtain ⟨⟨transitions, final⟩, htrace, heq⟩ := Option.map_eq_some_iff.mp hrun
  obtain ⟨hregular, hlast⟩ := Prod.mk.inj heq
  obtain ⟨hexec, hevents⟩ := trace_execution htrace
  refine ⟨transitions, final, hexec, hevents, hlast, ?_⟩
  exact (waiting_reads_atomic sampleKernel_booted
    (of_decide_eq_true hregular) final.kernel).mp
    ⟨transitions, final, hexec, rfl, rfl⟩

end PsychOS
