/-
What a process has of its own.  While it makes no call, nothing the other
processes, the keys or the clock do reaches its descriptors and its arguments;
and what its calls about files hand out does not depend on anything the others
have done.
-/
import PsychOS.WholeSystem

namespace PsychOS

/-- The events that come over a process without a call of its own. -/
def SystemEvent.Interrupts : SystemEvent → Prop
  | .kernel (.timer _ _ _) => True
  | .kernel (.tick _ _) => True
  | .kernel (.switchTerminal _) => True
  | .file (.call (.keyTyped _ _)) => True
  | .clock => True
  | _ => False

instance : DecidablePred SystemEvent.Interrupts
  | .kernel (.timer _ _ _) => isTrue trivial
  | .kernel (.tick _ _) => isTrue trivial
  | .kernel (.switchTerminal _) => isTrue trivial
  | .kernel (.execute _ _ _ _) => isFalse id
  | .kernel (.halt _) => isFalse id
  | .kernel .exception => isFalse id
  | .file (.call (.keyTyped _ _)) => isTrue trivial
  | .file (.call (.openFile _)) => isFalse id
  | .file (.call (.closeFile _)) => isFalse id
  | .file (.call (.readFile _ _ _)) => isFalse id
  | .file (.call .rtcTick) => isFalse id
  | .file (.writeFile _ _ _ _) => isFalse id
  | .clock => isTrue trivial

/-- What one process has of its own: its descriptors and its texts, and that
it is there. -/
structure Pcb.Kept (pcb next : Pcb) : Prop where
  fa_eq : next.fa = pcb.fa
  text_eq : next.text = pcb.text
  inUse_eq : next.inUse = pcb.inUse

section Privacy

variable {img : Image} {layout : Layout} {k next : Kernel} {slot : Nat}

theorem Pcb.Kept.refl (pcb : Pcb) : pcb.Kept pcb := ⟨rfl, rfl, rfl⟩

theorem Pcb.Kept.trans {pcb middle last : Pcb} (hfirst : pcb.Kept middle)
    (hsecond : middle.Kept last) : pcb.Kept last :=
  ⟨hsecond.fa_eq.trans hfirst.fa_eq, hsecond.text_eq.trans hfirst.text_eq,
    hsecond.inUse_eq.trans hfirst.inUse_eq⟩

theorem rtcHandler_kept (pcb : Pcb) : pcb.Kept (rtcHandler pcb) := by
  unfold rtcHandler
  split
  · exact ⟨rfl, rfl, rfl⟩
  · exact .refl pcb

/-- A change to another slot, or one that keeps what the process has. -/
theorem modify_kept {i : Nat} {f : Pcb → Pcb}
    (hkept : slot = i → (k.pcb slot).Kept (f (k.pcb slot))) :
    (k.pcb slot).Kept ((k.modify i f).pcb slot) := by
  unfold Kernel.modify
  by_cases hslot : slot = i
  · subst hslot
    simpa only [Function.update_self] using hkept rfl
  · simpa only [Function.update_of_ne hslot] using .refl _

/-- Starting a process reaches the new one and what its parent waits for. -/
theorem startProcess_kept {parent child entrypoint esp ebp : Nat}
    {junk : Junk} (hne : slot ≠ child) :
    (k.pcb slot).Kept ((startProcess layout k parent child entrypoint esp ebp
      junk).pcb slot) := by
  by_cases hparent : slot = parent
  · subst hparent
    simp only [startProcess, Kernel.switchToRing3, Kernel.setKernelStack,
      Kernel.modify, Kernel.getNextPid, Kernel.enablePaging,
      Function.update_self, Function.update_of_ne hne]
    exact ⟨rfl, rfl, rfl⟩
  · simp only [startProcess, Kernel.switchToRing3, Kernel.setKernelStack,
      Kernel.modify, Kernel.getNextPid, Kernel.enablePaging,
      Function.update_of_ne hparent, Function.update_of_ne hne]
    exact .refl _

theorem syscallExecute_kept {command : List UInt8} {esp ebp : Nat}
    {junk : Junk} {outcome : Outcome}
    (hcall : syscallExecute img layout k command esp ebp junk =
      (next, outcome)) (huse : (k.pcb slot).inUse = true) :
    (k.pcb slot).Kept (next.pcb slot) := by
  rcases syscallExecute_inv hcall with ⟨-, rfl⟩ | ⟨child, hfree, hcase⟩
  · exact .refl _
  · have hne : slot ≠ child := by
      rintro rfl
      rw [(freeSlot_spec hfree).2] at huse
      cases huse
    have hnamed : (k.pcb slot).Kept
        ((k.modify child fun _ => k.namedPcb command child).pcb slot) :=
      modify_kept fun heq => absurd heq hne
    rcases hcase with ⟨-, rfl⟩ | ⟨entrypoint, -, rfl⟩
    · exact hnamed
    · refine .trans ?_ (startProcess_kept hne)
      exact hnamed

/-- A halt reaches the process that halts and the status of its parent. -/
theorem haltProgram_kept {status : Int} (hother : slot ≠ k.current) :
    (k.pcb slot).Kept ((haltProgram layout k status).1.pcb slot) := by
  have hreleased : (release k k.current).pcb slot = k.pcb slot := by
    rw [release_pcb, Function.update_of_ne hother]
  rw [← hreleased]
  unfold haltProgram
  dsimp only
  split
  · rw [restartProgram_pcb, Function.update_of_ne hother]
    exact .refl _
  · obtain ⟨moved, hmoved⟩ := returnToParent_pcb (release k k.current)
      k.current _ status slot
    rw [hmoved]
    exact ⟨rfl, rfl, rfl⟩

/-- What the kernel does for one process leaves the others what they have. -/
theorem systemStep_kept {event : SystemEvent} {answer : SystemAnswer}
    (hstep : systemStep img layout k event = some (next, answer))
    (huse : (k.pcb slot).inUse = true)
    (hown : k.current = slot → event.Interrupts) :
    (k.pcb slot).Kept (next.pcb slot) := by
  cases systemStep_cases hstep with
  | kernel event outcome hentry =>
      cases kernelEntry_cases hentry with
      | switched target esp ebp =>
          rw [contextSwitch_pcb]
          exact @modify_kept k slot k.current
            (fun pcb => { pcb with esp := esp, ebp := ebp })
            fun _ => ⟨rfl, rfl, rfl⟩
      | unswitched | activated => exact .refl _
      | executed command esp ebp junk hstack hcall =>
          exact syscallExecute_kept hcall huse
      | halted status hevent hhalt =>
          obtain rfl := congrArg Prod.fst hhalt
          apply haltProgram_kept
          rintro rfl
          rcases hevent with rfl | ⟨code, rfl⟩
          · exact hown rfl
          · exact hown rfl
  | file event sess reply htable =>
      have hmodify := @modify_kept k slot k.current fun _ => sess.pcb
      apply hmodify
      intro heq
      have hevent := hown heq.symm
      cases tableStep_cases htable with
      | keyTyped terminal ch =>
          rw [heq]
          exact .refl _
      | openFile | closeFile | readFile | rtcTick | writeFile =>
          exact hevent.elim
  | clock => exact tickAll_rule Pcb.Kept.refl rtcHandler_kept k slot

end Privacy

/-- A call that is not a read that waits for a line or a tick. -/
def SystemEvent.OnFiles (fa : Nat → FileDesc) : SystemEvent → Prop
  | .file (.call (.openFile _)) => True
  | .file (.call (.closeFile _)) => True
  | .file (.call (.readFile fd _ _)) =>
      (fa fd.toNat).fops ≠ some .stdin ∧ (fa fd.toNat).fops ≠ some .rtc
  | .file (.writeFile _ _ _ _) => True
  | _ => False

instance (fa : Nat → FileDesc) : DecidablePred (SystemEvent.OnFiles fa)
  | .kernel _ => isFalse id
  | .file (.call (.openFile _)) => isTrue trivial
  | .file (.call (.closeFile _)) => isTrue trivial
  | .file (.call (.readFile _ _ _)) => inferInstanceAs (Decidable (_ ∧ _))
  | .file (.call (.keyTyped _ _)) => isFalse id
  | .file (.call .rtcTick) => isFalse id
  | .file (.writeFile _ _ _ _) => isTrue trivial
  | .clock => isFalse id

/-- In this step the process in the slot does nothing or makes a call about
files. -/
def FilesOnly (slot : Nat) (step : SystemTransition) : Prop :=
  step.before.current = slot →
    step.event.Interrupts ∨ step.event.OnFiles (step.before.pcb slot).fa

instance (slot : Nat) : DecidablePred (FilesOnly slot) := fun step =>
  inferInstanceAs (Decidable (step.before.current = slot →
    step.event.Interrupts ∨ step.event.OnFiles (step.before.pcb slot).fa))

/-- A call of the process in the slot, with its reply. -/
def ownCall (slot : Nat) (step : SystemTransition) :
    Option (TableEvent × Reply) :=
  match step.event, step.answer with
  | .file event, .file reply =>
      if step.before.current = slot ∧ ¬ (SystemEvent.file event).Interrupts then
        some (event, reply)
      else none
  | _, _ => none

/-- The calls of the process in the slot, in order. -/
def ownCalls (slot : Nat) (transitions : List SystemTransition) :
    List (TableEvent × Reply) :=
  transitions.filterMap (ownCall slot)

section Isolation

variable {img : Image} {layout : Layout} {k final : Kernel} {slot : Nat}

theorem openFd_congr {pcb other : Pcb} (hfa : other.fa = pcb.fa) (fd : Int) :
    other.openFd fd = pcb.openFd fd := by
  rw [Pcb.openFd, hfa]
  rfl

theorem syscallOpen_congr {pcb other : Pcb} (hfa : other.fa = pcb.fa)
    (filename : Memory UInt8) :
    (syscallOpen img other filename).2 = (syscallOpen img pcb filename).2 ∧
      (syscallOpen img other filename).1.fa =
        (syscallOpen img pcb filename).1.fa := by
  unfold syscallOpen
  rw [hfa]
  split
  · exact ⟨rfl, hfa⟩
  · split
    · exact ⟨rfl, hfa⟩
    · split
      · exact ⟨rfl, hfa⟩
      · simp only [Pcb.setFd, openHandler_fa, hfa, and_self]

theorem syscallClose_congr {pcb other : Pcb} (hfa : other.fa = pcb.fa)
    (fd : Int) :
    (syscallClose other fd).2 = (syscallClose pcb fd).2 ∧
      (syscallClose other fd).1.fa = (syscallClose pcb fd).1.fa := by
  unfold syscallClose
  rw [openFd_congr hfa]
  split
  · exact ⟨rfl, hfa⟩
  · split
    · simp only [Pcb.setFd, closeHandler_fa, hfa, and_self]
    · exact ⟨rfl, hfa⟩

theorem syscallWrite_congr {pcb other : Pcb} (hfa : other.fa = pcb.fa)
    (tty tty' : Tty) (user : Memory UInt8) (fd : Int) (buf : Nat)
    (nbytes : Int) :
    (syscallWrite other tty' user fd buf nbytes).ret =
      (syscallWrite pcb tty user fd buf nbytes).ret := by
  unfold syscallWrite
  rw [openFd_congr hfa]
  split
  · rfl
  · split
    · rfl
    · rename_i fops _
      split
      · cases fops with
        | rtc =>
            rw [writeHandler, writeHandler]
            split
            · rfl
            · split <;> rfl
        | stdin | stdout | dir | file => rfl
      · rfl

/-- Handlers of files and of the directory use the descriptor alone. -/
theorem readHandler_congr {pcb other : Pcb} (hfa : other.fa = pcb.fa)
    {tty tty' : Tty} {fd : Nat} {f : FileDesc} {nbytes : Int} {fops : FileOps}
    {outcome : ReadOutcome} (hstdin : fops ≠ .stdin) (hrtc : fops ≠ .rtc)
    (hread : readHandler img pcb tty fd f nbytes fops = some outcome) :
    ∃ after, readHandler img other tty' fd f nbytes fops = some after ∧
      after.ret = outcome.ret ∧ after.stored = outcome.stored ∧
      after.pcb.fa = outcome.pcb.fa := by
  cases fops with
  | stdin => exact absurd rfl hstdin
  | rtc => exact absurd rfl hrtc
  | dir | file =>
      obtain rfl := Option.some.inj hread
      refine ⟨_, rfl, rfl, rfl, ?_⟩
      simp only [Pcb.setFd, hfa]
  | stdout =>
      obtain rfl := Option.some.inj hread
      exact ⟨_, rfl, rfl, rfl, hfa⟩

theorem syscallRead_congr {pcb other : Pcb} (hfa : other.fa = pcb.fa)
    {tty tty' : Tty} {fd : Int} {buf : Nat} {nbytes : Int}
    {outcome : ReadOutcome} (hstdin : (pcb.fa fd.toNat).fops ≠ some .stdin)
    (hrtc : (pcb.fa fd.toNat).fops ≠ some .rtc)
    (hread : syscallRead img pcb tty fd buf nbytes = some outcome) :
    ∃ after, syscallRead img other tty' fd buf nbytes = some after ∧
      after.ret = outcome.ret ∧ after.stored = outcome.stored ∧
      after.pcb.fa = outcome.pcb.fa := by
  have hfailed : ∀ failed : ReadOutcome, some ⟨pcb, tty, -1, []⟩ = some failed →
      ∃ after, some (⟨other, tty', -1, []⟩ : ReadOutcome) = some after ∧
        after.ret = failed.ret ∧ after.stored = failed.stored ∧
        after.pcb.fa = failed.pcb.fa := by
    rintro _ ⟨rfl⟩
    exact ⟨_, rfl, rfl, rfl, hfa⟩
  unfold syscallRead at hread ⊢
  rw [openFd_congr hfa]
  by_cases hbounds : (!inPageBounds buf nbytes) = true
  · rw [if_pos hbounds] at hread ⊢
    exact hfailed outcome hread
  · rw [if_neg hbounds] at hread ⊢
    cases hopen : pcb.openFd fd with
    | none =>
        rw [hopen] at hread
        exact hfailed outcome hread
    | some found =>
        obtain ⟨f, fops⟩ := found
        obtain ⟨-, -, rfl, -, hfops⟩ := openFd_inv hopen
        rw [hopen] at hread
        dsimp only at hread ⊢
        by_cases hhas : fops.hasRead = true
        · rw [if_pos hhas] at hread ⊢
          refine readHandler_congr hfa ?_ ?_ hread
          · rintro rfl
            exact hstdin hfops
          · rintro rfl
            exact hrtc hfops
        · rw [if_neg hhas] at hread ⊢
          exact hfailed outcome hread

/-- Descriptors alone say what a call about files replies and leaves. -/
theorem tableStep_congr {sess other next : Session} {event : TableEvent}
    {reply : Reply} (hfiles : (SystemEvent.file event).OnFiles sess.pcb.fa)
    (hfa : other.pcb.fa = sess.pcb.fa)
    (hstep : tableStep img sess event = some (next, reply)) :
    ∃ after, tableStep img other event = some (after, reply) ∧
      after.pcb.fa = next.pcb.fa := by
  cases tableStep_cases hstep with
  | openFile name =>
      obtain ⟨hret, hopen⟩ := @syscallOpen_congr img _ _ hfa (cString name)
      rw [← hret]
      exact ⟨_, rfl, hopen⟩
  | closeFile fd =>
      obtain ⟨hret, hclose⟩ := syscallClose_congr hfa fd
      rw [← hret]
      exact ⟨_, rfl, hclose⟩
  | readFile fd buf nbytes outcome hread hreturns =>
      obtain ⟨after, hafter, hret, hstored, hleft⟩ :=
        @syscallRead_congr img _ _ hfa _ other.tty _ _ _ _ hfiles.1 hfiles.2
          hread
      refine ⟨⟨after.pcb, after.tty⟩, ?_, hleft⟩
      rw [tableStep, fileStep, hafter, Option.map_some, Option.filter_some,
        hret, hstored]
      exact if_pos (decide_eq_true hreturns)
  | keyTyped | rtcTick => exact hfiles.elim
  | writeFile user fd buf nbytes =>
      rw [← syscallWrite_congr hfa sess.tty other.tty]
      refine ⟨_, rfl, ?_⟩
      rw [syscallWrite_fa, syscallWrite_fa, hfa]

theorem ownCalls_append (earlier later : List SystemTransition) :
    ownCalls slot (earlier ++ later) =
      ownCalls slot earlier ++ ownCalls slot later :=
  List.filterMap_append

theorem ownCall_other {step : SystemTransition}
    (hown : step.before.current = slot → step.event.Interrupts) :
    ownCall slot step = none := by
  unfold ownCall
  split
  · rename_i event reply hevent hanswer
    rw [hevent] at hown
    exact if_neg fun hboth => hboth.2 (hown hboth.1)
  · rfl

/-- One step of the system is one of the process, or does not concern it. -/
theorem systemStep_isolated {next : Kernel} {event : SystemEvent}
    {answer : SystemAnswer} (huse : (k.pcb slot).inUse = true)
    (hown : k.current = slot →
      event.Interrupts ∨ event.OnFiles (k.pcb slot).fa)
    (hstep : systemStep img layout k event = some (next, answer))
    {alone : Session} (halone : alone.pcb.fa = (k.pcb slot).fa) :
    (next.pcb slot).inUse = true ∧ ∃ after,
      answers (tableStep img) alone
          ((ownCalls slot [⟨k, event, answer, next⟩]).map Prod.fst) =
        some (after,
          (ownCalls slot [⟨k, event, answer, next⟩]).map Prod.snd) ∧
      after.pcb.fa = (next.pcb slot).fa := by
  by_cases hcall : k.current = slot ∧ ¬ event.Interrupts
  · obtain ⟨rfl, hnot⟩ := hcall
    have hfiles := (hown rfl).resolve_left hnot
    cases systemStep_cases hstep with
    | kernel | clock => exact hfiles.elim
    | file call sess reply htable =>
        obtain ⟨after, hafter, hfa⟩ := tableStep_congr hfiles halone htable
        have hcalls : ownCalls k.current [⟨k, .file call, .file reply,
            k.withSession sess⟩] = [(call, reply)] := by
          simp [ownCalls, ownCall, hnot]
        have hpcb : (k.withSession sess).pcb k.current = sess.pcb :=
          Function.update_self ..
        rw [hcalls, hpcb]
        refine ⟨(tableStep_sameProcess htable).inUse_eq.trans huse, after, ?_,
          hfa⟩
        simp [answers, hafter]
  · have hother : k.current = slot → event.Interrupts :=
      fun hcurrent => not_not.mp fun hnot => hcall ⟨hcurrent, hnot⟩
    have hkept := systemStep_kept hstep huse hother
    have hnone : ownCalls slot [⟨k, event, answer, next⟩] = [] :=
      List.filterMap_cons_none (ownCall_other hother)
    rw [hnone]
    exact ⟨hkept.inUse_eq.trans huse, alone, rfl, halone.trans hkept.fa_eq.symm⟩

end Isolation

/-- Take any run of the system in which a process makes calls about files.
From any state in which it has the same descriptors, the same calls alone get
the same replies and leave the same descriptors: nothing the others do, now or
before, shows. -/
theorem file_calls_isolated {img : Image} {layout : Layout} {k final : Kernel}
    {slot : Nat} {transitions : List SystemTransition}
    (huse : (k.pcb slot).inUse = true)
    (hexec : Execution (systemStep img layout) k transitions final)
    (hfiles : ∀ step ∈ transitions, FilesOnly slot step) {alone : Session}
    (halone : alone.pcb.fa = (k.pcb slot).fa) :
    (final.pcb slot).inUse = true ∧ ∃ after,
      answers (tableStep img) alone ((ownCalls slot transitions).map Prod.fst) =
        some (after, (ownCalls slot transitions).map Prod.snd) ∧
      after.pcb.fa = (final.pcb slot).fa := by
  induction hexec with
  | nil => exact ⟨huse, alone, rfl, halone⟩
  | @concat earlier state next event answer hearlier hstep ih =>
      obtain ⟨hin, middle, hmiddle, hfa⟩ :=
        ih fun step hmem => hfiles step (List.mem_append_left _ hmem)
      have hlast := hfiles ⟨state, event, answer, next⟩ List.mem_concat_self
      obtain ⟨hnext, after, hafter, hleft⟩ :=
        systemStep_isolated hin hlast hstep hfa
      refine ⟨hnext, after, ?_, hleft⟩
      rw [ownCalls_append, List.map_append, List.map_append,
        answers_append_eq_some]
      exact ⟨middle, _, _, hmiddle, hafter, rfl⟩

/-- Two processes open the same file, and the second reads from it before the
first does. -/
def sharedFileEvents : List SystemEvent :=
  [.file (.call (.openFile [115])), .kernel (.timer 1 (sampleEsp 0) 0),
    .file (.call (.openFile [115])), .file (.call (.readFile 2 0x8048000 9)),
    .clock, .kernel (.timer 0 (sampleEsp 1) 0),
    .file (.call (.readFile 2 0x8048000 4))]

theorem sharedFile_isolated : ∃ transitions final after,
    Execution (systemStep shellImage sampleLayout) sampleKernel transitions
        final ∧
      transitions.map Transition.event = sharedFileEvents ∧
      answers (tableStep shellImage)
          ⟨sampleKernel.pcb 0, Tty.zeroed⟩
          ((ownCalls 0 transitions).map Prod.fst) =
        some (after, [⟨2, []⟩, ⟨4, [0x7F, 0x45, 0x4C, 0x46]⟩]) ∧
      after.pcb.fa = (final.pcb 0).fa := by
  have hrun : ((trace (systemStep shellImage sampleLayout) sampleKernel
      sharedFileEvents).map fun result =>
        (decide (∀ step ∈ result.1, FilesOnly 0 step),
          (ownCalls 0 result.1).map Prod.snd)) =
      some (true, [⟨2, []⟩, ⟨4, [0x7F, 0x45, 0x4C, 0x46]⟩]) := by
    decide +kernel
  obtain ⟨⟨transitions, final⟩, htrace, heq⟩ := Option.map_eq_some_iff.mp hrun
  obtain ⟨hall, hreplies⟩ := Prod.mk.inj heq
  obtain ⟨hexec, hevents⟩ := trace_execution htrace
  obtain ⟨-, after, hafter, hfa⟩ := @file_calls_isolated shellImage sampleLayout
    sampleKernel final 0 transitions (by decide +kernel) hexec
    (of_decide_eq_true hall) ⟨sampleKernel.pcb 0, Tty.zeroed⟩ (by dsimp only)
  rw [hreplies] at hafter
  exact ⟨transitions, final, after, hexec, hevents, hafter, hfa⟩

end PsychOS
