/-
Programs as processes of the whole system.  The others do not reach what a
process has of its own, so what a program prints by itself it prints among all
the others.
-/
import PsychOS.ProcessIsolation
import PsychOS.SlotReuse
import PsychOS.UserPrograms

namespace PsychOS

/-- The process in the slot lets interrupts happen, the others run as they
like, and then it is its turn again. -/
def OthersRun (img : Image) (layout : Layout) (slot : Nat)
    (k met : Kernel) : Prop :=
  k.current = slot → met.current = slot ∧ ∃ transitions,
    Execution (systemStep img layout) k transitions met ∧
      ∀ step ∈ transitions, step.before.current = slot → step.event.Interrupts

/-- A call of the program that runs. -/
def kernelCall (img : Image) : OutFn Kernel ProgramCall Reply
  | k, request =>
      (programStep img k.session request).map fun (sess, reply) =>
        (k.withSession sess, reply)

section Lifting

variable {α : Type} {img : Image} {layout : Layout} {k : Kernel} {slot : Nat}
  {prog : Program α} {value : α} {text : List UInt8}

/-- A process that lets the others run finds what it had. -/
theorem OthersRun.kept {met : Kernel} (hothers : OthersRun img layout slot k met)
    (hcurrent : k.current = slot) (huse : (k.pcb slot).inUse = true) :
    (k.pcb slot).Kept (met.pcb slot) := by
  obtain ⟨-, transitions, hexec, hown⟩ := hothers hcurrent
  clear hothers hcurrent
  induction hexec with
  | nil => exact .refl _
  | concat hearlier hstep ih =>
      have hkept := ih fun step hmem => hown step (List.mem_append_left _ hmem)
      have hlast := hown _ List.mem_concat_self
      exact hkept.trans (systemStep_kept hstep (hkept.inUse_eq.trans huse) hlast)

theorem withSession_pcb (k : Kernel) (sess : Session) :
    (k.withSession sess).pcb k.current = sess.pcb :=
  Function.update_self ..

/-- A call leaves the process in use. -/
theorem programStep_inUse {sess next : Session} {request : ProgramCall}
    {reply : Reply}
    (hstep : programStep img sess request = some (next, reply)) :
    next.pcb.inUse = sess.pcb.inUse := by
  cases request with
  | file event => exact (tableStep_sameProcess hstep).inUse_eq
  | getargs buf nbytes =>
      obtain ⟨hcall, -⟩ := Option.filter_eq_some_iff.mp hstep
      obtain ⟨result, -, heq⟩ := Option.map_eq_some_iff.mp hcall
      obtain ⟨rfl, -⟩ := Prod.mk.inj heq
      rfl

/-- What a program prints on its own it prints among the others. -/
theorem Prints.among_others
    (hprints : Prints img prog value text ⟨k.pcb slot, k.tty⟩)
    (hcurrent : k.current = slot) (huse : (k.pcb slot).inUse = true)
    {others : Nat → Kernel → Kernel}
    (hothers : ∀ n k, OthersRun img layout slot k (others n k)) :
    ∃ final log, prog.run (kernelCall img) others 0 k =
      some (value, final, log) ∧ printed log = text := by
  have hends := @Prog.Ends.of_view _ _ _ _ (programStep img) Session.Kept prog
    _ _ (kernelCall img) (OthersRun img layout slot)
    (fun k => ⟨k.pcb slot, k.tty⟩)
    (fun k => k.current = slot ∧ (k.pcb slot).inUse = true) k hprints
    ?_ ?_ ⟨hcurrent, huse⟩
  · obtain ⟨result, final, log, hrun, rfl, hlog⟩ := hends.run_eq hothers 0
    exact ⟨final, log, hrun, hlog⟩
  · rintro whole request next reply ⟨rfl, hin⟩ hcall
    have hpcb := withSession_pcb whole next
    have hview : (⟨(whole.withSession next).pcb whole.current,
        (whole.withSession next).tty⟩ : Session) = next := by
      rw [hpcb]
      rfl
    have hlarger : kernelCall img whole request =
        some (whole.withSession next, reply) := by
      rw [kernelCall]
      exact congrArg (Option.map _) hcall
    refine ⟨whole.withSession next, hlarger, hview, rfl, ?_⟩
    rw [hpcb, programStep_inUse hcall]
    exact hin
  · rintro whole met ⟨hcur, hin⟩ hran
    have hkept := hran.kept hcur hin
    exact ⟨⟨hkept.fa_eq, hkept.text_eq⟩, (hran hcur).1,
      hkept.inUse_eq.trans hin⟩

end Lifting

section Started

variable {img : Image} {layout : Layout} {start k next : Kernel}
  {transitions : List SystemTransition} {command : List UInt8}
  {esp ebp child entrypoint : Nat} {junk : Junk}

/-- What a program finds that a running system has just started. -/
structure JustStarted (args : List UInt8) (k : Kernel) (slot : Nat) :
    Prop where
  current : k.current = slot
  inUse : (k.pcb slot).inUse = true
  table : FreshTable (k.pcb slot).fa
  args_held : HoldsString (k.pcb slot).text maxProgramNameLength args
  args_nul : 0 ∉ args
  args_length : args.length < maxArgsLength

theorem justStarted (hboot : ZeroBooted img layout start)
    (hexec : Execution (systemStep img layout) start transitions k)
    (hfits : ∀ step ∈ transitions, step.event.Fits)
    (hlength : command.length ≤ 127) (hnul : 0 ∉ command)
    (hstart : systemStep img layout k
      (.kernel (.execute command esp ebp junk)) =
        some (next, .kernel (.entered child entrypoint))) :
    JustStarted (commandArgs command) next child := by
  have hroom : (SystemEvent.kernel
      (.execute command esp ebp junk)).Fits := commandEnd_le_of_length hlength
  obtain ⟨⟨threads, hrep⟩, -, hentered⟩ := run_clean
    ⟨_, hboot.booted.represents⟩ hboot.clean (hexec.concat hstart) (by
      intro step hmem
      rcases List.mem_append.mp hmem with hold | hnew
      · exact hfits step hold
      · obtain rfl := List.mem_singleton.mp hnew
        exact hroom)
  obtain ⟨hcurrent, hunused⟩ :=
    hentered _ List.mem_concat_self child entrypoint rfl
  have hcall : syscallExecute img layout k command esp ebp junk =
      (next, .entered child entrypoint) := by
    obtain ⟨result, hentry, heq⟩ := Option.map_eq_some_iff.mp hstart
    obtain ⟨rfl, houtcome⟩ := Prod.mk.inj heq
    rw [kernelEntry] at hentry
    split at hentry
    · rw [Option.some.inj hentry, ← SystemAnswer.kernel.inj houtcome]
    · cases hentry
  have hargs := (parseCommand_fields hlength hnul
    { k.pcb child with slotNum := child }).2
  have hle : (commandArgs command).length ≤ command.length := by
    rw [← drop_lenName hnul]
    exact (List.drop_sublist _ _).length_le
  refine ⟨hcurrent, ?_, hunused.table, ?_, zero_not_mem_commandArgs hnul, ?_⟩
  · rw [← hcurrent]
    exact hrep.current_process.2.1
  · rw [started_text hcall]
    exact hargs
  · simp only [maxArgsLength]
    omega

end Started

/-- A process that runs `cat` ends with the code and the text that its
argument calls for, whatever the other processes, the keys and the clock do
between its calls. -/
theorem cat_prints {img : Image} {layout : Layout} {start k next : Kernel}
    {transitions : List SystemTransition} (hwf : img.WellFormed)
    (hboot : ZeroBooted img layout start)
    (hexec : Execution (systemStep img layout) start transitions k)
    (hfits : ∀ step ∈ transitions, step.event.Fits) {command : List UInt8}
    (hlength : command.length ≤ 127) (hnul : 0 ∉ command)
    {esp ebp child entrypoint : Nat} {junk : Junk}
    (hstart : systemStep img layout k
      (.kernel (.execute command esp ebp junk)) =
        some (next, .kernel (.entered child entrypoint)))
    {others : Nat → Kernel → Kernel}
    (hothers : ∀ n k, OthersRun img layout child k (others n k))
    {addrs : ProgramAddresses} (hbuf : FitsPage addrs.buf 1024)
    (hliterals : FitsPage addrs.literals 32) {code : Int} {text : List UInt8}
    (hshows : img.catShows (commandArgs command) = some (code, text))
    {turns : Nat} (hturns : text.length < turns) (mem : Memory UInt8) :
    ∃ final log,
      (catMain addrs turns mem).run (kernelCall img) others 0 next =
        some (some code, final, log) ∧ printed log = text := by
  have hstarted := justStarted hboot hexec hfits hlength hnul hstart
  have hprints := @catMain_prints img addrs ⟨next.pcb child, next.tty⟩ hwf hbuf
    hliterals hstarted.table _ hstarted.args_held hstarted.args_nul
    hstarted.args_length _ _ hshows _ hturns mem
  exact hprints.among_others hstarted.current hstarted.inUse hothers

/-- A process that runs `ls` prints the names of all entries in their order,
each padded to 32 bytes and on a line of its own. -/
theorem ls_prints {img : Image} {layout : Layout} {start k next : Kernel}
    {transitions : List SystemTransition} (hwf : img.WellFormed)
    (hboot : ZeroBooted img layout start)
    (hexec : Execution (systemStep img layout) start transitions k)
    (hfits : ∀ step ∈ transitions, step.event.Fits) {command : List UInt8}
    (hlength : command.length ≤ 127) (hnul : 0 ∉ command)
    {esp ebp child entrypoint : Nat} {junk : Junk}
    (hstart : systemStep img layout k
      (.kernel (.execute command esp ebp junk)) =
        some (next, .kernel (.entered child entrypoint)))
    {others : Nat → Kernel → Kernel}
    (hothers : ∀ n k, OthersRun img layout child k (others n k))
    {addrs : ProgramAddresses} (hbuf : FitsPage addrs.buf 33)
    {entry : Dentry} (hentry : img.entryNamed (literal ".") = some entry)
    (htype : entry.fileType = 1) {turns : Nat}
    (hturns : img.numDirectoryEntries < turns) (mem : Memory UInt8) :
    ∃ final log,
      (lsMain addrs turns mem).run (kernelCall img) others 0 next =
        some (some 0, final, log) ∧
      printed log = (img.listing 0).flatMap (· ++ [newline]) := by
  have hstarted := justStarted hboot hexec hfits hlength hnul hstart
  have hprints := @lsMain_prints img addrs ⟨next.pcb child, next.tty⟩ hwf hbuf
    hstarted.table entry hentry htype turns hturns mem
  exact hprints.among_others hstarted.current hstarted.inUse hothers

/-- An image with the directory, a program and a text. -/
def listedImage : Image where
  numDirectoryEntries := 3
  numInodes := 3
  numDataBlocks := 3
  directoryEntries := fun i =>
    ⟨cString (literal (["." , "s", "notes"].getD i "")),
      [1, 2, 2].getD i 0, i, fun _ => 0⟩
  fileLength := fun inode => [0, 28, 5].getD inode 0
  dataBlocks := fun inode _ => inode
  data := fun block => cString (([[], elfMagicHeader ++
    List.replicate 22 0 ++ [4, 8], literal "hello"] : List (List UInt8)).getD
      block [])

theorem listedImage_wellFormed : listedImage.WellFormed where
  numDirectoryEntries_le := by decide
  inode_lt := by decide
  fileLength_le := by decide
  block_lt := by
    intro inode hinode i _
    exact hinode

/-- The kernel as it enters the first of three copies of the program. -/
def listedKernel : Kernel :=
  (kernelRunFirstProgram listedImage sampleLayout [115] (fun _ => Junk.zero)
    Kernel.zeroed).getD Kernel.zeroed

theorem listedKernel_zeroBooted :
    ZeroBooted listedImage sampleLayout listedKernel := by
  refine ⟨[115], fun _ => Junk.zero, Kernel.zeroed, by decide, fun _ _ => rfl,
    ?_⟩
  have hsome : (kernelRunFirstProgram listedImage sampleLayout [115]
      (fun _ => Junk.zero) Kernel.zeroed).isSome := by decide +kernel
  obtain ⟨k, hk⟩ := Option.isSome_iff_exists.mp hsome
  rw [listedKernel, hk]
  rfl

/-- The clock ticks before every call. -/
theorem tickAll_othersRun (img : Image) (layout : Layout) (slot : Nat)
    (k : Kernel) : OthersRun img layout slot k (tickAll k) := by
  intro hcurrent
  refine ⟨by rwa [tickAll_eq], [⟨k, .clock, .ticked, tickAll k⟩], ?_, ?_⟩
  · exact .concat .nil rfl
  · intro step hmem _
    obtain rfl := List.mem_singleton.mp hmem
    trivial

/-- A program started from the sample with a command. -/
theorem listedKernel_starts {command : List UInt8}
    (houtcome : ((systemStep listedImage sampleLayout listedKernel (.kernel
      (.execute command (sampleEsp 0) 0 Junk.zero))).map Prod.snd) =
        some (.kernel (.entered 3 0x8040000))) :
    ∃ next, systemStep listedImage sampleLayout listedKernel (.kernel
      (.execute command (sampleEsp 0) 0 Junk.zero)) =
        some (next, .kernel (.entered 3 0x8040000)) := by
  obtain ⟨⟨next, answer⟩, hstep, rfl⟩ := Option.map_eq_some_iff.mp houtcome
  exact ⟨next, hstep⟩

theorem cat_prints_sample : ∃ next final log,
    systemStep listedImage sampleLayout listedKernel (.kernel (.execute
      (literal "s notes") (sampleEsp 0) 0 Junk.zero)) =
        some (next, .kernel (.entered 3 0x8040000)) ∧
    (catMain ⟨0x8048000, 0x8049000⟩ 6 fun _ => 0).run (kernelCall listedImage)
      (fun _ => tickAll) 0 next = some (some 0, final, log) ∧
    printed log = literal "hello" := by
  obtain ⟨next, hstart⟩ := @listedKernel_starts (literal "s notes")
    (by decide +kernel)
  obtain ⟨final, log, hrun⟩ := @cat_prints listedImage sampleLayout
    listedKernel listedKernel next [] listedImage_wellFormed
    listedKernel_zeroBooted .nil nofun (literal "s notes") (by decide)
    (by decide) _ _ _ _ _ hstart (fun _ => tickAll)
    (fun _ => tickAll_othersRun _ _ _) ⟨0x8048000, 0x8049000⟩ (by decide)
    (by decide) 0 (literal "hello") (by decide +kernel) 6 (by decide)
    (fun _ => 0)
  exact ⟨next, final, log, hstart, hrun⟩

theorem ls_prints_sample : ∃ next final log,
    systemStep listedImage sampleLayout listedKernel (.kernel (.execute
      (literal "s") (sampleEsp 0) 0 Junk.zero)) =
        some (next, .kernel (.entered 3 0x8040000)) ∧
    (lsMain ⟨0x8048000, 0x8049000⟩ 4 fun _ => 0).run (kernelCall listedImage)
      (fun _ => tickAll) 0 next = some (some 0, final, log) ∧
    printed log = literal "." ++ List.replicate 31 0 ++ [newline] ++
      literal "s" ++ List.replicate 31 0 ++ [newline] ++
      literal "notes" ++ List.replicate 27 0 ++ [newline] := by
  obtain ⟨next, hstart⟩ := @listedKernel_starts (literal "s")
    (by decide +kernel)
  obtain ⟨final, log, hrun, hlog⟩ := @ls_prints listedImage sampleLayout
    listedKernel listedKernel next [] listedImage_wellFormed
    listedKernel_zeroBooted .nil nofun (literal "s") (by decide)
    (by decide) _ _ _ _ _ hstart (fun _ => tickAll)
    (fun _ => tickAll_othersRun _ _ _) ⟨0x8048000, 0x8049000⟩ (by decide)
    _ rfl rfl 4 (by decide) (fun _ => 0)
  exact ⟨next, final, log, hstart, hrun, hlog.trans (by decide +kernel)⟩

end PsychOS
