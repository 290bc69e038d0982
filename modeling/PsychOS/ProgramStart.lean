/-
The life of a user program at the level of instructions: the switch to user
mode, `_start`, `main`, and the system call that ends it.
-/
import PsychOS.LibraryCalls

namespace PsychOS

section Switch

variable {platform : Platform} {m : Machine} {last back esp eip : BitVec 32}

/-- The part that fetches the parameters and sets the data segments. -/
def loadUserSegments : List Op :=
  [ .cli, .load .ebx .esp 8, .load .ecx .esp 4, .xorReg .eax .eax,
    .movLow .eax userDs, .movSeg .ds .eax, .movSeg .es .eax, .movSeg .fs .eax,
    .movSeg .gs .eax ]

/-- The machine after it. -/
def Machine.segmentsLoaded (m : Machine) : Machine where
  regs := fun r => match r with
    | .eax => userDs.setWidth 32
    | .ebx => loadWord m.mem (m.regs .esp + 8)
    | .ecx => loadWord m.mem (m.regs .esp + 4)
    | r => m.regs r
  seg := fun s => match s with
    | .cs => m.seg .cs
    | .ss => m.seg .ss
    | _ => userDs.setWidth 32
  eip := m.eip
  eflags := logicFlags 0 (setBit m.eflags flagIF false)
  mem := m.mem

theorem loadUserSegments_eq (m : Machine) :
    loadUserSegments.foldl (fun m op => op.exec m) m = m.segmentsLoaded := by
  have hzero : ∀ word : BitVec 32, word ^^^ word = 0 :=
    fun _ => BitVec.xor_self
  simp only [loadUserSegments, List.foldl_cons, List.foldl_nil, Op.exec,
    Machine.set, Machine.setSeg, Machine.segmentsLoaded, hzero]
  congr 1
  · funext r
    cases r <;> simp [Function.update, userDs]
  · funext s
    cases s <;> simp [Function.update, userDs]

/-- The part that makes the frame for `iret`. -/
def pushUserFrame : List Op :=
  [ .pushImm (userDs.setWidth 32), .pushReg .ecx, .pushFlags, .popReg .eax,
    .orImm .eax eflagsInterrupt, .pushReg .eax, .pushImm userCs,
    .pushReg .ebx ]

/-- The flags of a new program: interrupts are on. -/
def userFlags (eflags : BitVec 32) : BitVec 32 :=
  logicFlags 0 (setBit eflags flagIF false) ||| eflagsInterrupt

theorem userFlags_direction (eflags : BitVec 32) :
    (userFlags eflags).getLsbD flagDF = eflags.getLsbD flagDF := by
  rw [userFlags, BitVec.getLsbD_or, getLsbD_logicFlags _ _ (by decide),
    getLsbD_setBit _ (by decide), if_neg (by decide)]
  exact Bool.or_false _

/-- The frame is on the stack, and nothing else is changed but `eax`, flags and
the stack below. -/
theorem pushUserFrame_eq (m : Machine) (hesp : 20 ≤ (m.regs .esp).toNat) :
    let m' := pushUserFrame.foldl (fun m op => op.exec m) m
    m'.Stack [m.regs .ebx, userCs, m.eflags ||| eflagsInterrupt, m.regs .ecx,
      userDs.setWidth 32] ∧ m'.seg = m.seg ∧
      Set.EqOn m'.mem m.mem
        (Set.Ico ((m.regs .esp).toNat - 20) (m.regs .esp).toNat)ᶜ := by
  intro m'
  let first := [userDs.setWidth 32, m.regs .ecx, m.eflags]
  let m₁ := m.pushAll first
  obtain ⟨hregs₁, hseg₁, -⟩ := Machine.pushAll_eq first m
  have hempty : m.Stack [] := trivial
  have hstack₁ : m₁.Stack [m.eflags, m.regs .ecx, userDs.setWidth 32] :=
    hempty.pushAll first (show 3 + 0 ≤ maxStackWords by decide)
  obtain ⟨htop, hbelow⟩ := hstack₁.drop
  let m₂ := (Op.orImm .eax eflagsInterrupt).exec ((Op.popReg .eax).exec m₁)
  have hword := (m.regs .esp).isLt
  have hnat₁ : (m₁.regs .esp).toNat = (m.regs .esp).toNat - 12 := by
    rw [hregs₁, Function.update_self]
    exact @toNat_sub_words (m.regs .esp) 3 (by omega)
  have hesp₂ : m₂.regs .esp = m₁.regs .esp + 4 := rfl
  have heax₂ : m₂.regs .eax = m.eflags ||| eflagsInterrupt := by
    show m₁.top ||| eflagsInterrupt = _
    rw [htop]
  have hebx₂ : m₂.regs .ebx = m.regs .ebx := by
    show m₁.regs .ebx = _
    rw [hregs₁, Function.update_of_ne (by decide)]
  have hstack₂ : m₂.Stack [m.regs .ecx, userDs.setWidth 32] := by
    rw [Machine.Stack, hesp₂]
    exact hbelow
  let second := [m₂.regs .eax, userCs, m₂.regs .ebx]
  have hfold : m' = m₂.pushAll second := rfl
  have hnat₂ : (m₂.regs .esp).toNat = (m.regs .esp).toNat - 8 := by
    have hadd := @toNat_add_words (m₁.regs .esp) 1 (by omega)
    rw [hesp₂]
    refine hadd.trans ?_
    omega
  refine ⟨?_, ?_, ?_⟩
  · rw [hfold, ← hebx₂, ← heax₂]
    exact hstack₂.pushAll second (show 3 + 2 ≤ maxStackWords by decide)
  · rw [hfold, (Machine.pushAll_eq second m₂).2.1]
    exact hseg₁
  · intro a ha
    rw [Set.mem_compl_iff, Set.mem_Ico] at ha
    rw [hfold, Machine.pushAll_mem (by
      show 4 * 3 ≤ _
      omega) ?_]
    · apply @Machine.pushAll_mem m first (by
        show 4 * 3 ≤ _
        omega)
      show a ∈ (Set.Ico (_ - 4 * 3) _)ᶜ
      rw [Set.mem_compl_iff, Set.mem_Ico]
      omega
    · show a ∈ (Set.Ico (_ - 4 * 3) _)ᶜ
      rw [Set.mem_compl_iff, Set.mem_Ico]
      omega

/-- `iret` with that frame. -/
theorem runs_iret_to_user {iret behind flags : BitVec 32}
    (hcode : platform.code iret = some (.iret, behind)) (heip : m.eip = iret)
    (hlevel : m.cpl = 0)
    (hstack : m.Stack [eip, userCs, flags, esp, userDs.setWidth 32]) :
    ∃ m', platform.Runs m m' ∧ m'.eip = eip ∧ m'.regs .esp = esp ∧
      m'.seg = Function.update (Function.update m.seg .cs userCs) .ss
        (userDs.setWidth 32) ∧ m'.eflags = flags ∧ m'.mem = m.mem := by
  -- The frame is one that an interrupt of the program would have left.
  let saved : Machine := {
    regs := fun _ => esp
    seg := fun s => if s = .cs then userCs else userDs.setWidth 32
    eip := eip
    eflags := flags
    mem := m.mem }
  have hsaved : saved.cpl = 3 := by
    show userCs.toNat % 4 = 3
    decide
  have hframe : m.Stack (saved.frame eip []) := by
    rw [Machine.frame, if_pos hsaved]
    exact hstack
  have hreturn := Machine.interruptReturn_eq hlevel hframe (.inr hsaved)
  rw [if_pos hsaved, if_pos hsaved] at hreturn
  have hstep : platform.step m = some m.interruptReturn := by
    rw [Platform.step, heip, hcode]
    rfl
  refine ⟨m.interruptReturn, Platform.runs_step hstep, ?_⟩
  rw [hreturn]
  refine ⟨rfl, ?_, rfl, rfl, rfl⟩
  show Function.update m.regs .esp esp .esp = esp
  rw [Function.update_self]

/-- A program is entered at its address with its stack, in user mode, with
user segments and interrupts on. -/
theorem runs_switchToRing3
    (hplaced : platform.Placed m.eip switchToRing3 last)
    (hlevel : m.cpl = 0) (hstack : m.Stack [back, esp, eip])
    (hroom : 20 ≤ (m.regs .esp).toNat) :
    ∃ m', platform.Runs m m' ∧ m'.eip = eip ∧ m'.regs .esp = esp ∧
      m'.seg .cs = userCs ∧ (∀ s, s ≠ .cs → m'.seg s = userDs.setWidth 32) ∧
      m'.eflags = userFlags m.eflags ∧
      Set.EqOn m'.mem m.mem
        (Set.Ico ((m.regs .esp).toNat - 20) (m.regs .esp).toNat)ᶜ := by
  obtain ⟨push, hload, hrest⟩ := Platform.Placed.append
    (loadUserSegments.map .op) hplaced
  obtain ⟨iret, hpush, behind, hiret, -⟩ := Platform.Placed.append
    (pushUserFrame.map .op) hrest
  have hruns₁ := Platform.runs_ops hload rfl
  rw [loadUserSegments_eq] at hruns₁
  let m₁ := m.segmentsLoaded.goto push
  have heip₁ : m₁.regs .ebx = eip := by
    have hget := StackAt.get hstack (show _[2]? = some eip from rfl)
    rwa [show (4 : BitVec 32) * BitVec.ofNat 32 2 = 8 from rfl] at hget
  have hesp₁ : m₁.regs .ecx = esp := by
    have hget := StackAt.get hstack (show _[1]? = some esp from rfl)
    rwa [show (4 : BitVec 32) * BitVec.ofNat 32 1 = 4 from rfl] at hget
  have hruns₂ := @Platform.runs_ops platform m₁ pushUserFrame push iret hpush
    rfl
  obtain ⟨hframe, hseg₂, hmem⟩ := pushUserFrame_eq m₁ hroom
  rw [heip₁, hesp₁] at hframe
  generalize pushUserFrame.foldl (fun m op => op.exec m) m₁ = m₂ at *
  have hlevel₂ : (m₂.goto iret).cpl = 0 := by
    show (m₂.seg .cs).toNat % 4 = 0
    rw [hseg₂]
    exact hlevel
  obtain ⟨m', hruns₃, heip, hesp, hseg, hflags, hmem'⟩ :=
    @runs_iret_to_user platform (m₂.goto iret) _ _ iret behind _ hiret rfl
      hlevel₂ hframe
  refine ⟨m', hruns₁.trans (hruns₂.trans hruns₃), heip, hesp, ?_, ?_, hflags,
    ?_⟩
  · rw [hseg]
    rfl
  · intro s hs
    have hloaded : (m₂.goto iret).seg = m₁.seg := hseg₂
    rw [hseg, hloaded]
    cases s with
    | cs => exact absurd rfl hs
    | ss => rfl
    | ds => rfl
    | es => rfl
    | fs => rfl
    | gs => rfl
  · rw [hmem']
    exact hmem

end Switch

section Start

variable {platform : Platform} {addrs : HandlerAddresses}
  {low room ulow uhigh : Nat} {table start main halt f : BitVec 32}
  {handlers : List (BitVec 32)} {m : Machine} {spec : CallSpec}

/-- The part of `_start` behind the call of `main`. -/
theorem runs_halt_call {push callHalt interrupt pop behind : BitVec 32}
    (hkernel : SyscallKernel platform addrs low table)
    (hpush : platform.Placed push
      ([.pushImm 0, .pushImm 0, .pushReg .eax].map .op) callHalt)
    (hcall : platform.code callHalt = some (.call halt, behind))
    (hpass : platform.Placed halt ((passArguments 1).map .op) interrupt)
    (hint : platform.code interrupt = some (.int syscallInt, pop))
    (hhandlers : handlers.length = 10) (hget : handlers[0]? = some f)
    (hlow : low + 48 ≤ platform.esp0.toNat)
    (htable : Disjoint (Set.Ico table.toNat (table.toNat + 44))
      (Set.Ico ulow uhigh))
    (heip : m.eip = push) (hlevel : m.cpl = 3)
    (hulow : ulow + 20 ≤ (m.regs .esp).toNat)
    (huhigh : (m.regs .esp).toNat ≤ uhigh)
    (hholds : HoldsJumpTable table handlers m.mem) :
    ∃ m' back, platform.Runs m m' ∧ m'.eip = f ∧ m'.cpl = 0 ∧
      m'.Stack [back, m.regs .eax, 0, 0] := by
  let words := [0, 0, m.regs .eax, behind]
  have hlength : words.length = 4 := rfl
  let m₁ := (m.pushAll [0, 0, m.regs .eax]).goto callHalt
  have hruns₁ : platform.Runs m m₁ := Platform.runs_ops hpush heip
  let m₂ := (m.pushAll words).goto halt
  have hruns₂ : platform.Runs m₁ m₂ := by
    apply Platform.runs_step
    have hcode : platform.code m₁.eip = some (.call halt, behind) := hcall
    rw [Platform.step, hcode]
    rfl
  have hstack₂ : m₂.Stack [behind, m.regs .eax, 0, 0] := by
    have hempty : m.Stack [] := trivial
    exact hempty.pushAll words (by rw [hlength]; decide)
  have hnat₂ : (m₂.regs .esp).toNat = (m.regs .esp).toNat - 16 := by
    show ((m.pushAll words).regs .esp).toNat = _
    rw [(Machine.pushAll_eq words m).1, Function.update_self]
    exact @toNat_sub_words (m.regs .esp) 4 (by omega)
  have hmem₂ : Set.EqOn m₂.mem m.mem
      (Set.Ico ((m.regs .esp).toNat - 16) (m.regs .esp).toNat)ᶜ :=
    @Machine.pushAll_mem m words (by rw [hlength]; omega)
  let m₃ := m₂.passing 1 interrupt
  have hruns₃ : platform.Runs m₂ m₃ := Platform.runs_ops hpass rfl
  have hmem₃ := @passing_mem m₂ 1 interrupt (by omega)
  have heax : m₃.regs .eax = 1 := passing_regs 1 interrupt .eax
  have hlevel₃ : m₃.cpl = 3 := by
    rw [Machine.cpl, (passing_rest 1 interrupt).1]
    rw [Machine.cpl] at hlevel
    rw [← hlevel]
    exact congrArg (fun seg => (seg Seg.cs).toNat % 4)
      (Machine.pushAll_eq words m).2.1
  have hholds₂ : HoldsJumpTable table handlers m₂.mem :=
    hholds.of_pushed hkernel hhandlers htable (by omega) huhigh hmem₂
  have hholds₃ : HoldsJumpTable table handlers m₃.mem :=
    hholds₂.of_pushed hkernel hhandlers htable (by omega) (by omega) hmem₃
  obtain ⟨m', back, hruns₄, heip', hcpl', hstack'⟩ := syscall_reaches hkernel
    hint hlevel₃ hlow hholds₃ (by rw [heax]; decide) (by rw [heax]; decide)
    (by rw [heax]; exact hget)
  refine ⟨m', back, hruns₁.trans (hruns₂.trans (hruns₃.trans hruns₄)), heip',
    hcpl', ?_⟩
  rwa [passing_args 1 interrupt hstack₂] at hstack'

section Main

variable {push : BitVec 32} {args : List (BitVec 32)}
  {holds : Memory UInt8 → Prop}

/-- The call of `main` pushes one word. -/
theorem mainCall_esp (push main : BitVec 32) :
    ((m.push push).goto main).regs .esp = m.regs .esp - 4 := by
  simp only [Machine.push, Machine.goto, Function.update_self]

theorem mainCall_mem (push main : BitVec 32)
    (hroom : 4 ≤ (m.regs .esp).toNat) :
    Set.EqOn ((m.push push).goto main).mem m.mem
      (Set.Ico ((m.regs .esp).toNat - 4) (m.regs .esp).toNat)ᶜ :=
  @Machine.pushAll_mem m [push] (by rw [List.length_singleton]; omega)

/-- What a call may use is on the stacks. -/
theorem user_scratch_subset {esp : BitVec 32} (hhigh : esp.toNat + 4 ≤ uhigh) :
    (Convention.user platform low ulow uhigh holds).scratch esp ⊆
      Set.Ico ulow uhigh ∪ Set.Ico low platform.esp0.toNat :=
  Set.union_subset_union_left _ (Set.Ico_subset_Ico_right hhigh)

/-- `main` starts as the convention says. -/
theorem main_called (hparams : spec.params = 0) (hlevel : m.cpl = 3)
    (hdirection : m.flag flagDF = false)
    (hulow : ulow + room + 4 ≤ (m.regs .esp).toNat)
    (huhigh : (m.regs .esp).toNat ≤ uhigh)
    (hholds : holds ((m.push push).goto main).mem)
    (hwrites : Disjoint (spec.writes [])
      (Set.Ico ulow uhigh ∪ Set.Ico low platform.esp0.toNat)) :
    Called (.user platform low ulow uhigh holds) room spec
      ((m.push push).goto main) push [] := by
  have hnat : (((m.push push).goto main).regs .esp).toNat =
      (m.regs .esp).toNat - 4 := by
    rw [mainCall_esp]
    exact toNat_sub_four (by omega)
  refine ⟨hlevel, hdirection, hparams.symm, ?_, ?_, ?_, ?_, hholds⟩
  · have hempty : m.Stack [] := trivial
    exact hempty.push (by decide) push
  · show ulow + room ≤ _
    omega
  · show _ ≤ uhigh
    rw [hparams]
    omega
  · exact hwrites.mono_right (user_scratch_subset (by omega))

/-- The jump table is neither on the stacks nor among what a function writes. -/
theorem Returned.holdsJumpTable {m' : Machine} {back : BitVec 32}
    (hkernel : SyscallKernel platform addrs low table)
    (hhandlers : handlers.length = 10)
    (htable : Disjoint (Set.Ico table.toNat (table.toNat + 44))
      (Set.Ico ulow uhigh))
    (hwrites : Disjoint (spec.writes args)
      (Set.Ico table.toNat (table.toNat + 44)))
    (hhigh : (m.regs .esp).toNat + 4 ≤ uhigh)
    (hholds : HoldsJumpTable table handlers m.mem)
    (hret : Returned (.user platform low ulow uhigh holds) spec m back args
      m') :
    HoldsJumpTable table handlers m'.mem := by
  have hclear := hkernel.table
  apply hholds.congr hkernel hhandlers
  intro a ha
  apply hret.unchanged
  rintro (hused | hwrite)
  · rcases user_scratch_subset hhigh hused with hstack | hhidden
    · exact htable.notMem_of_mem_left ha hstack
    · rw [Set.mem_Ico] at ha hhidden
      omega
  · exact hwrites.notMem_of_mem_left hwrite ha

end Main

/-- What `main` returns is what `syscall_halt` gets. -/
theorem main_result_reaches_halt {last behind : BitVec 32}
    (hkernel : SyscallKernel platform addrs low table)
    (hstart : platform.Placed start (programStart main halt) last)
    (hhalt : platform.Placed halt (doCall 1) behind)
    (hhandlers : handlers.length = 10) (hget : handlers[0]? = some f)
    (hlow : low + 48 ≤ platform.esp0.toNat)
    (htable : Disjoint (Set.Ico table.toNat (table.toNat + 44))
      (Set.Ico ulow uhigh))
    (hmain : platform.Implements
      (.user platform low ulow uhigh (HoldsJumpTable table handlers)) room main
      spec)
    (hparams : spec.params = 0)
    (heip : m.eip = start) (hlevel : m.cpl = 3)
    (hdirection : m.flag flagDF = false)
    (hulow : ulow + room + 20 ≤ (m.regs .esp).toNat)
    (huhigh : (m.regs .esp).toNat ≤ uhigh)
    (hholds : HoldsJumpTable table handlers m.mem)
    (hwrites : Disjoint (spec.writes [])
      (Set.Ico table.toNat (table.toNat + 44) ∪ Set.Ico ulow uhigh ∪
        Set.Ico low platform.esp0.toNat)) :
    ∃ m' value back entered after, platform.Runs m m' ∧ m'.eip = f ∧
      m'.cpl = 0 ∧ m'.Stack [back, value, 0, 0] ∧
      Set.EqOn entered m.mem
        (Set.Ico ulow uhigh ∪ Set.Ico low platform.esp0.toNat)ᶜ ∧
      spec.result [] entered value after := by
  obtain ⟨push, hcall, hrest⟩ := hstart
  obtain ⟨last', hpush, callHalt, hcallHalt, -⟩ := Platform.Placed.append
    ([.pushImm 0, .pushImm 0, .pushReg .eax].map .op) hrest
  obtain ⟨interrupt, hpass, hrest⟩ := Platform.Placed.append
    ((passArguments 1).map .op) hhalt
  obtain ⟨pop, hint, -⟩ := hrest
  -- The call of `main`.
  let m₁ := (m.push push).goto main
  have hruns₁ : platform.Runs m m₁ := by
    apply Platform.runs_step
    rw [Platform.step, heip, hcall]
    rfl
  have hesp₁ : m₁.regs .esp = m.regs .esp - 4 := mainCall_esp push main
  have hnat₁ : (m₁.regs .esp).toNat = (m.regs .esp).toNat - 4 := by
    rw [hesp₁]
    exact toNat_sub_four (by omega)
  have hmem₁ := @mainCall_mem m push main (by omega)
  have hholds₁ : HoldsJumpTable table handlers m₁.mem :=
    hholds.of_pushed hkernel hhandlers htable (by omega) huhigh hmem₁
  rw [Set.union_assoc] at hwrites
  obtain ⟨m₂, hruns₂, hret⟩ := hmain m₁ push [] rfl
    (main_called hparams hlevel hdirection (by omega) huhigh hholds₁
      (hwrites.mono_right Set.subset_union_right))
  -- Its return, and the call of the function that halts.
  have hesp₂ : m₂.regs .esp = m.regs .esp := by
    rw [hret.esp, hesp₁, BitVec.sub_add_cancel]
  have hholds₂ : HoldsJumpTable table handlers m₂.mem :=
    hret.holdsJumpTable hkernel hhandlers htable
      (hwrites.mono_right Set.subset_union_left) (by omega) hholds₁
  obtain ⟨m₃, back, hruns₃, heip₃, hcpl₃, hstack₃⟩ := runs_halt_call hkernel
    hpush hcallHalt hpass hint hhandlers hget hlow htable hret.eip
    (by rw [Machine.cpl, hret.seg]; exact hlevel)
    (by rw [hesp₂]; omega) (by rw [hesp₂]; exact huhigh) hholds₂
  obtain ⟨entered, hsame, hresult⟩ := hret.result
  refine ⟨m₃, m₂.regs .eax, back, entered, m₂.mem,
    hruns₁.trans (hruns₂.trans hruns₃), heip₃, hcpl₃, hstack₃, ?_, hresult⟩
  intro a ha
  rw [hsame (fun hused => ha (user_scratch_subset (by omega) hused)),
    hmem₁ ?_]
  intro hstack
  apply ha
  left
  rw [Set.mem_Ico] at hstack ⊢
  omega

/-- The whole life of a program whose `main` returns: the kernel switches to it,
`main` runs in user mode on its own stack, and `syscall_halt` is called with
what it returns. -/
theorem program_runs_to_halt {last₁ last₂ last₃ back esp : BitVec 32}
    (hkernel : SyscallKernel platform addrs low table)
    (hswitch : platform.Placed m.eip switchToRing3 last₁)
    (hstart : platform.Placed start (programStart main halt) last₂)
    (hhalt : platform.Placed halt (doCall 1) last₃)
    (hhandlers : handlers.length = 10) (hget : handlers[0]? = some f)
    (hmain : platform.Implements
      (.user platform low ulow uhigh (HoldsJumpTable table handlers)) room main
      spec)
    (hparams : spec.params = 0)
    (hlevel : m.cpl = 0) (hdirection : m.flag flagDF = false)
    (hstack : m.Stack [back, esp, start])
    (hlow : low + 48 ≤ platform.esp0.toNat)
    (hkesp : low + 20 ≤ (m.regs .esp).toNat)
    (hkhigh : (m.regs .esp).toNat ≤ platform.esp0.toNat)
    (hulow : ulow + room + 20 ≤ esp.toNat) (huhigh : esp.toNat ≤ uhigh)
    (htable : Disjoint (Set.Ico table.toNat (table.toNat + 44))
      (Set.Ico ulow uhigh))
    (hholds : HoldsJumpTable table handlers m.mem)
    (hwrites : Disjoint (spec.writes [])
      (Set.Ico table.toNat (table.toNat + 44) ∪ Set.Ico ulow uhigh ∪
        Set.Ico low platform.esp0.toNat)) :
    ∃ m' value ret entered after, platform.Runs m m' ∧ m'.eip = f ∧
      m'.cpl = 0 ∧ m'.Stack [ret, value, 0, 0] ∧
      Set.EqOn entered m.mem
        (Set.Ico ulow uhigh ∪ Set.Ico low platform.esp0.toNat)ᶜ ∧
      spec.result [] entered value after := by
  obtain ⟨m₁, hruns₁, heip₁, hesp₁, hcs₁, -, hflags₁, hmem₁⟩ :=
    runs_switchToRing3 hswitch hlevel hstack (by omega)
  have hclear := hkernel.table
  have hkernelStack : ∀ a, a ∉ Set.Ico low platform.esp0.toNat →
      m₁.mem a = m.mem a := by
    intro a ha
    apply hmem₁
    intro hused
    apply ha
    rw [Set.mem_Ico] at hused ⊢
    omega
  have hholds₁ : HoldsJumpTable table handlers m₁.mem := by
    apply hholds.congr hkernel hhandlers
    intro a ha
    apply hkernelStack
    rw [Set.mem_Ico] at ha ⊢
    omega
  have hlevel₁ : m₁.cpl = 3 := by
    rw [Machine.cpl, hcs₁]
    decide
  have hdirection₁ : m₁.flag flagDF = false := by
    rw [Machine.flag, hflags₁, userFlags_direction]
    exact hdirection
  obtain ⟨m₂, value, ret, entered, after, hruns₂, heip₂, hcpl₂, hstack₂,
    hentered, hresult⟩ := main_result_reaches_halt hkernel hstart hhalt
      hhandlers hget hlow htable hmain hparams heip₁ hlevel₁ hdirection₁
      (by rw [hesp₁]; exact hulow) (by rw [hesp₁]; exact huhigh) hholds₁
      hwrites
  refine ⟨m₂, value, ret, entered, after, hruns₁.trans hruns₂, heip₂, hcpl₂,
    hstack₂, ?_, hresult⟩
  intro a ha
  rw [hentered ha]
  exact hkernelStack a fun hused => ha (.inr hused)

/-- The kernel about to start a program, with the parameters of
`switch_to_ring_3` on its stack. -/
def sampleStart : Machine where
  regs := fun r => if r = .esp then 0x7FFF00 else 0
  seg := fun s => if s = .cs then 0x10 else 0x18
  eip := 45
  eflags := 0x2
  mem := storeWord (storeWord sampleMemory 0x7FFF04 0x8048000) 0x7FFF08 40

theorem program_runs_to_halt_sample :
    ∃ m' value ret entered after, samplePlatform.Runs sampleStart m' ∧
      m'.eip = 30 ∧ m'.cpl = 0 ∧ m'.Stack [ret, value, 0, 0] ∧
      Set.EqOn entered sampleStart.mem (Set.Ico 0x8000000 0x8048000 ∪
        Set.Ico sampleLow samplePlatform.esp0.toNat)ᶜ ∧
      (CallSpec.constant 0 7).result [] entered value after := by
  let front := doCall 3 ++ syscallHandlerWrapper 0x1000 28 ++ invalidSyscall ++
    [.op (.movImm .eax 7), .ret]
  have hhalt := @Platform.placed_laidOut samplePlatform sampleCode front
    (doCall 1) (programStart 30 32 ++ switchToRing3) rfl
    (by simp only [front, sampleCode, sampleProgram, List.append_assoc])
    (by decide)
  have hstart := @Platform.placed_laidOut samplePlatform sampleCode
    (front ++ doCall 1) (programStart 30 32) switchToRing3 rfl
    (by simp only [front, sampleCode, sampleProgram, List.append_assoc])
    (by decide)
  have hswitch := @Platform.placed_laidOut samplePlatform sampleCode
    (front ++ doCall 1 ++ programStart 30 32) switchToRing3 [] rfl
    (by simp only [front, sampleCode, sampleProgram, List.append_assoc,
      List.append_nil]) (by decide)
  have hstack : sampleStart.Stack [0, 0x8048000, 40] := by
    refine ⟨?_, ?_, ?_, trivial⟩ <;> decide
  have hholds : HoldsJumpTable 0x1000 sampleHandlers sampleStart.mem := by
    refine ⟨?_, ?_, ?_, ?_, ?_, ?_, ?_, ?_, ?_, ?_, ?_, trivial⟩ <;> decide
  refine program_runs_to_halt samplePlatform_kernel hswitch hstart hhalt
    (show sampleHandlers.length = 10 from rfl) rfl
    (sampleHandlers_implement _ 0 0) rfl rfl rfl hstack (by decide) (by decide)
    (by decide) (by decide) (by decide) ?_ hholds (Set.empty_disjoint _)
  rw [Set.Ico_disjoint_Ico]
  decide

end Start

end PsychOS
