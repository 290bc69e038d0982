/-
The user library's side of system calls: what a C program gets from each of
the library's functions.
-/
import PsychOS.SyscallEntry

namespace PsychOS

section Library

variable {platform : Platform} {addrs : HandlerAddresses} {low room : Nat}
  {table entry : BitVec 32} {handlers : List (BitVec 32)} {m : Machine}

/-- What a library function does before the interrupt. -/
def passArguments (number : BitVec 32) : List Op :=
  [ .pushReg .ebx, .movImm .eax number, .load .ebx .esp 8,
    .load .ecx .esp 12, .load .edx .esp 16 ]

/-- The machine at the interrupt. -/
def Machine.passing (m : Machine) (number eip : BitVec 32) : Machine :=
  ((passArguments number).foldl (fun m op => op.exec m) m).goto eip

/-- The registers there. -/
theorem passing_regs (number eip : BitVec 32) (r : Reg) :
    (m.passing number eip).regs r =
      match r with
      | .eax => number
      | .ebx => loadWord (m.push (m.regs .ebx)).mem (m.regs .esp - 4 + 8)
      | .ecx => loadWord (m.push (m.regs .ebx)).mem (m.regs .esp - 4 + 12)
      | .edx => loadWord (m.push (m.regs .ebx)).mem (m.regs .esp - 4 + 16)
      | .esp => m.regs .esp - 4
      | r => m.regs r := by
  simp only [Machine.passing, passArguments, List.foldl_cons, List.foldl_nil,
    Op.exec, Machine.set, Machine.push, Machine.goto]
  cases r <;> simp [Function.update]

/-- Everything else is as it was. -/
theorem passing_rest (number eip : BitVec 32) :
    (m.passing number eip).seg = m.seg ∧
      (m.passing number eip).mem =
        storeWord m.mem (m.regs .esp - 4) (m.regs .ebx) := by
  simp only [Machine.passing, passArguments, List.foldl_cons, List.foldl_nil,
    Op.exec, Machine.set, Machine.push, Machine.goto, and_self]

/-- The arguments go from the stack to the registers. -/
theorem passing_args {back a₁ a₂ a₃ : BitVec 32} (number eip : BitVec 32)
    (hstack : m.Stack [back, a₁, a₂, a₃]) :
    syscallArgs (m.passing number eip) = [a₁, a₂, a₃] := by
  have hpushed := hstack.push (show 4 ≤ maxStackWords by decide)
    (m.regs .ebx)
  have hesp : (m.push (m.regs .ebx)).regs .esp = m.regs .esp - 4 := by
    simp only [Machine.push, Function.update_self]
  rw [Machine.Stack, hesp] at hpushed
  have hfirst := StackAt.get hpushed (show _[2]? = some a₁ from rfl)
  have hsecond := StackAt.get hpushed (show _[3]? = some a₂ from rfl)
  have hthird := StackAt.get hpushed (show _[4]? = some a₃ from rfl)
  rw [syscallArgs, passing_regs, passing_regs, passing_regs, ← hfirst,
    ← hsecond, ← hthird]
  rfl

theorem passing_mem {number eip : BitVec 32}
    (hroom : 4 ≤ (m.regs .esp).toNat) :
    Set.EqOn (m.passing number eip).mem m.mem
      (Set.Ico ((m.regs .esp).toNat - 4) (m.regs .esp).toNat)ᶜ := by
  have hword := (m.regs .esp).isLt
  have hnat := toNat_sub_four hroom
  intro a ha
  rw [Set.mem_compl_iff, Set.mem_Ico] at ha
  rw [(passing_rest number eip).2]
  apply storeWord_of_outside <;> omega

/-- The end of a library function: the saved register and the return. -/
theorem runs_pop_ret {pop last ebx back : BitVec 32}
    (hplaced : platform.Placed pop [.op (.popReg .ebx), .ret] last)
    (heip : m.eip = pop) (hstack : m.Stack [ebx, back]) :
    ∃ m', platform.Runs m m' ∧ m'.eip = back ∧ m'.seg = m.seg ∧
      m'.mem = m.mem ∧ m'.regs .esp = m.regs .esp + 8 ∧ m'.regs .ebx = ebx ∧
      ∀ r, r ≠ .ebx → r ≠ .esp → m'.regs r = m.regs r := by
  obtain ⟨ret, hpop, behind, hret, -⟩ := hplaced
  obtain ⟨htop, hbelow⟩ := hstack.drop
  obtain ⟨hback, -⟩ := hbelow.drop
  let popped := (Op.popReg .ebx).exec m
  have hesp : popped.regs .esp = m.regs .esp + 4 := rfl
  have hfirst : platform.Runs m (popped.goto ret) :=
    @Platform.runs_ops platform m [.popReg .ebx] pop ret ⟨ret, hpop, rfl⟩ heip
  have hsecond : platform.Runs (popped.goto ret) (popped.drop.goto back) := by
    apply Platform.runs_step
    have hcode : platform.code (popped.goto ret).eip = some (.ret, behind) :=
      hret
    rw [Platform.step, hcode]
    exact congrArg (fun eip => some (popped.drop.goto eip)) hback
  refine ⟨_, hfirst.trans hsecond, rfl, rfl, rfl, ?_, ?_, ?_⟩
  · show popped.regs .esp + 4 = _
    rw [hesp, BitVec.add_assoc]
    rfl
  · exact htop
  · intro r hebx hesp
    cases r <;> first | rfl | contradiction

/-- The jump table stays where the memory changes elsewhere. -/
theorem HoldsJumpTable.congr {mem mem' : Memory UInt8}
    (hkernel : SyscallKernel platform addrs low table)
    (hhandlers : handlers.length = 10)
    (hholds : HoldsJumpTable table handlers mem)
    (hsame : Set.EqOn mem' mem (Set.Ico table.toNat (table.toNat + 44))) :
    HoldsJumpTable table handlers mem' := by
  apply StackAt.congr hholds
  · rw [List.length_cons, hhandlers]
    exact hkernel.fits
  · rw [List.length_cons, hhandlers]
    exact hsame

/-- Pushing on the user's stack leaves it alone. -/
theorem HoldsJumpTable.of_pushed {mem mem' : Memory UInt8}
    {ulow uhigh bottom top : Nat}
    (hkernel : SyscallKernel platform addrs low table)
    (hhandlers : handlers.length = 10)
    (htable : Disjoint (Set.Ico table.toNat (table.toNat + 44))
      (Set.Ico ulow uhigh))
    (hbottom : ulow ≤ bottom) (htop : top ≤ uhigh)
    (hholds : HoldsJumpTable table handlers mem)
    (hsame : Set.EqOn mem' mem (Set.Ico bottom top)ᶜ) :
    HoldsJumpTable table handlers mem' := by
  apply hholds.congr hkernel hhandlers
  apply hsame.mono
  rw [Set.subset_compl_iff_disjoint_right]
  exact htable.mono_right (Set.Ico_subset_Ico hbottom htop)

section Stages

variable {n ulow uhigh : Nat} {f number interrupt pop back a₁ a₂ a₃ : BitVec 32}
  {spec : CallSpec} {m₂ m₃ : Machine}

/-- The kernel's function is reached with the arguments, and returns behind the
interrupt. -/
theorem passing_returned (hkernel : SyscallKernel platform addrs low table)
    (hint : platform.code interrupt = some (.int syscallInt, pop))
    (hone : 1 ≤ n) (hten : n ≤ 10) (hhandlers : handlers.length = 10)
    (hget : (0 :: handlers)[n]? = some f)
    (hlow : low + room + 48 ≤ platform.esp0.toNat)
    (htable : Disjoint (Set.Ico table.toNat (table.toNat + 44))
      (Set.Ico ulow uhigh))
    (hf : platform.Implements
      (.kernel low platform.esp0.toNat spec.params) room f spec)
    (hparams : spec.params = 3)
    (hcalled : Called (.user platform low ulow uhigh
      (HoldsJumpTable table handlers)) 4 spec m back [a₁, a₂, a₃]) :
    ∃ m₂, platform.Runs (m.passing (BitVec.ofNat 32 n) interrupt) m₂ ∧
      SyscallReturned platform low spec
        (m.passing (BitVec.ofNat 32 n) interrupt) pop m₂ := by
  have hulow : ulow + 4 ≤ (m.regs .esp).toNat := hcalled.low
  have huhigh : (m.regs .esp).toNat + 4 * (spec.params + 1) ≤ uhigh :=
    hcalled.high
  let m₁ := m.passing (BitVec.ofNat 32 n) interrupt
  have hlevel : m₁.cpl = 3 := by
    rw [Machine.cpl, (passing_rest _ interrupt).1]
    exact hcalled.level
  have htable₁ : HoldsJumpTable table handlers m₁.mem :=
    HoldsJumpTable.of_pushed hkernel hhandlers htable (by omega) (by omega)
      hcalled.holds (passing_mem (by omega))
  have hnumber : (m₁.regs .eax).toNat = n := by
    rw [passing_regs _ interrupt .eax, BitVec.toNat_ofNat]
    omega
  have hsigned : (m₁.regs .eax).toInt = n := by
    rw [BitVec.toInt_eq_toNat_cond, hnumber, if_pos (by omega)]
  have hvalid : 1 ≤ (m₁.regs .eax).toInt ∧ (m₁.regs .eax).toInt ≤ 10 := by
    omega
  have hwrites : Disjoint (spec.writes (syscallArgs m₁))
      (Set.Ico low platform.esp0.toNat) := by
    rw [passing_args _ interrupt hcalled.stack]
    exact hcalled.writes.mono_right Set.subset_union_right
  exact syscall_returned hkernel hint hlevel hlow htable₁ hvalid.1 hvalid.2
    (by rw [hnumber]; exact hget) hf hparams hwrites

/-- What the function has pushed, and where it returns to, is still there. -/
theorem returned_stack {holds : Memory UInt8 → Prop} (huser : uhigh ≤ 2 ^ 32)
    (hstacks : Disjoint (Set.Ico low platform.esp0.toNat)
      (Set.Ico ulow uhigh))
    (hcalled : Called (.user platform low ulow uhigh holds) 4 spec m back
      [a₁, a₂, a₃])
    (hret : SyscallReturned platform low spec (m.passing number interrupt) pop
      m₂) :
    m₂.Stack [m.regs .ebx, back] := by
  have hulow : ulow + 4 ≤ (m.regs .esp).toNat := hcalled.low
  have huhigh : (m.regs .esp).toNat + 4 * (spec.params + 1) ≤ uhigh :=
    hcalled.high
  have hnat : (m.regs .esp - 4).toNat = (m.regs .esp).toNat - 4 :=
    toNat_sub_four (by omega)
  have hesp₂ : m₂.regs .esp = m.regs .esp - 4 :=
    (hret.saved .esp (by decide)).trans (passing_regs number interrupt .esp)
  have hpushed : StackAt (m.passing number interrupt).mem (m.regs .esp - 4)
      [m.regs .ebx, back] := by
    have hstack := hcalled.stack.push
      (show 4 ≤ maxStackWords by decide) (m.regs .ebx)
    simp only [Machine.Stack, Machine.push, Function.update_self] at hstack
    rw [(passing_rest number interrupt).2]
    exact ⟨hstack.1, hstack.2.1, trivial⟩
  have hunchanged := hret.unchanged
  rw [passing_args number interrupt hcalled.stack] at hunchanged
  rw [Machine.Stack, hesp₂]
  apply hpushed.congr
  · rw [hnat, List.length_cons, List.length_singleton]
    omega
  · intro a ha
    rw [hnat, List.length_cons, List.length_singleton, Set.mem_Ico] at ha
    apply hunchanged
    rintro (hkstack | hwrite)
    · apply hstacks.notMem_of_mem_left hkstack
      rw [Set.mem_Ico]
      omega
    · apply hcalled.writes.notMem_of_mem_left hwrite
      left
      show a ∈ Set.Ico ulow ((m.regs .esp).toNat + 4)
      rw [Set.mem_Ico]
      omega

/-- A program sees neither the register that was pushed nor the kernel's
stack. -/
theorem passing_outside {holds : Memory UInt8 → Prop} {a : Nat}
    (hulow : ulow + 4 ≤ (m.regs .esp).toNat)
    (ha : a ∉ (Convention.user platform low ulow uhigh holds).scratch
      (m.regs .esp)) :
    (m.passing number interrupt).mem a = m.mem a ∧
      a ∉ Set.Ico low platform.esp0.toNat := by
  rw [Convention.scratch, Set.mem_union, not_or] at ha
  refine ⟨passing_mem (by omega) ?_, ha.2⟩
  intro hpushed
  apply ha.1
  show a ∈ Set.Ico ulow ((m.regs .esp).toNat + 4)
  rw [Set.mem_Ico] at hpushed ⊢
  omega

/-- What the kernel gives back, with the saved register restored, is what the
caller may expect. -/
theorem SyscallReturned.returned {holds : Memory UInt8 → Prop}
    (hcalled : Called (.user platform low ulow uhigh holds) 4 spec m back
      [a₁, a₂, a₃])
    (hret : SyscallReturned platform low spec (m.passing number interrupt) pop
      m₂)
    (heip : m₃.eip = back) (hseg : m₃.seg = m₂.seg) (hmem : m₃.mem = m₂.mem)
    (hesp : m₃.regs .esp = m₂.regs .esp + 8)
    (hebx : m₃.regs .ebx = m.regs .ebx)
    (hother : ∀ r, r ≠ .ebx → r ≠ .esp → m₃.regs r = m₂.regs r) :
    Returned (.user platform low ulow uhigh holds) spec m back [a₁, a₂, a₃]
      m₃ := by
  have hregs := @passing_regs m number interrupt
  have hargs := passing_args number interrupt hcalled.stack
  have houtside := @passing_outside platform low m ulow uhigh number interrupt
    holds
  have hunchanged := hret.unchanged
  have hresult := hret.result
  rw [hargs] at hunchanged hresult
  refine ⟨heip, ?_, ?_, ?_, ?_, ?_⟩
  · rw [hesp, hret.saved .esp (by decide), hregs .esp,
      show (8 : BitVec 32) = 4 + 4 from rfl, ← BitVec.add_assoc,
      BitVec.sub_add_cancel]
  · intro r hr
    simp only [calleeSaved, List.mem_cons, List.not_mem_nil, or_false] at hr
    rcases hr with rfl | rfl | rfl | rfl
    · exact hebx
    · rw [hother .esi (by decide) (by decide), hret.saved .esi (by decide)]
      exact hregs .esi
    · rw [hother .edi (by decide) (by decide), hret.saved .edi (by decide)]
      exact hregs .edi
    · rw [hother .ebp (by decide) (by decide), hret.saved .ebp (by decide)]
      exact hregs .ebp
  · rw [hseg, hret.seg]
    exact (passing_rest number interrupt).1
  · obtain ⟨entered, hsame, hresult⟩ := hresult
    refine ⟨entered, ?_, ?_⟩
    · intro a ha
      obtain ⟨hpassed, hhidden⟩ := houtside hcalled.low ha
      rw [hsame hhidden, hpassed]
    · rw [hother .eax (by decide) (by decide), hmem]
      exact hresult
  · intro a ha
    rw [Set.mem_compl_iff, Set.mem_union, not_or] at ha
    obtain ⟨hpassed, hhidden⟩ := houtside hcalled.low ha.1
    rw [hmem, hunchanged ?_, hpassed]
    rintro (hkstack | hwrite)
    · exact hhidden hkstack
    · exact ha.2 hwrite

end Stages

/-- A library function in user mode does what the kernel's function does: a C
program that calls it finds its own registers, its stack and the rest of its
memory as the convention says, whatever number and arguments. -/
theorem library_call_implements {n ulow uhigh : Nat} {f last : BitVec 32}
    {spec : CallSpec} (hkernel : SyscallKernel platform addrs low table)
    (hstub : platform.Placed entry (doCall (BitVec.ofNat 32 n)) last)
    (hone : 1 ≤ n) (hten : n ≤ 10) (hhandlers : handlers.length = 10)
    (hget : (0 :: handlers)[n]? = some f)
    (hlow : low + room + 48 ≤ platform.esp0.toNat) (huser : uhigh ≤ 2 ^ 32)
    (hstacks : Disjoint (Set.Ico low platform.esp0.toNat)
      (Set.Ico ulow uhigh))
    (htable : Disjoint (Set.Ico table.toNat (table.toNat + 44))
      (Set.Ico ulow uhigh))
    (hf : platform.Implements
      (.kernel low platform.esp0.toNat spec.params) room f spec)
    (hparams : spec.params = 3) :
    platform.Implements
      (.user platform low ulow uhigh (HoldsJumpTable table handlers)) 4 entry
      spec := by
  intro m back args heip hcalled
  obtain ⟨interrupt, hpass, hrest⟩ := Platform.Placed.append
    ((passArguments (BitVec.ofNat 32 n)).map .op) hstub
  obtain ⟨pop, hint, hend⟩ := hrest
  obtain ⟨a₁, a₂, a₃, rfl⟩ : ∃ a₁ a₂ a₃, args = [a₁, a₂, a₃] := by
    have hlength := hcalled.length
    rw [hparams] at hlength
    exact List.length_eq_three.mp hlength
  -- Pass the arguments, let the kernel work, restore the register and return.
  have hruns₁ : platform.Runs m (m.passing (BitVec.ofNat 32 n) interrupt) :=
    Platform.runs_ops hpass heip
  obtain ⟨m₂, hruns₂, hret₂⟩ := passing_returned hkernel hint hone hten
    hhandlers hget hlow htable hf hparams hcalled
  obtain ⟨m₃, hruns₃, heip₃, hseg₃, hmem₃, hesp₃, hebx₃, hother₃⟩ :=
    runs_pop_ret hend hret₂.eip (returned_stack huser hstacks hcalled hret₂)
  exact ⟨m₃, hruns₁.trans (hruns₂.trans hruns₃),
    hret₂.returned hcalled heip₃ hseg₃ hmem₃ hesp₃ hebx₃ hother₃⟩

theorem library_call_implements_sample :
    samplePlatform.Implements (.user samplePlatform sampleLow 0x8000000
      0x8400000 (HoldsJumpTable 0x1000 sampleHandlers)) 4 0
      (.constant 3 7) := by
  have hstub := @Platform.placed_laidOut samplePlatform sampleCode []
    (doCall 3) (syscallHandlerWrapper 0x1000 28 ++ invalidSyscall ++
      sampleProgram) rfl rfl (by decide)
  apply library_call_implements samplePlatform_kernel hstub (by decide)
    (by decide) rfl rfl
    (show sampleLow + 0 + 48 ≤ samplePlatform.esp0.toNat by decide)
    (by decide) _ _ (sampleHandlers_implement _ 0 3) rfl
  · rw [Set.Ico_disjoint_Ico]
    decide
  · rw [Set.Ico_disjoint_Ico]
    decide

end Library

end PsychOS
