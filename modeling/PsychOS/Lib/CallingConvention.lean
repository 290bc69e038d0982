/-
The C calling convention on the 32-bit x86, as a contract between code that is
called and code that calls.  A function may use the stack below its arguments,
may overwrite its arguments, and leaves the registers alone that belong to its
caller.  The last part is about code that saves registers around a call, with
the arguments among the saved words.
-/
import PsychOS.Lib.Ia32
import Mathlib.Data.List.Nodup
import Mathlib.Data.Set.Lattice
import Mathlib.Order.CompletePartialOrder
import Mathlib.Order.Interval.Set.Disjoint

namespace PsychOS

/-- What a function is to do: the number of its parameters, the addresses it
may write for given arguments, and how its result and the memory it leaves are
related to the memory it finds. -/
structure CallSpec where
  params : Nat
  writes : List (BitVec 32) → Set Nat
  result : List (BitVec 32) → Memory UInt8 → BitVec 32 → Memory UInt8 → Prop

/-- Where calls are made: the privilege level, the limits of the stack, how many
bytes from the stack pointer up a function may change, memory that a caller
does not see, and what the memory is known to hold. -/
structure Convention where
  level : Nat
  low : Nat
  high : Nat
  above : Nat
  hidden : Set Nat
  holds : Memory UInt8 → Prop

/-- What a call may change beside what it is for. -/
def Convention.scratch (conv : Convention) (esp : BitVec 32) : Set Nat :=
  Set.Ico conv.low (esp.toNat + conv.above) ∪ conv.hidden

def calleeSaved : List Reg := [.ebx, .esi, .edi, .ebp]

/-- The state in which a function starts, with `room` bytes of stack left. -/
structure Called (conv : Convention) (room : Nat) (spec : CallSpec)
    (m : Machine) (back : BitVec 32) (args : List (BitVec 32)) : Prop where
  level : m.cpl = conv.level
  direction : m.flag flagDF = false
  length : args.length = spec.params
  stack : m.Stack (back :: args)
  low : conv.low + room ≤ (m.regs .esp).toNat
  high : (m.regs .esp).toNat + 4 * (spec.params + 1) ≤ conv.high
  writes : Disjoint (spec.writes args) (conv.scratch (m.regs .esp))
  holds : conv.holds m.mem

/-- The state in which it returns. -/
structure Returned (conv : Convention) (spec : CallSpec) (m : Machine)
    (back : BitVec 32) (args : List (BitVec 32)) (m' : Machine) : Prop where
  eip : m'.eip = back
  esp : m'.regs .esp = m.regs .esp + 4
  saved : ∀ r ∈ calleeSaved, m'.regs r = m.regs r
  seg : m'.seg = m.seg
  result : ∃ entered, Set.EqOn entered m.mem (conv.scratch (m.regs .esp))ᶜ ∧
    spec.result args entered (m'.regs .eax) m'.mem
  unchanged : Set.EqOn m'.mem m.mem
    (conv.scratch (m.regs .esp) ∪ spec.writes args)ᶜ

/-- The function at an address keeps the convention and does what it is to do:
every call of it returns. -/
def Platform.Implements (platform : Platform) (conv : Convention) (room : Nat)
    (entry : BitVec 32) (spec : CallSpec) : Prop :=
  ∀ m back args, m.eip = entry → Called conv room spec m back args →
    ∃ m', platform.Runs m m' ∧ Returned conv spec m back args m'

/-- A function that returns a constant. -/
def CallSpec.constant (params : Nat) (value : BitVec 32) : CallSpec where
  params := params
  writes := fun _ => ∅
  result := fun _ before result after => result = value ∧ after = before

theorem constant_implements {platform : Platform} {entry last value : BitVec 32}
    (hplaced : platform.Placed entry [.op (.movImm .eax value), .ret] last)
    (conv : Convention) (room params : Nat) :
    platform.Implements conv room entry (.constant params value) := by
  intro m back args heip hcalled
  obtain ⟨ret, hmov, behind, hret, -⟩ := hplaced
  let m₁ := (m.set .eax value).goto ret
  have hfirst : platform.Runs m m₁ :=
    @Platform.runs_ops platform m [.movImm .eax value] entry ret
      ⟨ret, hmov, rfl⟩ heip
  have hsecond : platform.Runs m₁ (m₁.drop.goto back) := by
    apply Platform.runs_step
    have hcode : platform.code m₁.eip = some (.ret, behind) := hret
    rw [Platform.step, hcode]
    exact congrArg (fun eip => some (m₁.drop.goto eip)) hcalled.stack.1
  refine ⟨_, hfirst.trans hsecond, rfl, rfl, ?_, rfl, ⟨m.mem, ?_, rfl, rfl⟩,
    ?_⟩
  · intro r hr
    simp only [calleeSaved, List.mem_cons, List.not_mem_nil, or_false] at hr
    rcases hr with rfl | rfl | rfl | rfl <;> rfl
  · exact Set.eqOn_refl ..
  · exact Set.eqOn_refl ..

/-- Calls inside a kernel, whose functions own their arguments. -/
def Convention.kernel (low high params : Nat) : Convention where
  level := 0
  low := low
  high := high
  above := 4 * (params + 1)
  hidden := ∅
  holds := fun _ => True

section Changes

variable {mem₀ mem₁ mem₂ : Memory UInt8} {changed pushed outer writes : Set Nat}
  {low middle high : Nat}

/-- Two changes one after the other, both inside one set of addresses. -/
theorem eqOn_compl_trans (hsecond : Set.EqOn mem₂ mem₁ changedᶜ)
    (hfirst : Set.EqOn mem₁ mem₀ pushedᶜ) (hchanged : changed ⊆ outer)
    (hpushed : pushed ⊆ outer) : Set.EqOn mem₂ mem₀ outerᶜ :=
  (hsecond.mono (Set.compl_subset_compl.mpr hchanged)).trans
    (hfirst.mono (Set.compl_subset_compl.mpr hpushed))

/-- The stack above the part that a function may change stays as it was. -/
theorem eqOn_stack_above
    (hmem : Set.EqOn mem₁ mem₀ (Set.Ico low middle ∪ writes)ᶜ)
    (hwrites : Disjoint writes (Set.Ico low high)) (hlow : low ≤ middle) :
    Set.EqOn mem₁ mem₀ (Set.Ico middle high) := by
  apply hmem.mono
  rw [Set.subset_compl_iff_disjoint_right, Set.disjoint_union_right]
  constructor
  · exact Set.Ico_disjoint_Ico_same.symm
  · exact (hwrites.mono_right (Set.Ico_subset_Ico_left hlow)).symm

end Changes

/-- Save registers before a call. -/
def saveRegs (rs : List Reg) : List Op := rs.map .pushReg ++ [.cld]

/-- Restore them after it. -/
def restoreRegs (rs : List Reg) : List Op := rs.reverse.map .popReg

section SavedCall

variable {platform : Platform} {spec : CallSpec} {rs : List Reg}
  {d : Machine} {low high room : Nat} {addr call after last f : BitVec 32}

/-- What is passed: the words saved last. -/
def savedArgs (rs : List Reg) (params : Nat) (d : Machine) :
    List (BitVec 32) :=
  (rs.reverse.map d.regs).take params

/-- The machine after `saveRegs`. -/
def Machine.saving (d : Machine) (rs : List Reg) (eip : BitVec 32) : Machine :=
  { (d.pushAll (rs.map d.regs)).goto eip with
    eflags := setBit d.eflags flagDF false }

theorem runs_saving (hesp : .esp ∉ rs)
    (hsave : platform.Placed addr ((saveRegs rs).map .op) call)
    (heip : d.eip = addr) : platform.Runs d (d.saving rs call) := by
  have hruns := Platform.runs_ops hsave heip
  obtain ⟨-, -, -, hflags⟩ := Machine.pushAll_eq (rs.map d.regs) d
  rw [saveRegs, List.foldl_append, List.foldl_map,
    Machine.pushRegs_eq rs hesp] at hruns
  simp only [List.foldl_cons, List.foldl_nil, Op.exec, hflags] at hruns
  exact hruns

theorem runs_restoring {m : Machine}
    (hrestore : platform.Placed after ((restoreRegs rs).map .op) last)
    (heip : m.eip = after) :
    platform.Runs m ((m.popRegs rs.reverse).goto last) := by
  have hruns := Platform.runs_ops hrestore heip
  rw [restoreRegs, List.foldl_map] at hruns
  exact hruns

theorem saving_regs (rs : List Reg) (eip : BitVec 32) :
    (d.saving rs eip).regs = Function.update d.regs .esp
        (d.regs .esp - 4 * BitVec.ofNat 32 rs.length) ∧
      (d.saving rs eip).seg = d.seg := by
  obtain ⟨hregs, hseg, -⟩ := Machine.pushAll_eq (rs.map d.regs) d
  rw [List.length_map] at hregs
  exact ⟨hregs, hseg⟩

theorem saving_stack {words : List (BitVec 32)} (hstack : d.Stack words)
    (eip : BitVec 32) (hroom : rs.length + words.length ≤ maxStackWords) :
    (d.saving rs eip).Stack (rs.reverse.map d.regs ++ words) := by
  have hpushed := hstack.pushAll (rs.map d.regs) (by simpa using hroom)
  rw [← List.map_reverse] at hpushed
  exact hpushed

theorem saving_mem (eip : BitVec 32)
    (hroom : 4 * rs.length ≤ (d.regs .esp).toNat) :
    Set.EqOn (d.saving rs eip).mem d.mem
      (Set.Ico ((d.regs .esp).toNat - 4 * rs.length)
        (d.regs .esp).toNat)ᶜ := by
  have hpushed := @Machine.pushAll_mem d (rs.map d.regs)
    (by rwa [List.length_map])
  rwa [List.length_map] at hpushed

theorem saving_esp (eip : BitVec 32)
    (hroom : 4 * rs.length ≤ (d.regs .esp).toNat) :
    ((d.saving rs eip).regs .esp).toNat =
      (d.regs .esp).toNat - 4 * rs.length := by
  rw [(saving_regs rs eip).1, Function.update_self]
  exact toNat_sub_words hroom

/-- The machine at the start of the function. -/
def Machine.calling (d : Machine) (rs : List Reg) (call after f : BitVec 32) :
    Machine :=
  ((d.saving rs call).push after).goto f

theorem calling_esp (call after f : BitVec 32) :
    (d.calling rs call after f).regs .esp =
      (d.saving rs call).regs .esp - 4 := by
  simp only [Machine.calling, Machine.push, Machine.goto,
    Function.update_self]

theorem calling_toNat (call after f : BitVec 32)
    (hroom : 4 * (rs.length + 1) ≤ (d.regs .esp).toNat) :
    ((d.calling rs call after f).regs .esp).toNat =
      (d.regs .esp).toNat - 4 * (rs.length + 1) := by
  have hsaving := @saving_esp rs d call (by omega)
  rw [calling_esp, toNat_sub_four (by omega), hsaving]
  omega

/-- A call stores the address to return to. -/
theorem calling_mem (call after f : BitVec 32)
    (hroom : 4 * (rs.length + 1) ≤ (d.regs .esp).toNat) :
    Set.EqOn (d.calling rs call after f).mem (d.saving rs call).mem
      (Set.Ico ((d.regs .esp).toNat - 4 * (rs.length + 1))
        ((d.regs .esp).toNat - 4 * rs.length))ᶜ := by
  have hword := (d.regs .esp).isLt
  have hnat := calling_toNat call after f hroom
  rw [calling_esp] at hnat
  intro a ha
  rw [Set.mem_compl_iff, Set.mem_Ico] at ha
  apply storeWord_of_outside
  · rw [hnat]; omega
  · rw [hnat]; omega

/-- Up to there the stack is written. -/
theorem calling_mem_caller (call after f : BitVec 32)
    (hlow : low + 4 * (rs.length + 1) ≤ (d.regs .esp).toNat) :
    Set.EqOn (d.calling rs call after f).mem d.mem
      (Set.Ico low (d.regs .esp).toNat)ᶜ := by
  intro a ha
  rw [Set.mem_compl_iff, Set.mem_Ico] at ha
  rw [calling_mem call after f (by omega)
    (by rw [Set.mem_compl_iff, Set.mem_Ico]; omega)]
  exact saving_mem call (by omega)
    (by rw [Set.mem_compl_iff, Set.mem_Ico]; omega)

/-- The part of the stack that the function may change. -/
theorem calling_scratch (call after f : BitVec 32) (params : Nat)
    (hroom : 4 * (rs.length + 1) ≤ (d.regs .esp).toNat) :
    (Convention.kernel low high params).scratch
        ((d.calling rs call after f).regs .esp) =
      Set.Ico low ((d.regs .esp).toNat - 4 * rs.length + 4 * params) := by
  have hnat := calling_toNat call after f hroom
  show Set.Ico low (((d.calling rs call after f).regs .esp).toNat +
    4 * (params + 1)) ∪ ∅ = _
  rw [Set.union_empty]
  congr 1
  omega

theorem calling_stack {words : List (BitVec 32)} (hstack : d.Stack words)
    (call after f : BitVec 32)
    (hroom : rs.length + words.length ≤ maxStackWords) :
    (d.calling rs call after f).Stack
      (after :: (rs.reverse.map d.regs ++ words)) :=
  (saving_stack hstack call hroom).push (by simpa using hroom) after

theorem calling_cpl (call after f : BitVec 32) :
    (d.calling rs call after f).cpl = d.cpl :=
  congrArg (fun seg => (seg Seg.cs).toNat % 4) (saving_regs rs call).2

theorem calling_called (call after f : BitVec 32) (hlevel : d.cpl = 0)
    (hsmall : rs.length ≤ maxStackWords) (hparams : spec.params ≤ rs.length)
    (hlow : low + room + 4 * (rs.length + 1) ≤ (d.regs .esp).toNat)
    (hhigh : (d.regs .esp).toNat ≤ high)
    (hwrites : Disjoint (spec.writes (savedArgs rs spec.params d))
      (Set.Ico low high)) :
    Called (.kernel low high spec.params) room spec
      (d.calling rs call after f) after (savedArgs rs spec.params d) := by
  have hnat := @calling_toNat rs d call after f (by omega)
  have hempty : d.Stack [] := trivial
  have hstack := calling_stack hempty call after f hsmall
  rw [List.append_nil] at hstack
  refine ⟨?_, ?_, ?_, ?_, ?_, ?_, ?_, trivial⟩
  · exact (calling_cpl call after f).trans hlevel
  · exact getLsbD_setBit d.eflags (show flagDF < 32 by decide) false flagDF
  · rw [savedArgs, List.length_take, List.length_map, List.length_reverse]
    omega
  · rw [← List.take_append_drop spec.params (rs.reverse.map d.regs)] at hstack
    exact ⟨hstack.1, StackAt.of_append hstack.2⟩
  · show low + room ≤ _
    omega
  · show _ ≤ high
    omega
  · rw [calling_scratch call after f _ (by omega)]
    apply hwrites.mono_right
    apply Set.Ico_subset_Ico_right
    omega

/-- A saved word that is not an argument is still there after the call. -/
theorem saved_word_kept {m : Machine} {writes : Set Nat} {i params : Nat}
    {r : Reg} (call after f : BitVec 32)
    (hsmall : rs.length ≤ maxStackWords)
    (hlow : low + 4 * (rs.length + 1) ≤ (d.regs .esp).toNat)
    (hhigh : (d.regs .esp).toNat ≤ high)
    (hmem : Set.EqOn m.mem (d.calling rs call after f).mem
      (Set.Ico low ((d.regs .esp).toNat - 4 * rs.length + 4 * params) ∪
        writes)ᶜ)
    (hwrites : Disjoint writes (Set.Ico low high)) (hi : params ≤ i)
    (hget : rs.reverse[i]? = some r) :
    loadWord m.mem ((d.saving rs call).regs .esp + 4 * BitVec.ofNat 32 i) =
      d.regs r := by
  have hword := (d.regs .esp).isLt
  have hsaving := @saving_esp rs d call (by omega)
  obtain ⟨hlt, -⟩ := List.getElem?_eq_some_iff.mp hget
  rw [List.length_reverse] at hlt
  have haddr := @toNat_add_words ((d.saving rs call).regs .esp) i (by omega)
  have hsaved : loadWord (d.saving rs call).mem
      ((d.saving rs call).regs .esp + 4 * BitVec.ofNat 32 i) = d.regs r := by
    have hempty : d.Stack [] := trivial
    apply StackAt.get (saving_stack hempty call hsmall)
    rw [List.append_nil, List.getElem?_map, hget]
    rfl
  rw [← hsaved]
  apply loadWord_congr (by omega)
  intro a ha
  rw [Set.mem_Ico, haddr] at ha
  rw [eqOn_stack_above hmem hwrites (by omega) ?_,
    calling_mem call after f (by omega) ?_]
  · rw [Set.mem_compl_iff, Set.mem_Ico]
    omega
  · rw [Set.mem_Ico]
    omega

/-- A call with registers saved around it, the arguments among them.  All of
them but the arguments come back as they were. -/
theorem runs_saved_call (hnodup : rs.Nodup) (hesp : .esp ∉ rs)
    (hsave : platform.Placed addr ((saveRegs rs).map .op) call)
    (hcall : platform.step (d.saving rs call) =
      some (d.calling rs call after f))
    (hrestore : platform.Placed after ((restoreRegs rs).map .op) last)
    (hf : platform.Implements (.kernel low high spec.params) room f spec)
    (heip : d.eip = addr) (hlevel : d.cpl = 0)
    (hsmall : rs.length ≤ maxStackWords) (hparams : spec.params ≤ rs.length)
    (hlow : low + room + 4 * (rs.length + 1) ≤ (d.regs .esp).toNat)
    (hhigh : (d.regs .esp).toNat ≤ high)
    (hwrites : Disjoint (spec.writes (savedArgs rs spec.params d))
      (Set.Ico low high)) :
    ∃ m' value, platform.Runs d m' ∧ m'.eip = last ∧ m'.seg = d.seg ∧
      m'.regs .esp = d.regs .esp ∧ (.eax ∉ rs → m'.regs .eax = value) ∧
      (∀ i r, spec.params ≤ i → rs.reverse[i]? = some r →
        m'.regs r = d.regs r) ∧
      (∃ entered, Set.EqOn entered d.mem (Set.Ico low (d.regs .esp).toNat)ᶜ ∧
        spec.result (savedArgs rs spec.params d) entered value m'.mem) ∧
      Set.EqOn m'.mem d.mem (Set.Ico low (d.regs .esp).toNat ∪
        spec.writes (savedArgs rs spec.params d))ᶜ := by
  have hentered := @calling_mem_caller rs d low call after f (by omega)
  obtain ⟨m, hruns, hret⟩ := hf (d.calling rs call after f) after _ rfl
    (calling_called call after f hlevel hsmall hparams hlow hhigh hwrites)
  have hunchanged := hret.unchanged
  have hresult := hret.result
  rw [calling_scratch call after f _ (by omega)] at hunchanged hresult
  have hmesp : m.regs .esp = (d.saving rs call).regs .esp := by
    rw [hret.esp, calling_esp, BitVec.sub_add_cancel]
  have hstack : Set.Ico low ((d.regs .esp).toNat - 4 * rs.length +
      4 * spec.params) ⊆ Set.Ico low (d.regs .esp).toNat :=
    Set.Ico_subset_Ico_right (by omega)
  have hnodup' : rs.reverse.Nodup := List.nodup_reverse.mpr hnodup
  have hesp' : .esp ∉ rs.reverse := by rwa [List.mem_reverse]
  have hpop := @Machine.popRegs_eq m rs.reverse hnodup' hesp'
  refine ⟨(m.popRegs rs.reverse).goto last, m.regs .eax, ?_, rfl, ?_, ?_, ?_,
    ?_, ?_, ?_⟩
  · refine (runs_saving hesp hsave heip).trans ?_
    refine (Platform.runs_step hcall).trans (hruns.trans ?_)
    exact runs_restoring hrestore hret.eip
  · rw [hpop]
    exact hret.seg.trans (saving_regs rs call).2
  · rw [hpop]
    show (if .esp ∈ rs.reverse then _ else _) = _
    rw [if_neg hesp', if_pos rfl, hmesp, (saving_regs rs call).1,
      Function.update_self, List.length_reverse, BitVec.sub_add_cancel]
  · intro heax
    rw [hpop]
    show (if .eax ∈ rs.reverse then _ else _) = _
    rw [if_neg (by rwa [List.mem_reverse]), if_neg (by decide)]
  · intro i r hi hget
    obtain ⟨hlt, rfl⟩ := List.getElem?_eq_some_iff.mp hget
    rw [hpop]
    show (if rs.reverse[i] ∈ rs.reverse then _ else _) = _
    rw [if_pos (List.getElem_mem hlt), hnodup'.idxOf_getElem i hlt, hmesp]
    exact saved_word_kept call after f hsmall (by omega) hhigh hunchanged
      hwrites hi hget
  · obtain ⟨entered, hsame, hresult⟩ := hresult
    refine ⟨entered, ?_, ?_⟩
    · exact eqOn_compl_trans hsame hentered hstack Set.Subset.rfl
    · rw [hpop]
      exact hresult
  · rw [hpop]
    exact eqOn_compl_trans hunchanged hentered
      (Set.union_subset_union_left _ hstack) Set.subset_union_left

end SavedCall

end PsychOS
