/-
A part of the 32-bit x86: the instructions that entering and leaving a kernel
is made of, gates, and the change of stacks between privilege levels.  Code is
a map from addresses to instructions, so that nothing depends on how long an
instruction is; segments are flat.
-/
import PsychOS.Lib.WordStack
import Mathlib.Logic.Relation

namespace PsychOS

inductive Reg where
  | eax | ecx | edx | ebx | esp | ebp | esi | edi
  deriving DecidableEq

inductive Seg where
  | cs | ss | ds | es | fs | gs
  deriving DecidableEq

/-- Selectors are held as words. -/
structure Machine where
  regs : Reg → BitVec 32
  seg : Seg → BitVec 32
  eip : BitVec 32
  eflags : BitVec 32
  mem : Memory UInt8

/-- Set bit `i` of a word. -/
def setBit (word : BitVec 32) (i : Nat) (value : Bool) : BitVec 32 :=
  (word &&& ~~~ (1#32 <<< i)) ||| (if value then 1#32 <<< i else 0#32)

/-- The positions of the flags. -/
def flagCF : Nat := 0
def flagPF : Nat := 2
def flagAF : Nat := 4
def flagZF : Nat := 6
def flagSF : Nat := 7
def flagTF : Nat := 8
def flagIF : Nat := 9
def flagDF : Nat := 10
def flagOF : Nat := 11

/-- Whether the number of ones in the lowest byte is even. -/
def evenParity (word : BitVec 32) : Bool :=
  ((List.range 8).filter fun i => word.getLsbD i).length % 2 == 0

/-- The flags that depend on a result alone. -/
def resultFlags (result eflags : BitVec 32) : BitVec 32 :=
  setBit (setBit (setBit eflags flagZF (result == 0)) flagSF result.msb)
    flagPF (evenParity result)

/-- The flags after an operation that has no carry.  The processor leaves the
auxiliary carry open; here it stays. -/
def logicFlags (result eflags : BitVec 32) : BitVec 32 :=
  setBit (setBit (resultFlags result eflags) flagOF false) flagCF false

/-- The flags after an addition. -/
def addFlags (left right eflags : BitVec 32) : BitVec 32 :=
  setBit (setBit (setBit (resultFlags (left + right) eflags)
    flagOF (decide ((left + right).toInt ≠ left.toInt + right.toInt)))
    flagCF (decide (2 ^ 32 ≤ left.toNat + right.toNat)))
    flagAF (decide (16 ≤ left.toNat % 16 + right.toNat % 16))

/-- The flags after a comparison. -/
def compareFlags (left right eflags : BitVec 32) : BitVec 32 :=
  setBit (setBit (setBit (resultFlags (left - right) eflags)
    flagOF (decide ((left - right).toInt ≠ left.toInt - right.toInt)))
    flagCF (decide (left.toNat < right.toNat)))
    flagAF (decide (left.toNat % 16 < right.toNat % 16))

namespace Machine

variable (m : Machine)

def set (r : Reg) (value : BitVec 32) : Machine :=
  { m with regs := Function.update m.regs r value }

def setSeg (s : Seg) (value : BitVec 32) : Machine :=
  { m with seg := Function.update m.seg s value }

def push (value : BitVec 32) : Machine :=
  { m with
    regs := Function.update m.regs .esp (m.regs .esp - 4)
    mem := storeWord m.mem (m.regs .esp - 4) value }

/-- Go on at an address. -/
def goto (addr : BitVec 32) : Machine := { m with eip := addr }

/-- The word on top of the stack. -/
def top : BitVec 32 := loadWord m.mem (m.regs .esp)

def drop : Machine := m.set .esp (m.regs .esp + 4)

/-- Push words, the first one first. -/
def pushAll (m : Machine) (words : List (BitVec 32)) : Machine :=
  words.foldl push m

/-- The current privilege level. -/
def cpl : Nat := (m.seg .cs).toNat % 4

def flag (i : Nat) : Bool := m.eflags.getLsbD i

/-- The words on the stack. -/
def Stack (words : List (BitVec 32)) : Prop :=
  StackAt m.mem (m.regs .esp) words

end Machine

/-- `iret`: back to the same level, or to an outer one with its stack. -/
def Machine.interruptReturn (m : Machine) : Machine :=
  let back := { m.drop.drop.drop.setSeg .cs m.drop.top with
    eip := m.top
    eflags := m.drop.drop.top }
  if back.cpl > m.cpl then
    (back.set .esp back.top).setSeg .ss back.drop.top
  else back

/-- Instructions that go on with the next one. -/
inductive Op where
  | pushReg (r : Reg)
  | pushImm (value : BitVec 32)
  | popReg (r : Reg)
  | movImm (r : Reg) (value : BitVec 32)
  | load (r base : Reg) (disp : BitVec 32)
  | addImm (r : Reg) (value : BitVec 32)
  | orImm (r : Reg) (value : BitVec 32)
  | xorReg (r source : Reg)
  | movLow (r : Reg) (value : BitVec 16)
  | movSeg (s : Seg) (r : Reg)
  | cmpImm (r : Reg) (value : BitVec 32)
  | pushFlags
  | cli
  | cld

/-- `push %esp` pushes the pointer as it was, and `pop %esp` ends with the word
that was popped. -/
def Op.exec : Op → Machine → Machine
  | .pushReg r, m => m.push (m.regs r)
  | .pushImm value, m => m.push value
  | .popReg r, m => m.drop.set r m.top
  | .movImm r value, m => m.set r value
  | .load r base disp, m => m.set r (loadWord m.mem (m.regs base + disp))
  | .addImm r value, m =>
      { m.set r (m.regs r + value) with
        eflags := addFlags (m.regs r) value m.eflags }
  | .orImm r value, m =>
      { m.set r (m.regs r ||| value) with
        eflags := logicFlags (m.regs r ||| value) m.eflags }
  | .xorReg r source, m =>
      { m.set r (m.regs r ^^^ m.regs source) with
        eflags := logicFlags (m.regs r ^^^ m.regs source) m.eflags }
  | .movLow r value, m =>
      m.set r (m.regs r &&& 0xFFFF0000 ||| value.setWidth 32)
  | .movSeg s r, m => m.setSeg s (m.regs r &&& 0xFFFF)
  | .pushFlags, m => m.push m.eflags
  | .cmpImm r value, m =>
      { m with eflags := compareFlags (m.regs r) value m.eflags }
  | .cli, m => { m with eflags := setBit m.eflags flagIF false }
  | .cld, m => { m with eflags := setBit m.eflags flagDF false }

inductive Instr where
  | op (op : Op)
  | jl (target : BitVec 32)
  | jg (target : BitVec 32)
  | jmp (target : BitVec 32)
  | call (target : BitVec 32)
  | callTable (table : BitVec 32) (index : Reg)
  | ret
  | int (vector : BitVec 8)
  | iret

/-- An entry of the interrupt table. -/
structure Gate where
  offset : BitVec 32
  selector : BitVec 32
  present : Bool
  dpl : Nat

/-- What stays the same while code runs: the code, with the address behind each
instruction, the interrupt table and the stack for level 0. -/
structure Platform where
  code : BitVec 32 → Option (Instr × BitVec 32)
  idt : BitVec 8 → Gate
  esp0 : BitVec 32
  ss0 : BitVec 32

namespace Platform

variable (platform : Platform)

/-- The stack an interrupt saves its frame on: that of level 0, coming from
level 3. -/
def entryStack (m : Machine) : Machine :=
  if m.cpl = 3 then (m.setSeg .ss platform.ss0).set .esp platform.esp0 else m

/-- The words that are saved there. -/
def entryWords (m : Machine) (error : Option (BitVec 32)) (back : BitVec 32) :
    List (BitVec 32) :=
  (if m.cpl = 3 then [m.seg .ss, m.regs .esp] else []) ++
    [m.eflags, m.seg .cs, back] ++ error.toList

/-- Go through an interrupt gate. -/
def deliver (gate : Gate) (error : Option (BitVec 32)) (back : BitVec 32)
    (m : Machine) : Machine :=
  { ((platform.entryStack m).pushAll (entryWords m error back)).setSeg .cs
      gate.selector with
    eip := gate.offset
    eflags := setBit (setBit m.eflags flagIF false) flagTF false }

/-- `int`: a general protection fault at the instruction itself if the gate is
not for the current level. -/
def interrupt (vector : BitVec 8) (next : BitVec 32) (m : Machine) :
    Machine :=
  if (platform.idt vector).present ∧ m.cpl ≤ (platform.idt vector).dpl then
    platform.deliver (platform.idt vector) none next m
  else
    platform.deliver (platform.idt 13)
      (some (BitVec.ofNat 32 (8 * vector.toNat + 2))) m.eip m

def step (m : Machine) : Option Machine :=
  (platform.code m.eip).map fun (instr, next) =>
    match instr with
    | .op op => (op.exec m).goto next
    | .jl target =>
        m.goto (if m.flag flagSF ≠ m.flag flagOF then target else next)
    | .jg target =>
        m.goto (if ¬ m.flag flagZF ∧ m.flag flagSF = m.flag flagOF then target
          else next)
    | .jmp target => m.goto target
    | .call target => (m.push next).goto target
    | .callTable table index =>
        (m.push next).goto (loadWord m.mem (table + 4 * m.regs index))
    | .ret => m.drop.goto m.top
    | .int vector => platform.interrupt vector next m
    | .iret => m.interruptReturn

/-- What the machine comes to. -/
def Runs : Machine → Machine → Prop :=
  Relation.ReflTransGen fun m m' => platform.step m = some m'

/-- The instructions stand from one address to another. -/
def Placed : BitVec 32 → List Instr → BitVec 32 → Prop
  | addr, [], last => addr = last
  | addr, instr :: rest, last =>
      ∃ next, platform.code addr = some (instr, next) ∧ Placed next rest last

end Platform

section Flags

theorem getLsbD_setBit (word : BitVec 32) {i : Nat} (hi : i < 32)
    (value : Bool) (j : Nat) :
    (setBit word i value).getLsbD j =
      if i = j then value else word.getLsbD j := by
  have hbit : (1#32 <<< i).getLsbD j = decide (i = j) := by
    by_cases heq : i = j
    · subst heq
      simp [hi]
    · simp only [BitVec.getLsbD_shiftLeft, BitVec.getLsbD_one, heq,
        decide_false]
      grind
  rw [setBit, BitVec.getLsbD_or, BitVec.getLsbD_and, BitVec.getLsbD_not]
  cases value <;> grind

/-- The sign of a difference is wrong exactly if it overflows. -/
theorem sub_sign_iff (left right : BitVec 32) :
    ((left - right).msb ≠
        decide ((left - right).toInt ≠ left.toInt - right.toInt)) ↔
      left.toInt < right.toInt := by
  have hl := @BitVec.toInt_lt 32 left
  have hl' := BitVec.le_toInt left
  have hr := @BitVec.toInt_lt 32 right
  have hr' := BitVec.le_toInt right
  rw [BitVec.msb_eq_toInt, BitVec.toInt_sub, Int.bmod_def]
  generalize left.toInt = l at *
  generalize right.toInt = r at *
  simp only [ne_eq, decide_eq_decide]
  split <;> omega

theorem compareFlags_bits (left right eflags : BitVec 32) :
    (compareFlags left right eflags).getLsbD flagZF = (left == right) ∧
      (compareFlags left right eflags).getLsbD flagSF = (left - right).msb ∧
      (compareFlags left right eflags).getLsbD flagOF =
        decide ((left - right).toInt ≠ left.toInt - right.toInt) := by
  have hzero : (left - right == 0) = (left == right) := by
    rw [Bool.eq_iff_iff, beq_iff_eq, beq_iff_eq, BitVec.sub_eq_iff_eq_add]
    exact iff_of_eq (congrArg (left = ·) (BitVec.zero_add right))
  simp only [compareFlags, resultFlags, flagCF, flagPF, flagAF, flagZF, flagSF,
    flagOF, getLsbD_setBit _ (show 0 < 32 by decide),
    getLsbD_setBit _ (show 2 < 32 by decide),
    getLsbD_setBit _ (show 4 < 32 by decide),
    getLsbD_setBit _ (show 6 < 32 by decide),
    getLsbD_setBit _ (show 7 < 32 by decide),
    getLsbD_setBit _ (show 11 < 32 by decide), Nat.reduceEqDiff, ↓reduceIte,
    hzero, OfNat.zero_ne_ofNat, and_self]

/-- The other flags stay. -/
theorem getLsbD_logicFlags (result eflags : BitVec 32) {i : Nat}
    (hi : i ∉ [flagCF, flagPF, flagZF, flagSF, flagOF]) :
    (logicFlags result eflags).getLsbD i = eflags.getLsbD i := by
  simp only [List.mem_cons, List.not_mem_nil, or_false, not_or] at hi
  obtain ⟨h0, h2, h6, h7, h11⟩ := hi
  rw [logicFlags, getLsbD_setBit _ (by decide), if_neg (Ne.symm h0),
    getLsbD_setBit _ (by decide), if_neg (Ne.symm h11), resultFlags,
    getLsbD_setBit _ (by decide), if_neg (Ne.symm h2),
    getLsbD_setBit _ (by decide), if_neg (Ne.symm h7),
    getLsbD_setBit _ (by decide), if_neg (Ne.symm h6)]

/-- `jl` after a comparison. -/
theorem compareFlags_less (left right eflags : BitVec 32) :
    (compareFlags left right eflags).getLsbD flagSF ≠
        (compareFlags left right eflags).getLsbD flagOF ↔
      left.toInt < right.toInt := by
  obtain ⟨-, hsign, hover⟩ := compareFlags_bits left right eflags
  rw [hsign, hover]
  exact sub_sign_iff left right

/-- `jg` after a comparison. -/
theorem compareFlags_greater (left right eflags : BitVec 32) :
    ¬ (compareFlags left right eflags).getLsbD flagZF ∧
        (compareFlags left right eflags).getLsbD flagSF =
          (compareFlags left right eflags).getLsbD flagOF ↔
      right.toInt < left.toInt := by
  obtain ⟨hzero, hsign, hover⟩ := compareFlags_bits left right eflags
  have hless := not_iff_not.mpr (sub_sign_iff left right)
  rw [not_ne_iff] at hless
  rw [hzero, hsign, hover, hless, beq_iff_eq, ← BitVec.toInt_inj]
  omega

end Flags

namespace Machine

variable {m : Machine} {words : List (BitVec 32)}

theorem Stack.push (hstack : m.Stack words)
    (hroom : words.length ≤ maxStackWords) (value : BitVec 32) :
    (m.push value).Stack (value :: words) := by
  have hpushed := StackAt.push hstack hroom value
  simpa only [Machine.Stack, Machine.push, Function.update_self] using hpushed

/-- What pushes leave: the words on the stack and nothing else changed. -/
theorem pushAll_eq (values : List (BitVec 32)) (m : Machine) :
    (m.pushAll values).regs =
        Function.update m.regs .esp
          (m.regs .esp - 4 * BitVec.ofNat 32 values.length) ∧
      (m.pushAll values).seg = m.seg ∧ (m.pushAll values).eip = m.eip ∧
      (m.pushAll values).eflags = m.eflags := by
  induction values generalizing m with
  | nil => simp [pushAll]
  | cons value rest ih =>
      obtain ⟨hregs, hrest⟩ := ih (m.push value)
      refine ⟨?_, hrest⟩
      have haddr : m.regs .esp - 4 - 4 * BitVec.ofNat 32 rest.length =
          m.regs .esp - 4 * BitVec.ofNat 32 (rest.length + 1) := by
        rw [BitVec.ofNat_add, BitVec.mul_add, BitVec.mul_one,
          BitVec.add_comm, BitVec.sub_sub]
      have hesp : (m.push value).regs .esp = m.regs .esp - 4 := by
        simp only [push, Function.update_self]
      rw [List.length_cons, ← haddr, ← hesp]
      refine hregs.trans ?_
      exact Function.update_idem ..

theorem Stack.pushAll (hstack : m.Stack words) (values : List (BitVec 32))
    (hroom : values.length + words.length ≤ maxStackWords) :
    (m.pushAll values).Stack (values.reverse ++ words) := by
  induction values generalizing m words with
  | nil => exact hstack
  | cons value rest ih =>
      rw [List.length_cons] at hroom
      have hpushed := hstack.push (by omega) value
      have hrest := ih hpushed (by rw [List.length_cons]; omega)
      rw [List.reverse_cons, List.append_assoc]
      exact hrest

/-- Pop words into registers, the first one first. -/
def popRegs (m : Machine) (rs : List Reg) : Machine :=
  rs.foldl (fun m r => (Op.popReg r).exec m) m

/-- Pushing registers pushes the words in them. -/
theorem pushRegs_eq (rs : List Reg) (hesp : .esp ∉ rs) (m : Machine) :
    rs.foldl (fun m r => (Op.pushReg r).exec m) m =
      m.pushAll (rs.map m.regs) := by
  induction rs generalizing m with
  | nil => rfl
  | cons r rest ih =>
      have hrest : .esp ∉ rest := fun hmem => hesp (List.mem_cons_of_mem r hmem)
      have hsame : rest.map (m.push (m.regs r)).regs = rest.map m.regs := by
        apply List.map_congr_left
        intro other hother
        apply Function.update_of_ne
        rintro rfl
        exact hrest hother
      rw [List.foldl_cons, ih hrest, List.map_cons]
      show (m.push (m.regs r)).pushAll (rest.map (m.push (m.regs r)).regs) =
        (m.push (m.regs r)).pushAll (rest.map m.regs)
      rw [hsame]

/-- Popping gives registers the words from the stack pointer on. -/
theorem popRegs_eq {rs : List Reg} (hnodup : rs.Nodup) (hesp : .esp ∉ rs) :
    m.popRegs rs = { m with
      regs := fun r =>
        if r ∈ rs then
          loadWord m.mem (m.regs .esp + 4 * BitVec.ofNat 32 (rs.idxOf r))
        else if r = .esp then m.regs .esp + 4 * BitVec.ofNat 32 rs.length
        else m.regs r } := by
  induction rs generalizing m with
  | nil =>
      have hregs : (fun r => if r ∈ [] then
          loadWord m.mem (m.regs .esp + 4 * BitVec.ofNat 32 ([].idxOf r))
          else if r = .esp then m.regs .esp + 4 * BitVec.ofNat 32 0
          else m.regs r) = m.regs := by
        funext r
        by_cases hr : r = .esp
        · subst hr
          simp
        · simp [hr]
      exact congrArg (fun regs => { m with regs := regs }) hregs.symm
  | cons r rest ih =>
      obtain ⟨hnew, hnodup⟩ := List.nodup_cons.mp hnodup
      have hrest : .esp ∉ rest := fun hmem => hesp (List.mem_cons_of_mem r hmem)
      have hne : r ≠ .esp := by
        rintro rfl
        exact hesp List.mem_cons_self
      let popped := (Op.popReg r).exec m
      have hpoppedEsp : popped.regs .esp = m.regs .esp + 4 := by
        simp only [popped, Op.exec, set, drop, Function.update_of_ne hne.symm,
          Function.update_self]
      have hpoppedReg : popped.regs r = loadWord m.mem (m.regs .esp) := by
        simp only [popped, Op.exec, set, top, Function.update_self]
      have hother : ∀ other, other ≠ r → other ≠ .esp →
          popped.regs other = m.regs other := by
        intro other hr hesp
        simp only [popped, Op.exec, set, drop, Function.update_of_ne hr,
          Function.update_of_ne hesp]
      have haddr : ∀ n, m.regs .esp + 4 + 4 * BitVec.ofNat 32 n =
          m.regs .esp + 4 * BitVec.ofNat 32 (n + 1) := by
        intro n
        rw [BitVec.ofNat_add, BitVec.mul_add, BitVec.mul_one,
          BitVec.add_comm (4 * _), BitVec.add_assoc]
      have hpop : m.popRegs (r :: rest) = popped.popRegs rest := rfl
      rw [hpop, ih hnodup hrest, hpoppedEsp]
      refine congrArg (fun regs => { m with regs := regs }) ?_
      funext other
      by_cases hr : other = r
      · subst hr
        simp [hnew, hne, hpoppedReg]
      · by_cases hrest' : other ∈ rest
        · rw [if_pos hrest', if_pos (List.mem_cons_of_mem r hrest'),
            List.idxOf_cons_ne rest (Ne.symm hr), haddr]
          rfl
        · by_cases hother' : other = .esp
          · subst hother'
            rw [if_neg hrest, if_pos rfl, if_neg hesp, if_pos rfl, haddr]
            rfl
          · simp [hr, hrest', hother', hother other hr hother']

theorem Stack.drop {word : BitVec 32} (hstack : m.Stack (word :: words)) :
    m.top = word ∧ m.drop.Stack words := by
  refine ⟨hstack.1, ?_⟩
  have hesp : m.drop.regs .esp = m.regs .esp + 4 := by
    simp only [Machine.drop, set, Function.update_self]
  rw [Stack, hesp]
  exact hstack.2

/-- Three words further. -/
theorem drop_three (m : Machine) :
    m.drop.drop.drop = m.set .esp (m.regs .esp + 12) := by
  simp only [Machine.drop, set, Function.update_self, Function.update_idem,
    BitVec.add_assoc]
  rfl

/-- What an interrupt saves: where to go back to, and the stack pointer and
segment of an outer level. -/
def frame (m : Machine) (back : BitVec 32) (words : List (BitVec 32)) :
    List (BitVec 32) :=
  back :: m.seg .cs :: m.eflags ::
    if m.cpl = 3 then [m.regs .esp, m.seg .ss] else words

/-- Return to where the interrupt came from. -/
theorem interruptReturn_eq {m saved : Machine} {back : BitVec 32}
    (hlevel : m.cpl = 0) (hstack : m.Stack (saved.frame back words))
    (hsaved : saved.cpl = 0 ∨ saved.cpl = 3) :
    m.interruptReturn = { m with
      eip := back
      eflags := saved.eflags
      regs := Function.update m.regs .esp
        (if saved.cpl = 3 then saved.regs .esp else m.regs .esp + 12)
      seg := if saved.cpl = 3 then
          Function.update (Function.update m.seg .cs (saved.seg .cs)) .ss
            (saved.seg .ss)
        else Function.update m.seg .cs (saved.seg .cs) } := by
  obtain ⟨heip, hrest⟩ := hstack.drop
  obtain ⟨hcs, hrest⟩ := hrest.drop
  obtain ⟨hflags, hrest⟩ := hrest.drop
  rw [interruptReturn, hcs, hflags, heip, drop_three]
  have hcpl : ({ (m.set .esp (m.regs .esp + 12)).setSeg .cs (saved.seg .cs) with
      eip := back, eflags := saved.eflags } : Machine).cpl = saved.cpl := by
    simp only [cpl, setSeg, Function.update_self]
  simp only [hcpl, hlevel]
  rcases hsaved with hsame | houter
  · rw [hsame]
    rfl
  · rw [houter] at hrest ⊢
    rw [drop_three] at hrest
    obtain ⟨hesp, hrest⟩ := Stack.drop hrest
    obtain ⟨hss, -⟩ := Stack.drop hrest
    have hesp' : loadWord m.mem (m.regs .esp + 12) = saved.regs .esp := by
      simpa only [top, set, Function.update_self] using hesp
    have hss' : loadWord m.mem (m.regs .esp + 12 + 4) = saved.seg .ss := by
      simpa only [top, Machine.drop, set, Function.update_self] using hss
    simp only [top, Machine.drop, set, setSeg, Function.update_self,
      Function.update_idem, hesp', hss', gt_iff_lt, Nat.ofNat_pos, ↓reduceIte]

/-- Pushes change nothing but the words they push. -/
theorem pushAll_mem {values : List (BitVec 32)}
    (hroom : 4 * values.length ≤ (m.regs .esp).toNat) :
    Set.EqOn (m.pushAll values).mem m.mem
      (Set.Ico ((m.regs .esp).toNat - 4 * values.length)
        (m.regs .esp).toNat)ᶜ := by
  induction values generalizing m with
  | nil => exact Set.eqOn_refl ..
  | cons value rest ih =>
      rw [List.length_cons] at hroom ⊢
      have hesp : (m.push value).regs .esp = m.regs .esp - 4 := by
        simp only [push, Function.update_self]
      have hnat : (m.regs .esp - 4).toNat = (m.regs .esp).toNat - 4 :=
        toNat_sub_four (by omega)
      have hrest := @ih (m.push value) (by rw [hesp, hnat]; omega)
      rw [hesp, hnat] at hrest
      intro a ha
      rw [Set.mem_compl_iff, Set.mem_Ico] at ha
      calc (m.pushAll (value :: rest)).mem a
        _ = (m.push value).mem a := by
            apply hrest
            rw [Set.mem_compl_iff, Set.mem_Ico]
            omega
        _ = m.mem a := by
            apply storeWord_of_outside
            · rw [hnat]; omega
            · rw [hnat]; omega

end Machine

namespace Platform

variable {platform : Platform} {m m' : Machine}

/-- These instructions do not look at their own address. -/
theorem foldl_exec_eip (ops : List Op) (m : Machine) (addr : BitVec 32) :
    ops.foldl (fun m op => op.exec m) (m.goto addr) =
      (ops.foldl (fun m op => op.exec m) m).goto addr := by
  induction ops generalizing m with
  | nil => rfl
  | cons op rest ih =>
      have hexec : op.exec (m.goto addr) = (op.exec m).goto addr := by
        cases op <;> rfl
      rw [List.foldl_cons, hexec, ih, List.foldl_cons]

theorem Runs.trans {middle last : Machine} (hfirst : platform.Runs m middle)
    (hsecond : platform.Runs middle last) : platform.Runs m last :=
  Relation.ReflTransGen.trans hfirst hsecond

/-- One instruction. -/
theorem runs_step {next : Machine} (hstep : platform.step m = some next) :
    platform.Runs m next :=
  Relation.ReflTransGen.single hstep

theorem Placed.append (first : List Instr) {second : List Instr}
    {addr last : BitVec 32}
    (hplaced : platform.Placed addr (first ++ second) last) :
    ∃ middle, platform.Placed addr first middle ∧
      platform.Placed middle second last := by
  induction first generalizing addr with
  | nil => exact ⟨addr, rfl, hplaced⟩
  | cons instr rest ih =>
      obtain ⟨next, hcode, hrest⟩ := hplaced
      obtain ⟨middle, hfirst, hsecond⟩ := ih hrest
      exact ⟨middle, ⟨next, hcode, hfirst⟩, hsecond⟩

/-- Code from address 0 on, with one address for each instruction. -/
def laidOut (code : List Instr) (addr : BitVec 32) :
    Option (Instr × BitVec 32) :=
  code[addr.toNat]?.map fun instr => (instr, addr + 1)

theorem placed_laidOut (code front part rest : List Instr)
    (hcode : platform.code = laidOut code) (hparts : code = front ++ part ++ rest)
    (hlength : code.length < 2 ^ 32) :
    platform.Placed (BitVec.ofNat 32 front.length) part
      (BitVec.ofNat 32 (front.length + part.length)) := by
  induction part generalizing front with
  | nil => exact rfl
  | cons instr part ih =>
      have hparts' : code = front ++ [instr] ++ part ++ rest := by
        simpa using hparts
      have hplaced := ih (front ++ [instr]) hparts'
      rw [List.length_append, List.length_singleton, BitVec.ofNat_add,
        Nat.add_assoc, Nat.add_comm 1] at hplaced
      refine ⟨_, ?_, hplaced⟩
      have hsmall : front.length < 2 ^ 32 := by
        rw [hparts, List.length_append, List.length_append] at hlength
        omega
      rw [hcode, laidOut, BitVec.toNat_ofNat, Nat.mod_eq_of_lt hsmall, hparts]
      simp

/-- Instructions without jumps, one after the other. -/
theorem runs_ops {ops : List Op} {addr last : BitVec 32}
    (hplaced : platform.Placed addr (ops.map .op) last) (heip : m.eip = addr) :
    platform.Runs m ((ops.foldl (fun m op => op.exec m) m).goto last) := by
  induction ops generalizing m addr with
  | nil =>
      obtain rfl : addr = last := hplaced
      rw [List.foldl_nil, ← heip]
      exact .refl
  | cons op rest ih =>
      obtain ⟨next, hcode, hrest⟩ := hplaced
      have hstep : platform.step m = some ((op.exec m).goto next) := by
        rw [step, heip, hcode]
        rfl
      have hlater := @ih ((op.exec m).goto next) next hrest rfl
      rw [foldl_exec_eip] at hlater
      exact (runs_step hstep).trans hlater

section Compare

variable {r : Reg} {value addr target next : BitVec 32}

/-- The machine after a comparison, at an address. -/
def compared (m : Machine) (r : Reg) (value eip : BitVec 32) : Machine :=
  { m.goto eip with eflags := compareFlags (m.regs r) value m.eflags }

theorem runs_cmp_jl (hplaced : platform.Placed addr
    [.op (.cmpImm r value), .jl target] next) (heip : m.eip = addr) :
    platform.Runs m (compared m r value
      (if (m.regs r).toInt < value.toInt then target else next)) := by
  obtain ⟨jump, hcmp, after, hjl, rfl⟩ := hplaced
  have hfirst : platform.step m = some (compared m r value jump) := by
    rw [step, heip, hcmp]
    rfl
  have hless := compareFlags_less (m.regs r) value m.eflags
  have hsecond : platform.step (compared m r value jump) =
      some (compared m r value
        (if (m.regs r).toInt < value.toInt then target else after)) := by
    have hcode : platform.code (compared m r value jump).eip =
        some (.jl target, after) := hjl
    rw [step, hcode]
    refine congrArg (fun eip => some (compared m r value eip)) ?_
    exact if_congr hless rfl rfl
  exact (runs_step hfirst).trans (runs_step hsecond)

theorem runs_cmp_jg (hplaced : platform.Placed addr
    [.op (.cmpImm r value), .jg target] next) (heip : m.eip = addr) :
    platform.Runs m (compared m r value
      (if value.toInt < (m.regs r).toInt then target else next)) := by
  obtain ⟨jump, hcmp, after, hjg, rfl⟩ := hplaced
  have hfirst : platform.step m = some (compared m r value jump) := by
    rw [step, heip, hcmp]
    rfl
  have hgreater := compareFlags_greater (m.regs r) value m.eflags
  have hsecond : platform.step (compared m r value jump) =
      some (compared m r value
        (if value.toInt < (m.regs r).toInt then target else after)) := by
    have hcode : platform.code (compared m r value jump).eip =
        some (.jg target, after) := hjg
    rw [step, hcode]
    refine congrArg (fun eip => some (compared m r value eip)) ?_
    exact if_congr hgreater rfl rfl
  exact (runs_step hfirst).trans (runs_step hsecond)

end Compare

section Deliver

variable {gate : Gate} {error : Option (BitVec 32)} {back : BitVec 32}
  {words : List (BitVec 32)}

/-- Where the frame is saved. -/
def entryEsp (platform : Platform) (m : Machine) : BitVec 32 :=
  if m.cpl = 3 then platform.esp0 else m.regs .esp

theorem entryStack_eq :
    (platform.entryStack m).regs =
        Function.update m.regs .esp (platform.entryEsp m) ∧
      (platform.entryStack m).mem = m.mem ∧
      (platform.entryStack m).seg =
        if m.cpl = 3 then Function.update m.seg .ss platform.ss0 else m.seg := by
  rw [entryStack, entryEsp]
  by_cases houter : m.cpl = 3
  · rw [if_pos houter, if_pos houter, if_pos houter]
    exact ⟨rfl, rfl, rfl⟩
  · rw [if_neg houter, if_neg houter, if_neg houter, Function.update_eq_self]
    exact ⟨rfl, rfl, rfl⟩

/-- An interrupt changes the stack, the code segment and the flags. -/
theorem deliver_regs :
    (platform.deliver gate error back m).regs =
        Function.update m.regs .esp (platform.entryEsp m -
          4 * BitVec.ofNat 32 (entryWords m error back).length) ∧
      (platform.deliver gate error back m).seg =
        Function.update (if m.cpl = 3 then
          Function.update m.seg .ss platform.ss0 else m.seg) .cs
          gate.selector := by
  obtain ⟨hentry, -, hseg⟩ := @entryStack_eq platform m
  obtain ⟨hregs, hsegs, -⟩ := Machine.pushAll_eq (entryWords m error back)
    (platform.entryStack m)
  constructor
  · refine hregs.trans ?_
    rw [hentry, Function.update_self, Function.update_idem]
  · rw [← hseg, ← hsegs]
    rfl

theorem entryWords_length (m : Machine) (error : Option (BitVec 32))
    (back : BitVec 32) :
    (entryWords m error back).length =
      (if m.cpl = 3 then 5 else 3) + error.toList.length := by
  rw [entryWords]
  split <;> simp only [List.length_append, List.length_cons, List.length_nil]

/-- It saves where it came from. -/
theorem deliver_stack (hstack : m.Stack words)
    (hroom : words.length + 6 ≤ maxStackWords) :
    (platform.deliver gate error back m).Stack
      (error.toList ++ m.frame back words) := by
  have hlength : (entryWords m error back).length ≤ 6 := by
    rw [entryWords_length]
    cases error <;> split <;> simp
  have hreverse : error.toList.reverse = error.toList := by cases error <;> rfl
  by_cases houter : m.cpl = 3
  · have hempty : (platform.entryStack m).Stack [] := trivial
    have hpushed := hempty.pushAll (entryWords m error back) (by
      rw [List.length_nil]
      omega)
    have hwords : (entryWords m error back).reverse ++ [] =
        error.toList ++ m.frame back words := by
      simp [entryWords, Machine.frame, houter, hreverse]
    rwa [hwords] at hpushed
  · have hinner : (platform.entryStack m).Stack words := by
      rw [entryStack, if_neg houter]
      exact hstack
    have hpushed := hinner.pushAll (entryWords m error back) (by omega)
    have hwords : (entryWords m error back).reverse ++ words =
        error.toList ++ m.frame back words := by
      simp [entryWords, Machine.frame, houter, hreverse]
    rwa [hwords] at hpushed

theorem deliver_mem
    (hroom : 4 * (entryWords m error back).length ≤
      (platform.entryEsp m).toNat) :
    Set.EqOn (platform.deliver gate error back m).mem m.mem
      (Set.Ico ((platform.entryEsp m).toNat -
        4 * (entryWords m error back).length)
        (platform.entryEsp m).toNat)ᶜ := by
  obtain ⟨hregs, hmem, -⟩ := @entryStack_eq platform m
  have hesp : (platform.entryStack m).regs .esp = platform.entryEsp m := by
    rw [hregs, Function.update_self]
  have hpush := @Machine.pushAll_mem (platform.entryStack m)
    (entryWords m error back) (by rw [hesp]; exact hroom)
  rw [hesp, hmem] at hpush
  exact hpush

/-- Back from an interrupt, with the frame still there: only the registers are
as they were left. -/
theorem deliver_interruptReturn {m' : Machine}
    (hselector : gate.selector.toNat % 4 = 0)
    (hlevels : m.cpl = 0 ∨ m.cpl = 3)
    (hroom : 4 * (entryWords m none back).length ≤
      (platform.entryEsp m).toNat)
    (hseg : m'.seg = (platform.deliver gate none back m).seg)
    (hesp : m'.regs .esp = (platform.deliver gate none back m).regs .esp)
    (hmem : Set.EqOn m'.mem (platform.deliver gate none back m).mem
      (Set.Ico ((platform.entryEsp m).toNat -
        4 * (entryWords m none back).length)
        (platform.entryEsp m).toNat)) :
    m'.interruptReturn = { m' with
      eip := back
      eflags := m.eflags
      seg := m.seg
      regs := Function.update m'.regs .esp (m.regs .esp) } := by
  have hword := (platform.entryEsp m).isLt
  obtain ⟨hregs, hsegs⟩ := @deliver_regs platform m gate none back
  have hlevel : m'.cpl = 0 := by
    rw [Machine.cpl, hseg, hsegs, Function.update_self]
    exact hselector
  have hesp' : (m'.regs .esp).toNat = (platform.entryEsp m).toNat -
      4 * (entryWords m none back).length := by
    rw [hesp, hregs, Function.update_self]
    exact toNat_sub_words hroom
  have hlength : (m.frame back []).length = (entryWords m none back).length := by
    rw [Machine.frame, entryWords]
    split <;> rfl
  have hstack : m'.Stack (m.frame back []) := by
    have hdelivered := @deliver_stack platform m gate none back [] trivial
      (by decide)
    rw [Machine.Stack, ← hesp] at hdelivered
    apply StackAt.congr hdelivered
    · show _ + 4 * (m.frame back []).length ≤ _
      omega
    · show Set.EqOn _ _ (Set.Ico _ (_ + 4 * (m.frame back []).length))
      rw [hesp', hlength, Nat.sub_add_cancel hroom]
      exact hmem
  rw [Machine.interruptReturn_eq hlevel hstack hlevels]
  rcases hlevels with hinner | houter
  · have hne : ¬ m.cpl = 3 := by rw [hinner]; decide
    have hlength' : (entryWords m none back).length = 3 := by
      rw [entryWords, if_neg hne]
      rfl
    have hback : m'.regs .esp + 12 = m.regs .esp := by
      rw [hesp, hregs, Function.update_self, hlength', entryEsp, if_neg hne]
      exact BitVec.sub_add_cancel ..
    simp only [if_neg hne, hback, hseg, hsegs, Function.update_idem,
      Function.update_eq_self]
  · have hback : Function.update (Function.update m'.seg .cs (m.seg .cs)) .ss
        (m.seg .ss) = m.seg := by
      funext s
      rw [hseg, hsegs, if_pos houter]
      cases s <;> rfl
    simp only [if_pos houter, hback]

end Deliver

end Platform

end PsychOS
