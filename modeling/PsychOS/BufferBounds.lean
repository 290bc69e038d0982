/-
Buffers of programs.  `read` and `getargs` take the size of the buffer they
fill as a signed number.  They keep to a size that is not negative, and take a
negative one for a very large one.
-/
import PsychOS.UserPointers

namespace PsychOS

/-- The calls that fill a buffer of the program. -/
inductive FillCall where
  | read (fd nbytes : Int)
  | getargs (nbytes : Int)

namespace FillCall

def nbytes : FillCall → Int
  | .read _ nbytes => nbytes
  | .getargs nbytes => nbytes

def toUserCall : FillCall → UserCall
  | .read fd nbytes => .read fd nbytes
  | .getargs nbytes => .getargs nbytes

/-- The result and the bytes stored, once the call completes. -/
def perform (img : Image) (pcb : Pcb) (tty : Tty) (buf : Nat) :
    FillCall → Option (Int × List UInt8)
  | .read fd nbytes =>
      (syscallRead img pcb tty fd buf nbytes).map fun outcome =>
        (outcome.ret, outcome.stored)
  | .getargs nbytes => syscallGetargs pcb buf nbytes

end FillCall

/-- The bytes are stored in the buffer, and the result does not claim more. -/
def WithinBuffer (buf : Nat) (nbytes : Int) (result : Int × List UInt8) :
    Prop :=
  (∀ addr ∈ touched buf result.2.length, addr ∈ touched buf nbytes.toNat) ∧
    result.1 ≤ max nbytes 0

instance (buf : Nat) (nbytes : Int) (result : Int × List UInt8) :
    Decidable (WithinBuffer buf nbytes result) :=
  inferInstanceAs (Decidable (_ ∧ _))

/-- There is something to read at the descriptor: a line, a name that was not
read yet, or bytes of the file. -/
def HasData (img : Image) (pcb : Pcb) (tty : Tty) (f : FileDesc) :
    FileOps → Prop
  | .stdin => charNewline ∈ tty.pending pcb.terminalNum
  | .dir => f.filePosition < img.numDirectoryEntries
  | .file =>
      (f.inode < img.numInodes ∧ f.filePosition < img.fileLength f.inode) ∧
        img.dataBlocks f.inode (f.filePosition / fsBlockSize) <
          img.numDataBlocks
  | .rtc => False
  | .stdout => False

/-- The call has something to store.  The arguments end with a terminator and
so are never empty. -/
def FillCall.HasData (img : Image) (pcb : Pcb) (tty : Tty) : FillCall → Prop
  | .read fd _ => ∃ f fops, pcb.openFd fd = some (f, fops) ∧
      PsychOS.HasData img pcb tty f fops
  | .getargs _ => True

section Arguments

variable {pcb : Pcb}

theorem strlenFrom_le {mem : Memory UInt8} {addr k fuel : Nat}
    (hzero : mem (addr + k) = 0) (hfuel : k < fuel) :
    ∃ length ≤ k, strlenFrom mem addr fuel = some length := by
  induction fuel generalizing addr k with
  | zero => exact absurd hfuel (Nat.not_lt_zero k)
  | succ fuel ih =>
      rw [strlenFrom]
      by_cases hend : mem addr = 0
      · exact ⟨0, Nat.zero_le k, if_pos hend⟩
      · cases k with
        | zero => exact absurd hzero hend
        | succ k =>
            have hrest : mem (addr + 1 + k) = 0 := by
              rwa [Nat.add_right_comm, Nat.add_assoc]
            obtain ⟨length, hle, hlength⟩ := ih hrest (by omega)
            refine ⟨length + 1, by omega, ?_⟩
            rw [if_neg hend, hlength, Option.map_some]

/-- `strlen` on the arguments ends at the latest in the upper bytes of
`status`, which are zero. -/
theorem argsLength_le (pcb : Pcb) :
    ∃ length ≤ 153, pcb.argsLength = some length := by
  apply strlenFrom_le
  · cases hstatus : pcb.status <;>
      simp [Pcb.bytes, entrypointOffset, maxProgramNameLength,
        maxArgsLength, hstatus, Status.code, byteOf]
  · decide

end Arguments

section Lengths

variable {img : Image} {layout : Layout} {pcb : Pcb} {tty : Tty}
  {f : FileDesc} {buf : Nat} {nbytes : Int}

theorem lineLength_pos (pending : List UInt8) :
    0 < lineLength pending ↔ charNewline ∈ pending := by
  constructor
  · intro hpos
    by_contra hnone
    rw [lineLength_of_not_mem hnone] at hpos
    exact Nat.lt_irrefl 0 hpos
  · intro hmem
    obtain ⟨line, rest, rfl, hline⟩ := List.eq_append_cons_of_mem hmem
    rw [lineLength_append_newline hline]
    exact Nat.succ_pos _

theorem toUint32_of_neg (hlo : -2 ^ 31 ≤ nbytes) (hneg : nbytes < 0) :
    2 ^ 31 ≤ toUint32 nbytes := by
  rw [toUint32]
  omega

/-- A size that is not negative is kept to. -/
theorem readTransfer_le (hnonneg : 0 ≤ nbytes) (hhi : nbytes < 2 ^ 31)
    (fops : FileOps) :
    readTransfer img pcb tty nbytes f fops ≤ nbytes.toNat := by
  have hsize : toUint32 nbytes = nbytes.toNat :=
    toUint32_of_nonneg hnonneg (by omega)
  cases fops with
  | stdin =>
      rw [readTransfer, hsize]
      exact Nat.min_le_right _ _
  | stdout => exact Nat.zero_le _
  | rtc => exact Nat.zero_le _
  | dir =>
      rw [readTransfer]
      split
      · split
        · exact Nat.le_of_eq hsize
        · omega
      · exact Nat.zero_le _
  | file =>
      rw [readTransfer]
      split
      · rename_i hinside
        refine (readable_le _ _).trans ?_
        rw [← hsize]
        exact wanted_le hinside.2
      · exact Nat.zero_le _

/-- With a negative size everything there is is stored. -/
theorem readTransfer_pos (hlo : -2 ^ 31 ≤ nbytes) (hneg : nbytes < 0)
    (fops : FileOps) :
    0 < readTransfer img pcb tty nbytes f fops ↔
      HasData img pcb tty f fops := by
  have hsize := toUint32_of_neg hlo hneg
  cases fops with
  | stdin =>
      rw [readTransfer, HasData, ← lineLength_pos, Nat.lt_min]
      exact and_iff_left (by omega)
  | stdout => exact iff_of_false (Nat.lt_irrefl 0) id
  | rtc => exact iff_of_false (Nat.lt_irrefl 0) id
  | dir =>
      rw [readTransfer, HasData]
      split
      · rename_i hinside
        refine iff_of_true ?_ hinside
        rw [if_pos (by omega)]
        omega
      · exact iff_of_false (Nat.lt_irrefl 0) ‹_›
  | file =>
      rw [readTransfer, HasData]
      split
      · rename_i hinside
        rw [readable_pos (wanted_pos hinside.2 (by omega))]
        exact (and_iff_right hinside).symm
      · exact iff_of_false (Nat.lt_irrefl 0) fun h => absurd h.1 ‹_›

theorem transferLength_le {call : FillCall} (hnonneg : 0 ≤ call.nbytes)
    (hhi : call.nbytes < 2 ^ 31) :
    call.toUserCall.transferLength img pcb tty ≤ call.nbytes.toNat := by
  cases call with
  | read fd nbytes =>
      rw [FillCall.toUserCall, UserCall.transferLength]
      cases pcb.openFd fd with
      | none => exact Nat.zero_le _
      | some found => exact readTransfer_le hnonneg hhi found.2
  | getargs nbytes =>
      obtain ⟨length, hlength, hargs⟩ := argsLength_le pcb
      have hsize := toUint32_of_nonneg hnonneg (by omega)
      rw [FillCall.toUserCall, UserCall.transferLength, hargs,
        Option.elim_some]
      simp only [FillCall.nbytes] at hsize ⊢
      split <;> omega

theorem transferLength_pos {call : FillCall} (hlo : -2 ^ 31 ≤ call.nbytes)
    (hneg : call.nbytes < 0) :
    0 < call.toUserCall.transferLength img pcb tty ↔
      call.HasData img pcb tty := by
  cases call with
  | read fd nbytes =>
      rw [FillCall.toUserCall, UserCall.transferLength, FillCall.HasData]
      cases hopen : pcb.openFd fd with
      | none =>
          refine iff_of_false (Nat.lt_irrefl 0) ?_
          rintro ⟨f, fops, hnone, -⟩
          cases hnone
      | some found =>
          obtain ⟨f, fops⟩ := found
          refine (readTransfer_pos hlo hneg fops).trans ?_
          constructor
          · intro hdata
            exact ⟨f, fops, rfl, hdata⟩
          · rintro ⟨_, _, ⟨rfl, rfl⟩, hdata⟩
            exact hdata
  | getargs nbytes =>
      obtain ⟨length, hlength, hargs⟩ := argsLength_le pcb
      have hsize := toUint32_of_neg hlo hneg
      refine iff_of_true ?_ trivial
      rw [FillCall.toUserCall, UserCall.transferLength, hargs,
        Option.elim_some]
      simp only [FillCall.nbytes] at hsize
      rw [if_pos (by omega)]
      exact Nat.succ_pos length

end Lengths

section Results

variable {img : Image} {layout : Layout} {pcb : Pcb} {tty : Tty}
  {f : FileDesc} {buf : Nat} {nbytes : Int}

theorem toInt32_le (value : Nat) : toInt32 value ≤ value := by
  rw [toInt32]
  split <;> omega

theorem neg_one_le_length (stored : List UInt8) :
    (-1 : Int) ≤ stored.length := by
  omega

/-- The loop of `read_data` returns -1 or counts the bytes it stored. -/
theorem readDataLoop_ret (inode length fuel blockNum filePos blockPos : Nat)
    (written : List UInt8) :
    (img.readDataLoop inode length fuel blockNum filePos blockPos written).1 ≤
      (img.readDataLoop inode length fuel blockNum filePos blockPos
        written).2.length := by
  induction fuel generalizing blockNum filePos blockPos written with
  | zero => exact toInt32_le _
  | succ fuel ih =>
      rw [Image.readDataLoop]
      split
      · dsimp only
        split
        · exact neg_one_le_length _
        · exact ih _ _ _ _
      · exact toInt32_le _

theorem readData_ret (inode offset length : Nat) :
    (img.readData inode offset length).1 ≤
      (img.readData inode offset length).2.length := by
  rw [Image.readData]
  split
  · exact neg_one_le_length _
  · split
    · exact Int.le_refl 0
    · exact readDataLoop_ret _ _ _ _ _ _ _

theorem fileRead_ret (f : FileDesc) (nbytes : Int) :
    (fileRead img f nbytes).2.1 ≤ (fileRead img f nbytes).2.2.length := by
  have hdata := @readData_ret img f.inode f.filePosition (toUint32 nbytes)
  unfold fileRead
  generalize img.readData f.inode f.filePosition (toUint32 nbytes) = read
    at hdata
  dsimp only
  split
  · exact neg_one_le_length _
  · exact hdata

theorem dirRead_ret (f : FileDesc) (nbytes : Int) :
    (dirRead img f nbytes).2.1 ≤ (dirRead img f nbytes).2.2.length := by
  unfold dirRead
  split
  · exact Int.le_refl 0
  · dsimp only
    rw [Memory.load_length, toUint32]
    simp only [maxFileNameLength]
    split <;> omega

theorem readHandler_ret {fd : Nat} {fops : FileOps} {outcome : ReadOutcome}
    (hread : readHandler img pcb tty fd f nbytes fops = some outcome) :
    outcome.ret ≤ outcome.stored.length := by
  cases fops with
  | stdin =>
      obtain ⟨⟨bytes, next⟩, -, rfl⟩ := Option.map_eq_some_iff.mp hread
      exact toInt32_le _
  | stdout =>
      rw [← Option.some.inj hread]
      exact neg_one_le_length _
  | rtc =>
      rw [readHandler] at hread
      split at hread
      · rw [← Option.some.inj hread]
        exact neg_one_le_length _
      · obtain ⟨-, heq⟩ := Option.ite_none_left_eq_some.mp hread
        rw [← Option.some.inj heq]
        exact Int.le_refl 0
  | dir =>
      rw [← Option.some.inj hread]
      exact dirRead_ret f nbytes
  | file =>
      rw [← Option.some.inj hread]
      exact fileRead_ret f nbytes

/-- No call returns more than it stored. -/
theorem perform_ret {call : FillCall} {result : Int × List UInt8}
    (hcall : call.perform img pcb tty buf = some result) :
    result.1 ≤ result.2.length := by
  cases call with
  | read fd nbytes =>
      obtain ⟨outcome, hread, rfl⟩ := Option.map_eq_some_iff.mp hcall
      rcases syscallRead_cases hread with ⟨rfl, -⟩ | ⟨f, fops, -, -, hhandler⟩
      · exact neg_one_le_length _
      · exact readHandler_ret hhandler
  | getargs nbytes =>
      rw [FillCall.perform, syscallGetargs] at hcall
      split at hcall
      · rw [← Option.some.inj hcall]
        exact neg_one_le_length _
      · obtain ⟨length, -, rfl⟩ := Option.map_eq_some_iff.mp hcall
        split
        · exact neg_one_le_length _
        · dsimp only
          omega

theorem perform_transferred {call : FillCall} {result : Int × List UInt8}
    (user : Memory UInt8)
    (hcall : call.perform img pcb tty buf = some result) :
    call.toUserCall.transferred img pcb tty user buf = some result.2 := by
  cases call with
  | read fd nbytes =>
      obtain ⟨outcome, hread, rfl⟩ := Option.map_eq_some_iff.mp hcall
      exact Option.map_eq_some_iff.mpr ⟨outcome, hread, rfl⟩
  | getargs nbytes =>
      exact Option.map_eq_some_iff.mpr ⟨result, hcall, rfl⟩

theorem perform_refused {call : FillCall} {result : Int × List UInt8}
    (hfails : ¬ call.toUserCall.Passes buf)
    (hcall : call.perform img pcb tty buf = some result) :
    result.2 = [] := by
  have hcheck : inPageBounds buf call.nbytes = false := by
    cases call <;> exact Bool.eq_false_iff.mpr hfails
  cases call with
  | read fd nbytes =>
      obtain ⟨outcome, hread, rfl⟩ := Option.map_eq_some_iff.mp hcall
      rcases syscallRead_cases hread with ⟨rfl, -⟩ | ⟨f, fops, hpasses, -⟩
      · rfl
      · exact absurd hpasses (Bool.eq_false_iff.mp hcheck)
  | getargs nbytes =>
      simp only [FillCall.nbytes] at hcheck
      rw [FillCall.perform, syscallGetargs, hcheck] at hcall
      rw [← Option.some.inj hcall]

theorem touched_subset_iff {buf first second : Nat}
    (hsecond : second < 2 ^ 32) :
    (∀ addr ∈ touched buf first, addr ∈ touched buf second) ↔
      first ≤ second := by
  simp only [touched, List.mem_map, List.mem_range]
  constructor
  · intro hall
    by_contra hmore
    obtain ⟨i, hi, heq⟩ := hall _ ⟨second, by omega, rfl⟩
    omega
  · rintro hle addr ⟨i, hi, rfl⟩
    exact ⟨i, by omega, rfl⟩

/-- A call stays within its buffer exactly if it stores no more bytes than the
buffer has. -/
theorem withinBuffer_iff {result : Int × List UInt8}
    (hret : result.1 ≤ result.2.length) (hhi : nbytes < 2 ^ 31) :
    WithinBuffer buf nbytes result ↔ result.2.length ≤ nbytes.toNat := by
  rw [WithinBuffer, touched_subset_iff (by omega)]
  apply and_iff_left_of_imp
  intro hle
  omega

end Results

/-- A completed `read` or `getargs` stays within the buffer exactly if it does
not pass its check, or the size is not negative, or there is nothing to
store. -/
theorem fills_within_buffer_iff {img : Image} {layout : Layout} {pcb : Pcb}
    {tty : Tty} {call : FillCall} {buf : Nat} {result : Int × List UInt8}
    (hfiles : ∀ inode, img.fileLength inode < 2 ^ 32)
    (hready : tty.InputReady layout pcb.terminalNum)
    (hlo : -2 ^ 31 ≤ call.nbytes) (hhi : call.nbytes < 2 ^ 31)
    (hcall : call.perform img pcb tty buf = some result) :
    WithinBuffer buf call.nbytes result ↔
      (call.toUserCall.Passes buf →
        0 ≤ call.nbytes ∨ ¬ call.HasData img pcb tty) := by
  rw [withinBuffer_iff (perform_ret hcall) hhi]
  by_cases hpasses : call.toUserCall.Passes buf
  · rw [transferred_length hfiles hready hpasses
      (perform_transferred (fun _ => 0) hcall)]
    simp only [hpasses, forall_const]
    by_cases hnonneg : 0 ≤ call.nbytes
    · exact iff_of_true (transferLength_le hnonneg hhi)
        (Or.inl hnonneg)
    · have hneg : call.nbytes < 0 := Int.not_le.mp hnonneg
      have hpos := @transferLength_pos img pcb tty call hlo hneg
      rw [← hpos]
      omega
  · rw [perform_refused hpasses hcall]
    exact iff_of_true (Nat.zero_le _) fun h => absurd h hpasses

theorem lineRead_within_buffer :
    (FillCall.read 0 10).perform shellImage samplePcb sampleLine 0x8048000 =
        some (2, [97, 10]) ∧
      WithinBuffer 0x8048000 10 (2, [97, 10]) := by
  have hcall : (FillCall.read 0 10).perform shellImage samplePcb sampleLine
      0x8048000 = some (2, [97, 10]) := by decide +kernel
  have hfiles (inode : Nat) : shellImage.fileLength inode < 2 ^ 32 :=
    show 28 < 2 ^ 32 by decide
  have hready : sampleLine.InputReady sampleLayout samplePcb.terminalNum :=
    (keyboardPutc_spec (keyboardPutc_spec
      (resetTerminal_ready sampleLayout Tty.zeroed 0) 97).ready
        charNewline).ready
  exact ⟨hcall, (fills_within_buffer_iff hfiles hready (by decide)
    (by decide) hcall).mpr fun _ => Or.inl (by decide)⟩

/-- A process that has opened the program it runs. -/
def fileOpenedPcb : Pcb :=
  (syscallOpen shellImage samplePcb (cString [115])).1

/-- A size of -1 makes a read of a line and of a file store all there is, and
the arguments are copied as well, into a buffer of no bytes. -/
theorem negative_size_overruns :
    (∃ result ∈ (FillCall.read 0 (-1)).perform shellImage samplePcb sampleLine
        0x8048000, result.1 = 2 ∧ ¬ WithinBuffer 0x8048000 (-1) result) ∧
      (∃ result ∈ (FillCall.read 2 (-1)).perform shellImage fileOpenedPcb
        sampleLine 0x8048000,
        result.1 = 28 ∧ ¬ WithinBuffer 0x8048000 (-1) result) ∧
      ∃ result ∈ (FillCall.getargs (-1)).perform shellImage samplePcb
        sampleLine 0x8048000,
        result = (0, [0]) ∧ ¬ WithinBuffer 0x8048000 (-1) result := by
  decide +kernel

end PsychOS
