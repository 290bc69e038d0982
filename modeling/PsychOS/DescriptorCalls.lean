/-
What the file system calls do to the descriptors of a process: one lemma per
call, with its guards.  Everything later about descriptors goes through these.
-/
import PsychOS.Descriptors

namespace PsychOS

section Open

variable {img : Image} {pcb : Pcb}

theorem openFd_eq_some {fd : Nat} {fops : FileOps}
    (hfd : fd < maxFileDescriptors) (huse : (pcb.fa fd).inUse = true)
    (hfops : (pcb.fa fd).fops = some fops) :
    pcb.openFd fd = some (pcb.fa fd, fops) := by
  have hrange : ¬ ((fd : Int) < 0 ∨ (fd : Int) ≥ maxFileDescriptors) := by
    omega
  simp only [Pcb.openFd, hrange, Int.toNat_natCast, huse, hfops, ↓reduceIte,
    Option.map_some]

theorem openFd_inv {fd : Int} {f : FileDesc} {fops : FileOps}
    (hopen : pcb.openFd fd = some (f, fops)) :
    0 ≤ fd ∧ fd < maxFileDescriptors ∧ f = pcb.fa fd.toNat ∧
      f.inUse = true ∧ f.fops = some fops := by
  obtain ⟨hrange, hopen⟩ := Option.ite_none_left_eq_some.mp hopen
  obtain ⟨huse, hopen⟩ := Option.ite_none_right_eq_some.mp hopen
  obtain ⟨found, hfound, heq⟩ := Option.map_eq_some_iff.mp hopen
  obtain ⟨rfl, rfl⟩ := Prod.mk.inj heq
  exact ⟨by omega, by omega, rfl, huse, hfound⟩

theorem openFd_toNat_ne {fd' : Int} {fd : Nat} {f : FileDesc}
    {fops : FileOps} (hopen : pcb.openFd fd' = some (f, fops))
    (hne : fd' ≠ fd) : fd ≠ fd'.toNat := by
  have hnonneg := (openFd_inv hopen).1
  omega

/-- The handlers of `open` and `close` do not touch the file array. -/
@[simp]
theorem openHandler_fa (fops : FileOps) :
    (openHandler pcb fops).fa = pcb.fa := by
  cases fops <;> rfl

@[simp]
theorem closeHandler_fa (fops : FileOps) :
    (closeHandler pcb fops).fa = pcb.fa := by
  cases fops <;> rfl

/-- `syscall_open` fails and does nothing if the table is full, the name is not
found or the type is none of the three.  Else it takes the first free
descriptor. -/
theorem syscallOpen_cases (img : Image) (pcb : Pcb) (filename : Memory UInt8) :
    (syscallOpen img pcb filename = (pcb, -1) ∧
        ((∀ fd < maxFileDescriptors, (pcb.fa fd).inUse = true) ∨
          ∀ dentry, img.readDentryByName filename = some dentry →
            2 < dentry.fileType)) ∨
      ∃ (fd : Nat) (dentry : Dentry), fd < maxFileDescriptors ∧
        (pcb.fa fd).inUse = false ∧
        (∀ smaller < fd, (pcb.fa smaller).inUse = true) ∧
        img.readDentryByName filename = some dentry ∧ dentry.fileType ≤ 2 ∧
        syscallOpen img pcb filename =
          ((openHandler pcb (fopsTable dentry.fileType)).setFd fd
            ⟨some (fopsTable dentry.fileType), 0, 1, dentry.inodeNum⟩,
            (fd : Int)) := by
  unfold syscallOpen
  cases hfree : (List.range maxFileDescriptors).find?
      (fun idx => !(pcb.fa idx).inUse) with
  | none =>
      refine Or.inl ⟨rfl, Or.inl fun fd hfd => ?_⟩
      have hused := List.find?_eq_none.mp hfree fd (List.mem_range.mpr hfd)
      simpa using hused
  | some idx =>
      rw [List.find?_range_eq_some] at hfree
      obtain ⟨hidx, hmem, hsmaller⟩ := hfree
      cases hname : img.readDentryByName filename with
      | none => exact Or.inl ⟨rfl, Or.inr fun dentry hnone => nomatch hnone⟩
      | some dentry =>
          by_cases htype : dentry.fileType > 2
          · refine Or.inl ⟨if_pos htype, Or.inr ?_⟩
            rintro _ ⟨rfl⟩
            exact htype
          · refine Or.inr ⟨idx, dentry, List.mem_range.mp hmem,
              by simpa using hidx, fun smaller hlt => ?_, rfl,
              Nat.le_of_not_lt htype, if_neg htype⟩
            simpa using hsmaller smaller hlt

/-- `syscall_open` on success takes a free descriptor. -/
theorem syscallOpen_success {filename : Memory UInt8} {fd : Nat} {next : Pcb}
    (hopen : syscallOpen img pcb filename = (next, (fd : Int))) :
    ∃ dentry, img.readDentryByName filename = some dentry ∧
      dentry.fileType ≤ 2 ∧ fd < maxFileDescriptors ∧
      (pcb.fa fd).inUse = false ∧
      next = (openHandler pcb (fopsTable dentry.fileType)).setFd fd
        ⟨some (fopsTable dentry.fileType), 0, 1, dentry.inodeNum⟩ := by
  rcases syscallOpen_cases img pcb filename with
    ⟨heq, -⟩ | ⟨idx, dentry, hlt, hfree, -, hname, htype, heq⟩
  · rw [heq, Prod.mk.injEq] at hopen
    omega
  · rw [heq, Prod.mk.injEq] at hopen
    obtain rfl : idx = fd := by omega
    exact ⟨dentry, hname, htype, hlt, hfree, hopen.1.symm⟩

theorem syscallOpen_other {filename : Memory UInt8} {fd : Nat}
    (huse : (pcb.fa fd).inUse = true) :
    (syscallOpen img pcb filename).1.fa fd = pcb.fa fd := by
  rcases syscallOpen_cases img pcb filename with
    ⟨heq, -⟩ | ⟨idx, dentry, -, hfree, -, -, -, heq⟩
  · rw [heq]
  · have hne : fd ≠ idx := by
      rintro rfl
      simp [huse] at hfree
    rw [heq]
    simp only [Pcb.setFd, openHandler_fa, Function.update_of_ne hne]

/-- `syscall_close` fails and does nothing unless the descriptor is in use and
can be closed. -/
theorem syscallClose_cases (pcb : Pcb) (fd : Int) :
    (syscallClose pcb fd = (pcb, -1) ∧ ∀ f fops,
        pcb.openFd fd = some (f, fops) → fops.hasClose = false) ∨
      ∃ f fops, pcb.openFd fd = some (f, fops) ∧ fops.hasClose = true ∧
        syscallClose pcb fd = (closeHandler (pcb.setFd fd.toNat
          { f with flags := f.flags - f.flags % 2 }) fops, 0) := by
  unfold syscallClose
  cases hopen : pcb.openFd fd with
  | none => exact Or.inl ⟨rfl, fun _ _ hnone => nomatch hnone⟩
  | some found =>
      obtain ⟨f, fops⟩ := found
      cases hhas : fops.hasClose with
      | true => exact Or.inr ⟨f, fops, rfl, hhas, if_pos hhas⟩
      | false =>
          refine Or.inl ⟨if_neg (by simp [hhas]), ?_⟩
          rintro _ _ ⟨rfl, rfl⟩
          exact hhas

theorem syscallClose_other {fd' : Int} {fd : Nat} (hne : fd' ≠ fd) :
    (syscallClose pcb fd').1.fa fd = pcb.fa fd := by
  rcases syscallClose_cases pcb fd' with ⟨heq, -⟩ | ⟨f, fops, hopen, -, heq⟩
  · rw [heq]
  · rw [heq]
    simp only [closeHandler_fa, Pcb.setFd,
      Function.update_of_ne (openFd_toNat_ne hopen hne)]

end Open

section Read

variable {img : Image} {pcb : Pcb} {tty : Tty} {f : FileDesc} {nbytes : Int}
  {outcome : ReadOutcome}

theorem fileRead_desc (img : Image) (f : FileDesc) (nbytes : Int) :
    ∃ position, (fileRead img f nbytes).1 =
      { f with filePosition := position } := by
  unfold fileRead
  simp only
  split
  · exact ⟨f.filePosition, rfl⟩
  · exact ⟨_, rfl⟩

theorem dirRead_desc (img : Image) (f : FileDesc) (nbytes : Int) :
    ∃ position, (dirRead img f nbytes).1 =
      { f with filePosition := position } := by
  unfold dirRead
  split
  · exact ⟨f.filePosition, rfl⟩
  · exact ⟨_, rfl⟩

/-- A `read` handler moves at most the position of its descriptor and restarts
the clock of the process. -/
theorem readHandler_pcb {fd : Nat} {fops : FileOps}
    (hread : readHandler img pcb tty fd (pcb.fa fd) nbytes fops =
      some outcome) :
    ∃ position ticks, outcome.pcb =
      { pcb.setFd fd { pcb.fa fd with filePosition := position } with
        remainingRtcTicks := ticks } := by
  have hsame (ticks : Nat) : { pcb with remainingRtcTicks := ticks } =
      { pcb.setFd fd { pcb.fa fd with
          filePosition := (pcb.fa fd).filePosition } with
        remainingRtcTicks := ticks } := by
    simp only [Pcb.setFd, Function.update_eq_self]
  cases fops with
  | stdin =>
      obtain ⟨⟨bytes, after⟩, -, rfl⟩ := Option.map_eq_some_iff.mp hread
      exact ⟨_, _, hsame pcb.remainingRtcTicks⟩
  | stdout =>
      rw [← Option.some.inj hread]
      exact ⟨_, _, hsame pcb.remainingRtcTicks⟩
  | rtc =>
      simp only [readHandler] at hread
      split at hread
      · rw [← Option.some.inj hread]
        exact ⟨_, _, hsame pcb.remainingRtcTicks⟩
      · obtain ⟨-, heq⟩ := Option.ite_none_left_eq_some.mp hread
        rw [← Option.some.inj heq]
        exact ⟨_, _, hsame pcb.rtcInterval⟩
  | dir =>
      obtain ⟨position, hdesc⟩ := dirRead_desc img (pcb.fa fd) nbytes
      rw [← Option.some.inj hread]
      exact ⟨position, pcb.remainingRtcTicks, congrArg (pcb.setFd fd) hdesc⟩
  | file =>
      obtain ⟨position, hdesc⟩ := fileRead_desc img (pcb.fa fd) nbytes
      rw [← Option.some.inj hread]
      exact ⟨position, pcb.remainingRtcTicks, congrArg (pcb.setFd fd) hdesc⟩

/-- A `read` that does not get to a handler fails and does nothing.  Only the
table of the standard output lacks a handler. -/
theorem syscallRead_cases {fd : Int} {buf : Nat}
    (hread : syscallRead img pcb tty fd buf nbytes = some outcome) :
    (outcome = ⟨pcb, tty, -1, []⟩ ∧ (inPageBounds buf nbytes = false ∨
        pcb.openFd fd = none ∨ ∃ f, pcb.openFd fd = some (f, .stdout))) ∨
      ∃ f fops, inPageBounds buf nbytes = true ∧
        pcb.openFd fd = some (f, fops) ∧
        readHandler img pcb tty fd.toNat f nbytes fops = some outcome := by
  unfold syscallRead at hread
  cases hbounds : inPageBounds buf nbytes with
  | false =>
      rw [hbounds] at hread
      exact Or.inl ⟨(Option.some.inj hread).symm, Or.inl rfl⟩
  | true =>
      rw [hbounds] at hread
      cases hopen : pcb.openFd fd with
      | none =>
          rw [hopen] at hread
          exact Or.inl ⟨(Option.some.inj hread).symm, Or.inr (Or.inl rfl)⟩
      | some found =>
          obtain ⟨f, fops⟩ := found
          rw [hopen] at hread
          cases hhas : fops.hasRead with
          | true =>
              simp only [hhas, Bool.not_true, Bool.false_eq_true,
                ↓reduceIte] at hread
              exact Or.inr ⟨f, fops, rfl, rfl, hread⟩
          | false =>
              obtain rfl : fops = .stdout := by
                cases fops <;> first | rfl | cases hhas
              exact Or.inl ⟨(Option.some.inj hread).symm,
                Or.inr (Or.inr ⟨f, rfl⟩)⟩

theorem syscallRead_pcb {fd : Int} {buf : Nat}
    (hread : syscallRead img pcb tty fd buf nbytes = some outcome) :
    ∃ position ticks, outcome.pcb =
      { pcb.setFd fd.toNat { pcb.fa fd.toNat with filePosition := position }
        with remainingRtcTicks := ticks } := by
  rcases syscallRead_cases hread with ⟨rfl, -⟩ | ⟨f, fops, -, hopen, hhandler⟩
  · refine ⟨(pcb.fa fd.toNat).filePosition, pcb.remainingRtcTicks, ?_⟩
    simp only [Pcb.setFd, Function.update_eq_self]
  · obtain ⟨-, -, rfl, -⟩ := openFd_inv hopen
    exact readHandler_pcb hhandler

theorem syscallRead_other {fd' : Int} {fd buf : Nat} (hne : fd' ≠ fd)
    (hread : syscallRead img pcb tty fd' buf nbytes = some outcome) :
    outcome.pcb.fa fd = pcb.fa fd := by
  rcases syscallRead_cases hread with ⟨rfl, -⟩ | ⟨f, fops, -, hopen, hhandler⟩
  · rfl
  · obtain ⟨hnonneg, -, rfl, -⟩ := openFd_inv hopen
    obtain ⟨position, ticks, hpcb⟩ := readHandler_pcb hhandler
    rw [hpcb]
    exact Function.update_of_ne (by omega) _ _

/-- A read changes nothing about a descriptor but its position. -/
theorem syscallRead_desc {fd' : Int} {buf : Nat}
    (hread : syscallRead img pcb tty fd' buf nbytes = some outcome)
    (fd : Nat) : ∃ position,
      outcome.pcb.fa fd = { pcb.fa fd with filePosition := position } := by
  obtain ⟨position, ticks, hpcb⟩ := syscallRead_pcb hread
  rw [hpcb]
  by_cases heq : fd = fd'.toNat
  · rw [heq]
    exact ⟨position, Function.update_self ..⟩
  · exact ⟨_, Function.update_of_ne heq ..⟩

end Read

section Write

variable {pcb : Pcb} {tty : Tty} {user : Memory UInt8} {buf : Nat}
  {nbytes : Int}

/-- A `write` that does not get to a handler fails and does nothing.  Only the
table of the standard input lacks a handler. -/
theorem syscallWrite_cases (fd : Int) :
    (syscallWrite pcb tty user fd buf nbytes = ⟨pcb, tty, -1, []⟩ ∧
        (inPageBounds buf nbytes = false ∨ pcb.openFd fd = none ∨
          ∃ f, pcb.openFd fd = some (f, .stdin))) ∨
      ∃ f fops, inPageBounds buf nbytes = true ∧
        pcb.openFd fd = some (f, fops) ∧ fops.hasWrite = true ∧
        syscallWrite pcb tty user fd buf nbytes =
          writeHandler pcb tty user buf nbytes fops := by
  unfold syscallWrite
  cases hbounds : inPageBounds buf nbytes with
  | false => exact Or.inl ⟨rfl, Or.inl rfl⟩
  | true =>
      cases hopen : pcb.openFd fd with
      | none => exact Or.inl ⟨rfl, Or.inr (Or.inl rfl)⟩
      | some found =>
          obtain ⟨f, fops⟩ := found
          cases hhas : fops.hasWrite with
          | true =>
              refine Or.inr ⟨f, fops, rfl, rfl, hhas, ?_⟩
              simp only [hhas, Bool.not_true, Bool.false_eq_true, ↓reduceIte]
          | false =>
              obtain rfl : fops = .stdin := by
                cases fops <;> first | rfl | cases hhas
              exact Or.inl ⟨rfl, Or.inr (Or.inr ⟨f, rfl⟩)⟩

/-- A `write` changes nothing about the process but the rate of its clock. -/
theorem syscallWrite_pcb (fd : Int) : ∃ interval,
    (syscallWrite pcb tty user fd buf nbytes).pcb =
      { pcb with rtcInterval := interval } := by
  rcases @syscallWrite_cases pcb tty user buf nbytes fd with
    ⟨heq, -⟩ | ⟨f, fops, -, -, -, heq⟩
  · rw [heq]
    exact ⟨pcb.rtcInterval, rfl⟩
  · rw [heq]
    cases fops with
    | rtc =>
        rw [writeHandler]
        split
        · exact ⟨pcb.rtcInterval, rfl⟩
        · split
          · exact ⟨pcb.rtcInterval, rfl⟩
          · exact ⟨_, rfl⟩
    | stdin | stdout | dir | file => exact ⟨pcb.rtcInterval, rfl⟩

theorem syscallWrite_fa (fd : Int) :
    (syscallWrite pcb tty user fd buf nbytes).pcb.fa = pcb.fa := by
  obtain ⟨interval, hpcb⟩ := @syscallWrite_pcb pcb tty user buf nbytes fd
  rw [hpcb]

end Write

/-- At most the descriptors and the clock of the process differ. -/
def Pcb.SameProcess (pcb next : Pcb) : Prop :=
  next = { pcb with
    fa := next.fa
    rtcEnabled := next.rtcEnabled
    rtcInterval := next.rtcInterval
    remainingRtcTicks := next.remainingRtcTicks }

section SameProcess

variable {pcb next last : Pcb}

theorem Pcb.SameProcess.refl (pcb : Pcb) : pcb.SameProcess pcb := rfl

theorem Pcb.SameProcess.trans (hfirst : pcb.SameProcess next)
    (hsecond : next.SameProcess last) : pcb.SameProcess last := by
  rw [Pcb.SameProcess] at hfirst hsecond ⊢
  rw [hsecond, hfirst]

theorem Pcb.SameProcess.text_eq (hsame : pcb.SameProcess next) :
    next.text = pcb.text := by
  rw [hsame]

theorem Pcb.SameProcess.inUse_eq (hsame : pcb.SameProcess next) :
    next.inUse = pcb.inUse := by
  rw [hsame]

theorem syscallOpen_sameProcess (img : Image) (pcb : Pcb)
    (filename : Memory UInt8) :
    pcb.SameProcess (syscallOpen img pcb filename).1 := by
  rcases syscallOpen_cases img pcb filename with
    ⟨heq, -⟩ | ⟨fd, dentry, -, -, -, -, -, heq⟩
  · rw [heq]
    exact .refl pcb
  · rw [heq]
    cases fopsTable dentry.fileType <;> rfl

theorem syscallClose_sameProcess (pcb : Pcb) (fd : Int) :
    pcb.SameProcess (syscallClose pcb fd).1 := by
  rcases syscallClose_cases pcb fd with ⟨heq, -⟩ | ⟨f, fops, -, -, heq⟩
  · rw [heq]
    exact .refl pcb
  · rw [heq]
    cases fops <;> rfl

end SameProcess

end PsychOS
