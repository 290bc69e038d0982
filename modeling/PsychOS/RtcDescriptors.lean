/-
The clock of a process and the descriptors that refer to it.  The clock is
switched per process and opened per descriptor, so the two agree only as long
as no descriptor is closed while another one refers to the clock.
-/
import PsychOS.VirtualClocks

namespace PsychOS

/-- The descriptor is in use and refers to the clock. -/
def RefersToRtc (table : Nat → FileDesc) (fd : Nat) : Prop :=
  fd < maxFileDescriptors ∧ (table fd).inUse = true ∧
    (table fd).fops = some .rtc

instance (table : Nat → FileDesc) (fd : Nat) :
    Decidable (RefersToRtc table fd) :=
  inferInstanceAs (Decidable (_ ∧ _ ∧ _))

def HasRtc (table : Nat → FileDesc) : Prop := ∃ fd, RefersToRtc table fd

/-- The clock of the process is on exactly if a descriptor refers to it. -/
def RtcMatches (sess : Session) : Prop :=
  sess.pcb.rtcEnabled = true ↔ HasRtc sess.pcb.fa

/-- No descriptor of the clock is closed while another one is there. -/
def KeepsRtc (sess : Session) : TableEvent → Prop
  | .call (.closeFile fd) =>
      (sess.pcb.openFd fd).map Prod.snd = some .rtc →
        ∀ other < maxFileDescriptors, other ≠ fd.toNat →
          ¬ RefersToRtc sess.pcb.fa other
  | _ => True

instance (sess : Session) (event : TableEvent) :
    Decidable (KeepsRtc sess event) :=
  match event with
  | .call (.closeFile _) => inferInstanceAs (Decidable (_ → ∀ _ < _, _ → ¬ _))
  | .call (.openFile _) => isTrue trivial
  | .call (.readFile _ _ _) => isTrue trivial
  | .call (.keyTyped _ _) => isTrue trivial
  | .call .rtcTick => isTrue trivial
  | .writeFile _ _ _ _ => isTrue trivial

section Tables

variable {table : Nat → FileDesc} {fd : Nat} {f : FileDesc}

theorem refersToRtc_update (other : Nat) :
    RefersToRtc (Function.update table fd f) other ↔
      (other = fd ∧ fd < maxFileDescriptors ∧ f.inUse = true ∧
        f.fops = some .rtc) ∨ (other ≠ fd ∧ RefersToRtc table other) := by
  by_cases hsame : other = fd
  · subst hsame
    simp [RefersToRtc]
  · simp [RefersToRtc, hsame]

/-- An entry that does not refer to the clock in the place of one that did not
changes nothing. -/
theorem hasRtc_update (hbefore : ¬ RefersToRtc table fd)
    (hafter : ¬ (f.inUse = true ∧ f.fops = some .rtc)) :
    HasRtc (Function.update table fd f) ↔ HasRtc table := by
  apply exists_congr
  intro other
  rw [refersToRtc_update]
  constructor
  · rintro (⟨-, -, hentry⟩ | ⟨-, hrefers⟩)
    · exact absurd hentry hafter
    · exact hrefers
  · intro hrefers
    refine Or.inr ⟨?_, hrefers⟩
    rintro rfl
    exact hbefore hrefers

/-- Once a descriptor is closed, the others decide. -/
theorem hasRtc_close (hclosed : f.inUse = false) :
    HasRtc (Function.update table fd f) ↔
      ∃ other < maxFileDescriptors, other ≠ fd ∧ RefersToRtc table other := by
  apply exists_congr
  intro other
  rw [refersToRtc_update, hclosed]
  constructor
  · rintro (⟨-, -, huse, -⟩ | ⟨hne, hrefers⟩)
    · cases huse
    · exact ⟨hrefers.1, hne, hrefers⟩
  · rintro ⟨-, hne, hrefers⟩
    exact Or.inr ⟨hne, hrefers⟩

/-- Positions do not matter. -/
theorem hasRtc_congr {other : Nat → FileDesc}
    (hsame : ∀ fd, ∃ position,
      other fd = { table fd with filePosition := position }) :
    HasRtc other ↔ HasRtc table := by
  apply exists_congr
  intro fd
  obtain ⟨position, heq⟩ := hsame fd
  rw [RefersToRtc, heq]
  rfl

end Tables

section Steps

variable {img : Image} {sess next : Session} {reply : Reply}

/-- What a step can do to the clock and to the descriptors that refer to it. -/
inductive RtcCase (sess : Session) (event : TableEvent) (next : Session) :
    Prop where
  | opened (hkeeps : KeepsRtc sess event)
      (henabled : next.pcb.rtcEnabled = true) (hrtc : HasRtc next.pcb.fa)
  | closed (hdisabled : next.pcb.rtcEnabled = false)
      (hrtc : HasRtc next.pcb.fa ↔ ¬ KeepsRtc sess event)
  | same (hkeeps : KeepsRtc sess event)
      (henabled : next.pcb.rtcEnabled = sess.pcb.rtcEnabled)
      (hrtc : HasRtc next.pcb.fa ↔ HasRtc sess.pcb.fa)

theorem syscallOpen_rtcCase (name : List UInt8) :
    RtcCase sess (.call (.openFile name))
      { sess with pcb := (syscallOpen img sess.pcb (cString name)).1 } := by
  rcases syscallOpen_cases img sess.pcb (cString name) with
    ⟨heq, -⟩ | ⟨fd, dentry, hfd, hfree, -, -, -, heq⟩
  · rw [heq]
    exact .same trivial rfl Iff.rfl
  · rw [heq]
    cases hfops : fopsTable dentry.fileType with
    | rtc =>
        refine .opened trivial rfl ⟨fd, ?_⟩
        exact (refersToRtc_update fd).mpr (Or.inl ⟨rfl, hfd, rfl, rfl⟩)
    | stdin | stdout | dir | file =>
        refine .same trivial rfl (hasRtc_update ?_ (by simp))
        rintro ⟨-, huse, -⟩
        rw [openHandler_fa, hfree] at huse
        cases huse

theorem syscallClose_rtcCase (fd : Int) :
    RtcCase sess (.call (.closeFile fd))
      { sess with pcb := (syscallClose sess.pcb fd).1 } := by
  rcases syscallClose_cases sess.pcb fd with
    ⟨heq, hnot⟩ | ⟨f, fops, hopen, -, heq⟩
  · rw [heq]
    refine .same ?_ rfl Iff.rfl
    intro hrtc
    obtain ⟨⟨f, _⟩, hopen, rfl⟩ := Option.map_eq_some_iff.mp hrtc
    cases hnot f .rtc hopen
  · rw [heq]
    obtain ⟨hlow, hhigh, rfl, huse, hfops⟩ := openFd_inv hopen
    cases fops with
    | rtc =>
        refine .closed rfl ?_
        rw [closeHandler_fa, Pcb.setFd, hasRtc_close (closed_not_inUse _)]
        simp [KeepsRtc, hopen]
    | stdin | stdout | dir | file =>
        refine .same ?_ rfl ?_
        · intro hrtc
          rw [hopen] at hrtc
          cases hrtc
        · rw [closeHandler_fa]
          apply hasRtc_update
          · rintro ⟨-, -, hrtc⟩
            rw [hfops] at hrtc
            cases hrtc
          · rintro ⟨hstill, -⟩
            rw [closed_not_inUse] at hstill
            cases hstill

theorem tableStep_rtcCase {event : TableEvent}
    (hstep : tableStep img sess event = some (next, reply)) :
    RtcCase sess event next := by
  cases tableStep_cases hstep with
  | openFile name => exact syscallOpen_rtcCase name
  | closeFile fd => exact syscallClose_rtcCase fd
  | readFile fd buf nbytes outcome hread =>
      obtain ⟨position, ticks, hpcb⟩ := syscallRead_pcb hread
      refine .same trivial ?_ (hasRtc_congr (syscallRead_desc hread))
      rw [hpcb]
      rfl
  | keyTyped terminal ch => exact .same trivial rfl Iff.rfl
  | rtcTick =>
      refine .same trivial ?_ ?_
      · dsimp only
        unfold rtcHandler
        split <;> rfl
      · rw [rtcHandler_fa]
  | writeFile user fd buf nbytes =>
      obtain ⟨interval, hpcb⟩ :=
        @syscallWrite_pcb sess.pcb sess.tty user buf nbytes fd
      refine .same trivial ?_ ?_
      · rw [hpcb]
      · rw [hpcb]

/-- The clock is not on without a descriptor. -/
theorem RtcCase.enabled_hasRtc {event : TableEvent}
    (hcase : RtcCase sess event next)
    (hbefore : sess.pcb.rtcEnabled = true → HasRtc sess.pcb.fa) :
    next.pcb.rtcEnabled = true → HasRtc next.pcb.fa := by
  intro hon
  cases hcase with
  | opened _ _ hrtc => exact hrtc
  | closed hdisabled =>
      rw [hdisabled] at hon
      cases hon
  | same _ henabled hrtc => exact hrtc.mpr (hbefore (henabled ▸ hon))

theorem RtcCase.matches_iff {event : TableEvent}
    (hcase : RtcCase sess event next) (hbefore : RtcMatches sess) :
    RtcMatches next ↔ KeepsRtc sess event := by
  unfold RtcMatches at hbefore ⊢
  cases hcase with
  | opened hkeeps henabled hrtc =>
      exact iff_of_true (iff_of_true henabled hrtc) hkeeps
  | closed hdisabled hrtc => simp [hdisabled, hrtc]
  | same hkeeps henabled hrtc =>
      rw [henabled, hrtc]
      exact iff_of_true hbefore hkeeps

end Steps

/-- A `read` of a descriptor of the clock waits or returns 0. -/
def RtcReadable (img : Image) (sess : Session) : Prop :=
  ∀ fd f buf nbytes outcome, sess.pcb.openFd fd = some (f, .rtc) →
    inPageBounds buf nbytes = true →
    syscallRead img sess.pcb sess.tty fd buf nbytes = some outcome →
      outcome.ret ≠ -1

theorem syscallRead_rtc {img : Image} {pcb : Pcb} {tty : Tty} {fd : Int}
    {f : FileDesc} {buf : Nat} {nbytes : Int}
    (hopen : pcb.openFd fd = some (f, .rtc))
    (hbounds : inPageBounds buf nbytes = true) :
    syscallRead img pcb tty fd buf nbytes =
      (rtcRead pcb).map fun (pcb, ret) => ⟨pcb, tty, ret, []⟩ := by
  simp only [syscallRead, hbounds, hopen, FileOps.hasRead, ↓reduceIte,
    Bool.not_true, Bool.false_eq_true, readHandler_rtc]

/-- That is so exactly if the clock is on whenever a descriptor refers to
it. -/
theorem rtcReadable_iff (img : Image) (sess : Session) :
    RtcReadable img sess ↔
      (HasRtc sess.pcb.fa → sess.pcb.rtcEnabled = true) := by
  constructor
  · rintro hreadable ⟨fd, hfd, huse, hfops⟩
    by_contra hoff
    have hfail : rtcRead sess.pcb = some (sess.pcb, -1) :=
      if_pos (by simpa using hoff)
    have hopen := openFd_eq_some hfd huse hfops
    have hbounds : inPageBounds processVirtPageStart 0 = true := by decide
    refine hreadable fd _ _ _ ⟨sess.pcb, sess.tty, -1, []⟩ hopen hbounds ?_ rfl
    rw [syscallRead_rtc hopen hbounds, hfail]
    rfl
  · intro hon fd f buf nbytes outcome hopen hbounds hread
    obtain ⟨hlow, hhigh, rfl, huse, hfops⟩ := openFd_inv hopen
    have henabled := hon ⟨fd.toNat, by omega, huse, hfops⟩
    rw [syscallRead_rtc hopen hbounds] at hread
    obtain ⟨⟨after, ret⟩, hrtc, rfl⟩ := Option.map_eq_some_iff.mp hread
    rw [rtcRead, if_neg (by simp [henabled])] at hrtc
    obtain ⟨-, heq⟩ := Option.ite_none_left_eq_some.mp hrtc
    obtain ⟨-, rfl⟩ := Prod.mk.inj (Option.some.inj heq)
    exact show (0 : Int) ≠ -1 by decide

/-- The clock of a process is on exactly while a descriptor refers to it, and
reads of such descriptors never fail, exactly for the calls that close no
descriptor of the clock while another one is there. -/
theorem rtc_matches_descriptors_iff {img : Image} {start final : Session}
    {events : List TableEvent} (hstart : RtcMatches start)
    (hrun : (tableStep img).next.run start events = some final) :
    ((tableStep img).next.Throughout RtcMatches start events ↔
      (tableStep img).next.Along KeepsRtc start events) ∧
    ((tableStep img).next.Throughout (RtcReadable img) start events ↔
      (tableStep img).next.Along KeepsRtc start events) := by
  have hcase {sess next : Session} {event : TableEvent}
      (hnext : (tableStep img).next sess event = some next) :
      RtcCase sess event next := by
    obtain ⟨⟨_, reply⟩, hstep, rfl⟩ := Option.map_eq_some_iff.mp hnext
    exact tableStep_rtcCase hstep
  refine ⟨?_, ?_⟩
  · exact @StepFn.throughout_iff_along _ _ (tableStep img).next (fun _ => True)
      RtcMatches KeepsRtc (fun _ _ _ _ _ => trivial)
      (fun _ _ _ _ hmatches hnext => (hcase hnext).matches_iff hmatches)
      start final events trivial hstart hrun
  · refine @StepFn.throughout_iff_along _ _ (tableStep img).next
      (fun sess => sess.pcb.rtcEnabled = true → HasRtc sess.pcb.fa)
      (RtcReadable img) KeepsRtc
      (fun _ _ _ hinv hnext => (hcase hnext).enabled_hasRtc hinv) ?_
      start final events hstart.mp ?_ hrun
    · intro sess event next hinv hreadable hnext
      rw [rtcReadable_iff] at hreadable ⊢
      have hmatches := (hcase hnext).matches_iff ⟨hinv, hreadable⟩
      have hafter := (hcase hnext).enabled_hasRtc hinv
      exact ⟨fun hon => hmatches.mp ⟨hafter, hon⟩,
        fun hkeeps => (hmatches.mpr hkeeps).mpr⟩
    · exact (rtcReadable_iff img start).mpr hstart.mpr

/-- A new process, whose clock nothing refers to. -/
theorem rtcMatches_fresh {sess : Session} (hfresh : FreshTable sess.pcb.fa)
    (hoff : sess.pcb.rtcEnabled = false) : RtcMatches sess := by
  refine iff_of_false (by simp [hoff]) ?_
  rintro ⟨fd, hfd, huse, hfops⟩
  rcases Nat.lt_or_ge fd 2 with hlow | hhigh
  · rcases (by omega : fd = 0 ∨ fd = 1) with rfl | rfl
    · rw [hfresh.stdin.2.1] at hfops
      cases hfops
    · rw [hfresh.stdout.2.1] at hfops
      cases hfops
  · rw [hfresh.free fd hhigh hfd] at huse
    cases huse

/-- An image with the clock's file alone. -/
def clockImage : Image :=
  { sampleImage with
    numDirectoryEntries := 1
    directoryEntries := fun _ => ⟨cString [114], 0, 0, fun _ => 0⟩ }

/-- Opened, closed and opened again. -/
theorem rtc_reopened_matches :
    (tableStep clockImage).next.Throughout RtcMatches ⟨samplePcb, Tty.zeroed⟩
      [.call (.openFile [114]), .call (.closeFile 2),
        .call (.openFile [114])] := by
  obtain ⟨final, hrun⟩ : ∃ final, (tableStep clockImage).next.run
      ⟨samplePcb, Tty.zeroed⟩ [.call (.openFile [114]), .call (.closeFile 2),
        .call (.openFile [114])] = some final :=
    Option.isSome_iff_exists.mp (by decide +kernel)
  have hfresh : FreshTable samplePcb.fa :=
    openStdinAndStdout_fresh fun _ _ _ => rfl
  exact (rtc_matches_descriptors_iff (rtcMatches_fresh hfresh rfl)
    hrun).1.mpr (by decide +kernel)

/-- Opened twice and closed once: the clock is off while the other descriptor
is in use, and a read of it fails. -/
theorem rtc_closed_too_early :
    ∃ sess, (tableStep clockImage).next.run ⟨samplePcb, Tty.zeroed⟩
        [.call (.openFile [114]), .call (.openFile [114]),
          .call (.closeFile 2)] = some sess ∧
      sess.pcb.rtcEnabled = false ∧ RefersToRtc sess.pcb.fa 3 ∧
      (syscallRead clockImage sess.pcb sess.tty 3 0x8048000 4).map
        (fun outcome => outcome.ret) = some (-1) := by
  have hvalues : ((tableStep clockImage).next.run ⟨samplePcb, Tty.zeroed⟩
      [.call (.openFile [114]), .call (.openFile [114]),
        .call (.closeFile 2)]).map (fun sess =>
        (sess.pcb.rtcEnabled, decide (RefersToRtc sess.pcb.fa 3),
          (syscallRead clockImage sess.pcb sess.tty 3 0x8048000 4).map
            (fun outcome => outcome.ret))) = some (false, true, some (-1)) := by
    decide +kernel
  obtain ⟨sess, hrun, heq⟩ := Option.map_eq_some_iff.mp hvalues
  simp only [Prod.mk.injEq, decide_eq_true_eq] at heq
  exact ⟨sess, hrun, heq⟩

end PsychOS
