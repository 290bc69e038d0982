/-
The virtual real-time clocks (`drivers/rtc.c`).  Each process has its own rate
and counts its own ticks down, all of them driven by one interrupt.
-/
import PsychOS.WholeSystem

namespace PsychOS

section Functions

/-- `rtc_open`: 2 Hz. -/
def rtcOpen (pcb : Pcb) : Pcb × Int :=
  ({ pcb with
      rtcEnabled := true
      rtcInterval := maxFreq / 2
      remainingRtcTicks := maxFreq / 2 }, 0)

/-- `rtc_close`. -/
def rtcClose (pcb : Pcb) : Pcb × Int :=
  ({ pcb with rtcEnabled := false }, 0)

/-- `rtc_read`: `none` while it waits for the count to come to 0. -/
def rtcRead (pcb : Pcb) : Option (Pcb × Int) :=
  if !pcb.rtcEnabled then some (pcb, -1)
  else if pcb.remainingRtcTicks ≠ 0 then none
  else some ({ pcb with remainingRtcTicks := pcb.rtcInterval }, 0)

/-- `rtc_write` of the number in the buffer. -/
def rtcWrite (pcb : Pcb) (hertz : Nat) : Pcb × Int :=
  if hertz < minFreq ∨ hertz > maxFreq then (pcb, -1)
  else if hertz &&& (hertz - 1) ≠ 0 then (pcb, -1)
  else ({ pcb with rtcInterval := maxFreq / hertz }, 0)

-- these are what the descriptors of the clock lead to
theorem openHandler_rtc (pcb : Pcb) :
    openHandler pcb .rtc = (rtcOpen pcb).1 :=
  rfl

theorem closeHandler_rtc (pcb : Pcb) :
    closeHandler pcb .rtc = (rtcClose pcb).1 :=
  rfl

theorem readHandler_rtc (img : Image) (pcb : Pcb) (tty : Tty) (fd : Nat)
    (f : FileDesc) (nbytes : Int) :
    readHandler img pcb tty fd f nbytes .rtc =
      (rtcRead pcb).map fun (pcb, ret) => ⟨pcb, tty, ret, []⟩ := by
  simp only [readHandler, rtcRead]
  split
  · rfl
  · split <;> rfl

theorem writeHandler_rtc (pcb : Pcb) (tty : Tty) (user : Memory UInt8)
    (buf : Nat) (nbytes : Int) :
    writeHandler pcb tty user buf nbytes .rtc =
      let bytes := loadUser user buf 4
      ⟨(rtcWrite pcb (littleEndian bytes)).1, tty,
        (rtcWrite pcb (littleEndian bytes)).2, bytes⟩ := by
  simp only [writeHandler, rtcWrite]
  split
  · rfl
  · split <;> rfl

/-- The frequencies a clock can have. -/
def IsRate (hertz : Nat) : Prop := ∃ k, 1 ≤ k ∧ k ≤ 10 ∧ hertz = 2 ^ k

theorem isRate_iff (hertz : Nat) :
    IsRate hertz ↔ ¬ (hertz < minFreq ∨ hertz > maxFreq) ∧
      hertz &&& (hertz - 1) = 0 := by
  constructor
  · rintro ⟨k, hlow, hhigh, rfl⟩
    have hmin : 2 ^ 1 ≤ 2 ^ k := Nat.pow_le_pow_right (by decide) hlow
    have hmax : 2 ^ k ≤ 2 ^ 10 := Nat.pow_le_pow_right (by decide) hhigh
    refine ⟨?_, ?_⟩
    · simp only [minFreq, maxFreq]
      omega
    · exact (Nat.and_sub_one_eq_zero_iff_isPowerOfTwo (by omega)).mpr ⟨k, rfl⟩
  · rintro ⟨hrange, hpower⟩
    simp only [minFreq, maxFreq, not_or, Nat.not_lt] at hrange
    obtain ⟨k, rfl⟩ :=
      (Nat.and_sub_one_eq_zero_iff_isPowerOfTwo (by omega)).mp hpower
    refine ⟨k, ?_, ?_, rfl⟩
    · exact (Nat.pow_le_pow_iff_right (by decide : 1 < 2)).mp hrange.1
    · exact (Nat.pow_le_pow_iff_right (by decide : 1 < 2)).mp hrange.2

instance (hertz : Nat) : Decidable (IsRate hertz) :=
  decidable_of_iff _ (isRate_iff hertz).symm

theorem IsRate.interval_mul {hertz : Nat} (hrate : IsRate hertz) :
    maxFreq / hertz * hertz = maxFreq := by
  obtain ⟨k, -, hhigh, rfl⟩ := hrate
  exact Nat.div_mul_cancel (Nat.pow_dvd_pow 2 hhigh)

/-- `rtc_write` takes exactly the rates, and nothing else changes anything. -/
theorem rtcWrite_cases (pcb : Pcb) (hertz : Nat) :
    (IsRate hertz ∧
      rtcWrite pcb hertz = ({ pcb with rtcInterval := maxFreq / hertz }, 0)) ∨
      (¬ IsRate hertz ∧ rtcWrite pcb hertz = (pcb, -1)) := by
  rw [isRate_iff, rtcWrite]
  by_cases hrange : hertz < minFreq ∨ hertz > maxFreq
  · rw [if_pos hrange]
    exact Or.inr ⟨fun hrate => hrate.1 hrange, rfl⟩
  · rw [if_neg hrange]
    by_cases hpower : hertz &&& (hertz - 1) = 0
    · rw [if_neg (not_not_intro hpower)]
      exact Or.inl ⟨⟨hrange, hpower⟩, rfl⟩
    · rw [if_pos hpower]
      exact Or.inr ⟨fun hrate => hpower hrate.2, rfl⟩

end Functions

/-- The calls a process makes on its clock. -/
inductive RtcCall where
  | openRtc
  | writeRtc (hertz : Nat)
  | readRtc
  | closeRtc
  deriving DecidableEq

def rtcCall (pcb : Pcb) : RtcCall → Option (Pcb × Int)
  | .openRtc => some (rtcOpen pcb)
  | .writeRtc hertz => some (rtcWrite pcb hertz)
  | .readRtc => rtcRead pcb
  | .closeRtc => some (rtcClose pcb)

/-- Interrupts, calls of the process in a slot that return, and slots that are
taken or given up. -/
inductive RtcEvent where
  | tick
  | call (slot : Nat) (call : RtcCall)
  | setInUse (slot : Nat) (value : Bool)
  deriving DecidableEq

def rtcStep : OutFn (Nat → Pcb) RtcEvent Int
  | pcbs, .tick => some (tickSlots pcbs, 0)
  | pcbs, .call slot call =>
      (rtcCall (pcbs slot) call).map fun (pcb, ret) =>
        (Function.update pcbs slot pcb, ret)
  | pcbs, .setInUse slot value =>
      some (Function.update pcbs slot { pcbs slot with inUse := value }, 0)

abbrev RtcTransition := Transition (Nat → Pcb) RtcEvent Int

section Steps

theorem rtcHandler_remaining (pcb : Pcb) :
    (rtcHandler pcb).remainingRtcTicks = pcb.remainingRtcTicks -
      (if pcb.inUse && pcb.rtcEnabled then 1 else 0) := by
  unfold rtcHandler
  by_cases hcounts : (pcb.inUse && pcb.rtcEnabled) = true
  · obtain ⟨huse, henabled⟩ := Bool.and_eq_true_iff.mp hcounts
    rw [if_pos hcounts]
    split
    · rfl
    · rename_i hstill
      have hzero : ¬ pcb.remainingRtcTicks > 0 := fun hpos =>
        hstill ⟨huse, henabled, hpos⟩
      omega
  · rw [if_neg hcounts, if_neg]
    · rfl
    · rintro ⟨huse, henabled, -⟩
      exact hcounts (Bool.and_eq_true_iff.mpr ⟨huse, henabled⟩)

/-- What a step can be for the process in a slot. -/
inductive ClockCase (slot : Nat) (pcb : Pcb) :
    RtcEvent → Int → Pcb → Prop where
  | tick : ClockCase slot pcb .tick 0 (rtcHandler pcb)
  | openRtc : ClockCase slot pcb (.call slot .openRtc) 0 (rtcOpen pcb).1
  | accepted (hertz : Nat) (hrate : IsRate hertz) :
      ClockCase slot pcb (.call slot (.writeRtc hertz)) 0
        { pcb with rtcInterval := maxFreq / hertz }
  | refused (hertz : Nat) (hrate : ¬ IsRate hertz) :
      ClockCase slot pcb (.call slot (.writeRtc hertz)) (-1) pcb
  | completed (henabled : pcb.rtcEnabled = true)
      (hzero : pcb.remainingRtcTicks = 0) :
      ClockCase slot pcb (.call slot .readRtc) 0
        { pcb with remainingRtcTicks := pcb.rtcInterval }
  | failed (hdisabled : pcb.rtcEnabled = false) :
      ClockCase slot pcb (.call slot .readRtc) (-1) pcb
  | closeRtc : ClockCase slot pcb (.call slot .closeRtc) 0 (rtcClose pcb).1
  | setInUse (value : Bool) :
      ClockCase slot pcb (.setInUse slot value) 0 { pcb with inUse := value }
  | otherCall {other : Nat} (call : RtcCall) (ret : Int)
      (hother : other ≠ slot) : ClockCase slot pcb (.call other call) ret pcb
  | otherSet {other : Nat} (value : Bool) (hother : other ≠ slot) :
      ClockCase slot pcb (.setInUse other value) 0 pcb

theorem rtcCall_case {pcb next : Pcb} {call : RtcCall} {ret : Int}
    (slot : Nat) (hcall : rtcCall pcb call = some (next, ret)) :
    ClockCase slot pcb (.call slot call) ret next := by
  cases call with
  | openRtc =>
      obtain ⟨rfl, rfl⟩ := Prod.mk.inj (Option.some.inj hcall)
      exact .openRtc
  | writeRtc hertz =>
      have hwrite : rtcWrite pcb hertz = (next, ret) := Option.some.inj hcall
      rcases rtcWrite_cases pcb hertz with ⟨hrate, heq⟩ | ⟨hrate, heq⟩
      · obtain ⟨rfl, rfl⟩ := Prod.mk.inj (heq.symm.trans hwrite)
        exact .accepted hertz hrate
      · obtain ⟨rfl, rfl⟩ := Prod.mk.inj (heq.symm.trans hwrite)
        exact .refused hertz hrate
  | readRtc =>
      rw [rtcCall, rtcRead] at hcall
      split at hcall
      · rename_i hdisabled
        obtain ⟨rfl, rfl⟩ := Prod.mk.inj (Option.some.inj hcall)
        exact .failed (by simpa using hdisabled)
      · split at hcall
        · cases hcall
        · rename_i henabled hzero
          obtain ⟨rfl, rfl⟩ := Prod.mk.inj (Option.some.inj hcall)
          exact .completed (by simpa using henabled) (by simpa using hzero)
  | closeRtc =>
      obtain ⟨rfl, rfl⟩ := Prod.mk.inj (Option.some.inj hcall)
      exact .closeRtc

theorem rtcStep_case {pcbs next : Nat → Pcb} {event : RtcEvent} {ret : Int}
    (hstep : rtcStep pcbs event = some (next, ret)) {slot : Nat}
    (hslot : slot < maxProcesses) :
    ClockCase slot (pcbs slot) event ret (next slot) := by
  cases event with
  | tick =>
      obtain ⟨rfl, rfl⟩ := Prod.mk.inj (Option.some.inj hstep)
      rw [tickSlots_apply, if_pos hslot]
      exact .tick
  | call other call =>
      obtain ⟨⟨pcb, _⟩, hcall, heq⟩ := Option.map_eq_some_iff.mp hstep
      obtain ⟨rfl, rfl⟩ := Prod.mk.inj heq
      by_cases hother : other = slot
      · subst hother
        rw [Function.update_self]
        exact rtcCall_case other hcall
      · rw [Function.update_of_ne (Ne.symm hother)]
        exact .otherCall call _ hother
  | setInUse other value =>
      obtain ⟨rfl, rfl⟩ := Prod.mk.inj (Option.some.inj hstep)
      by_cases hother : other = slot
      · subst hother
        rw [Function.update_self]
        exact .setInUse value
      · rw [Function.update_of_ne (Ne.symm hother)]
        exact .otherSet value hother

end Steps

namespace RtcTransition

/-- The rate of the slot is `hertz` from here on: 2 after an `open`, or what an
accepted `write` asked for. -/
def SetsRate (slot hertz : Nat) (transition : RtcTransition) : Prop :=
  (transition.event = .call slot .openRtc ∧ hertz = 2) ∨
    (transition.event = .call slot (.writeRtc hertz) ∧ transition.answer = 0)

/-- A `read` of the slot that waited for its tick. -/
def Completes (slot : Nat) (transition : RtcTransition) : Prop :=
  transition.event = .call slot .readRtc ∧ transition.answer = 0

/-- The count of the slot starts again. -/
def Resets (slot : Nat) (transition : RtcTransition) : Prop :=
  transition.event = .call slot .openRtc ∨ transition.Completes slot

/-- A tick while the slot is in use and its clock on. -/
def Counted (slot : Nat) (transition : RtcTransition) : Bool :=
  transition.event == .tick && (transition.before slot).inUse &&
    (transition.before slot).rtcEnabled

def IsTick (transition : RtcTransition) : Bool := transition.event == .tick

end RtcTransition

section Runs

variable {start final : Nat → Pcb} {transitions : List RtcTransition}
  {slot : Nat}

/-- Only the ticks that count change the count, unless it starts again. -/
theorem ClockCase.remaining {pcb next : Pcb} {event : RtcEvent} {ret : Int}
    (hcase : ClockCase slot pcb event ret next)
    (hopen : event ≠ .call slot .openRtc)
    (hread : ¬ (event = .call slot .readRtc ∧ ret = 0)) :
    next.remainingRtcTicks = pcb.remainingRtcTicks -
      (if event == .tick && pcb.inUse && pcb.rtcEnabled then 1 else 0) := by
  cases hcase with
  | tick => exact rtcHandler_remaining pcb
  | openRtc => exact absurd rfl hopen
  | completed => exact absurd ⟨rfl, rfl⟩ hread
  | accepted | refused | failed | closeRtc | setInUse | otherCall | otherSet =>
      rfl

theorem remaining_step (hslot : slot < maxProcesses)
    {transition : RtcTransition}
    (hstep : rtcStep transition.before transition.event =
      some (transition.after, transition.answer))
    (hreset : ¬ transition.Resets slot) :
    (transition.after slot).remainingRtcTicks =
      (transition.before slot).remainingRtcTicks -
        (if transition.Counted slot then 1 else 0) :=
  (rtcStep_case hstep hslot).remaining (fun hopen => hreset (Or.inl hopen))
    fun hread => hreset (Or.inr hread)

/-- Without a reset the count goes down by the ticks that count. -/
theorem remaining_since (hslot : slot < maxProcesses)
    (hexec : Execution rtcStep start transitions final)
    (hreset : ∀ transition ∈ transitions, ¬ transition.Resets slot) :
    (final slot).remainingRtcTicks = (start slot).remainingRtcTicks -
      transitions.countP (RtcTransition.Counted slot) := by
  induction hexec with
  | nil => rfl
  | @concat earlier state next event answer hearlier hstep ih =>
      have hlast := @remaining_step slot hslot ⟨state, event, answer, next⟩
        hstep (hreset _ (List.mem_append_right _ List.mem_cons_self))
      have hbefore := ih fun transition hmem =>
        hreset transition (List.mem_append_left _ hmem)
      rw [List.countP_append, List.countP_singleton, Nat.sub_add_eq, ← hbefore]
      exact hlast

theorem ClockCase.interval {pcb next : Pcb} {event : RtcEvent} {ret : Int}
    (hcase : ClockCase slot pcb event ret next)
    (hopen : event ≠ .call slot .openRtc)
    (hwrite : ∀ hertz, ¬ (event = .call slot (.writeRtc hertz) ∧ ret = 0)) :
    next.rtcInterval = pcb.rtcInterval := by
  cases hcase with
  | tick =>
      unfold rtcHandler
      split <;> rfl
  | openRtc => exact absurd rfl hopen
  | accepted hertz => exact absurd ⟨rfl, rfl⟩ (hwrite hertz)
  | refused | completed | failed | closeRtc | setInUse | otherCall |
    otherSet => rfl

theorem interval_step (hslot : slot < maxProcesses)
    {transition : RtcTransition}
    (hstep : rtcStep transition.before transition.event =
      some (transition.after, transition.answer))
    (hrate : ∀ hertz, ¬ transition.SetsRate slot hertz) :
    (transition.after slot).rtcInterval =
      (transition.before slot).rtcInterval :=
  (rtcStep_case hstep hslot).interval
    (fun hopen => hrate 2 (Or.inl ⟨hopen, rfl⟩))
    fun hertz hwrite => hrate hertz (Or.inr hwrite)

theorem interval_since (hslot : slot < maxProcesses)
    (hexec : Execution rtcStep start transitions final)
    (hrate : ∀ transition ∈ transitions, ∀ hertz,
      ¬ transition.SetsRate slot hertz) :
    (final slot).rtcInterval = (start slot).rtcInterval := by
  induction hexec with
  | nil => rfl
  | concat hearlier hstep ih =>
      rw [← ih fun transition hmem =>
        hrate transition (List.mem_append_left _ hmem)]
      exact @interval_step slot hslot ⟨_, _, _, _⟩ hstep
        (hrate _ (List.mem_append_right _ List.mem_cons_self))

end Runs

namespace ClockCase

variable {slot : Nat} {pcb next : Pcb} {ret : Int}

theorem opened (hcase : ClockCase slot pcb (.call slot .openRtc) ret next) :
    next = (rtcOpen pcb).1 := by
  cases hcase with
  | openRtc => rfl
  | otherCall _ _ hother => exact absurd rfl hother

theorem written {hertz : Nat}
    (hcase : ClockCase slot pcb (.call slot (.writeRtc hertz)) 0 next) :
    IsRate hertz ∧ next = { pcb with rtcInterval := maxFreq / hertz } := by
  cases hcase with
  | accepted _ hrate => exact ⟨hrate, rfl⟩
  | otherCall _ _ hother => exact absurd rfl hother

theorem readDone (hcase : ClockCase slot pcb (.call slot .readRtc) 0 next) :
    pcb.remainingRtcTicks = 0 ∧
      next = { pcb with remainingRtcTicks := pcb.rtcInterval } := by
  cases hcase with
  | completed _ hzero => exact ⟨hzero, rfl⟩
  | otherCall _ _ hother => exact absurd rfl hother

end ClockCase

section Exact

variable {start final : Nat → Pcb} {transitions : List RtcTransition}
  {slot : Nat} {transition : RtcTransition}

/-- The product of interval and rate. -/
theorem SetsRate.interval_mul (hslot : slot < maxProcesses)
    (hstep : rtcStep transition.before transition.event =
      some (transition.after, transition.answer)) {hertz : Nat}
    (hsets : transition.SetsRate slot hertz) :
    (transition.after slot).rtcInterval * hertz = maxFreq := by
  have hcase := rtcStep_case hstep hslot
  rcases hsets with ⟨hevent, rfl⟩ | ⟨hevent, hanswer⟩
  · rw [hevent] at hcase
    rw [hcase.opened]
    rfl
  · rw [hevent, hanswer] at hcase
    obtain ⟨hrate, hnext⟩ := hcase.written
    rw [hnext]
    exact hrate.interval_mul

/-- A reset starts the count at the interval in force. -/
theorem Resets.remaining (hslot : slot < maxProcesses)
    (hstep : rtcStep transition.before transition.event =
      some (transition.after, transition.answer))
    (hresets : transition.Resets slot) :
    (transition.after slot).remainingRtcTicks =
      (transition.after slot).rtcInterval := by
  have hcase := rtcStep_case hstep hslot
  rcases hresets with hevent | ⟨hevent, hanswer⟩
  · rw [hevent] at hcase
    rw [hcase.opened]
    rfl
  · rw [hevent, hanswer] at hcase
    rw [hcase.readDone.2]

/-- A `write` is accepted for the rates, and refused without effect. -/
theorem write_exact {hertz : Nat}
    (hstep : rtcStep transition.before transition.event =
      some (transition.after, transition.answer))
    (hevent : transition.event = .call slot (.writeRtc hertz)) :
    (transition.answer = 0 ↔ IsRate hertz) ∧
      (transition.answer ≠ 0 →
        transition.answer = -1 ∧ transition.after = transition.before) := by
  rw [hevent] at hstep
  rcases rtcWrite_cases (transition.before slot) hertz with
    ⟨hrate, hwrite⟩ | ⟨hrate, hwrite⟩
  · simp only [rtcStep, rtcCall, hwrite, Option.map_some, Option.some.injEq,
      Prod.mk.injEq] at hstep
    simp [← hstep.2, hrate]
  · simp only [rtcStep, rtcCall, hwrite, Option.map_some, Option.some.injEq,
      Prod.mk.injEq, Function.update_eq_self] at hstep
    simp [← hstep.2, hrate, hstep.1]

/-- Ticks and the events of the slot itself. -/
def RtcEvent.concerns (slot : Nat) : RtcEvent → Bool
  | .tick => true
  | .call other _ => other == slot
  | .setInUse other _ => other == slot

theorem concerns_foreign {pcbs next : Nat → Pcb} {event : RtcEvent}
    (hevent : event.concerns slot = false)
    (hnext : rtcStep.next pcbs event = some next) :
    next slot = pcbs slot := by
  obtain ⟨⟨_, ret⟩, hstep, rfl⟩ := Option.map_eq_some_iff.mp hnext
  cases event with
  | tick => cases hevent
  | call other call =>
      have hother : other ≠ slot := beq_eq_false_iff_ne.mp hevent
      obtain ⟨_, -, heq⟩ := Option.map_eq_some_iff.mp hstep
      rw [← (Prod.mk.inj heq).1]
      exact Function.update_of_ne hother.symm _ _
  | setInUse other value =>
      have hother : other ≠ slot := beq_eq_false_iff_ne.mp hevent
      rw [← (Prod.mk.inj (Option.some.inj hstep)).1]
      exact Function.update_of_ne hother.symm _ _

theorem concerns_own {left right next : Nat → Pcb} {event : RtcEvent}
    (hview : left slot = right slot) (hevent : event.concerns slot = true)
    (hnext : rtcStep.next left event = some next) :
    ∃ other, rtcStep.next right event = some other ∧
      other slot = next slot := by
  obtain ⟨⟨_, ret⟩, hstep, rfl⟩ := Option.map_eq_some_iff.mp hnext
  cases event with
  | tick =>
      obtain ⟨rfl, rfl⟩ := Prod.mk.inj (Option.some.inj hstep)
      refine ⟨tickSlots right, rfl, ?_⟩
      simp only [tickSlots_apply, hview]
  | call other call =>
      obtain rfl : other = slot := eq_of_beq hevent
      obtain ⟨⟨pcb, _⟩, hcall, heq⟩ := Option.map_eq_some_iff.mp hstep
      refine ⟨Function.update right other pcb, ?_, ?_⟩
      · simp [OutFn.next, rtcStep, ← hview, hcall]
      · obtain ⟨rfl, rfl⟩ := Prod.mk.inj heq
        simp only [Function.update_self]
  | setInUse other value =>
      obtain rfl : other = slot := eq_of_beq hevent
      obtain ⟨rfl, rfl⟩ := Prod.mk.inj (Option.some.inj hstep)
      refine ⟨Function.update right other { right other with inUse := value },
        rfl, ?_⟩
      simp only [Function.update_self, hview]

/-- Deleting the events of the other processes changes nothing for a slot. -/
theorem clock_alone (hexec : Execution rtcStep start transitions final) :
    ∃ alone, rtcStep.next.run start ((transitions.map Transition.event).filter
      (RtcEvent.concerns slot)) = some alone ∧ alone slot = final slot :=
  @StepFn.run_filter_view _ _ rtcStep.next _ (fun _ => True) (fun _ _ => True)
    (fun pcbs : Nat → Pcb => pcbs slot) (RtcEvent.concerns slot)
    (fun _ _ _ _ _ _ => trivial)
    (fun _ _ _ _ _ hevent hstep => concerns_foreign hevent hstep)
    (fun _ _ _ _ _ _ hview _ hevent hstep =>
      ⟨trivial, concerns_own hview hevent hstep⟩)
    start start final _ trivial trivial rfl (StepFn.along_true _ _)
    hexec.run_eq

/-- The ticks between two reads that complete. -/
theorem ticks_between (hslot : slot < maxProcesses)
    {first second : RtcTransition} {between : List RtcTransition}
    (hfirst : rtcStep first.before first.event =
      some (first.after, first.answer))
    (hsecond : rtcStep second.before second.event =
      some (second.after, second.answer))
    (hbetween : Execution rtcStep first.after between second.before)
    (hstarts : first.Completes slot) (hends : second.Completes slot)
    (hnone : ∀ transition ∈ between, ¬ transition.Resets slot) :
    (first.after slot).rtcInterval ≤
      between.countP RtcTransition.IsTick := by
  have hcount := remaining_since hslot hbetween hnone
  rw [Resets.remaining hslot hfirst (Or.inr hstarts)] at hcount
  have hcase := rtcStep_case hsecond hslot
  rw [hends.1, hends.2] at hcase
  have hzero := hcase.readDone.1
  have hticks : between.countP (RtcTransition.Counted slot) ≤
      between.countP RtcTransition.IsTick := by
    apply List.countP_mono_left
    intro transition _ hcounted
    simp only [RtcTransition.Counted, Bool.and_eq_true] at hcounted
    exact hcounted.1.1
  omega

/-- The clocks over any interleaving: which rates are accepted, the interval
and the count of a process, that both are the same in the run without the other
processes, and how many ticks lie between two reads. -/
theorem clocks_exact (hslot : slot < maxProcesses)
    (hexec : Execution rtcStep start transitions final) :
    (∀ transition ∈ transitions, ∀ hertz,
      transition.event = .call slot (.writeRtc hertz) →
      (transition.answer = 0 ↔ IsRate hertz) ∧
        (transition.answer ≠ 0 →
          transition.answer = -1 ∧ transition.after = transition.before)) ∧
    (∀ earlier setting later hertz,
      transitions = earlier ++ setting :: later →
      setting.SetsRate slot hertz →
      (∀ transition ∈ later, ∀ hertz, ¬ transition.SetsRate slot hertz) →
        (final slot).rtcInterval * hertz = maxFreq) ∧
    (∀ earlier reset later, transitions = earlier ++ reset :: later →
      reset.Resets slot →
      (∀ transition ∈ later, ¬ transition.Resets slot) →
        (final slot).remainingRtcTicks = (reset.after slot).rtcInterval -
          later.countP (RtcTransition.Counted slot)) ∧
    (∃ alone, rtcStep.next.run start ((transitions.map Transition.event).filter
        (RtcEvent.concerns slot)) = some alone ∧ alone slot = final slot) ∧
    (∀ earlier first between second later,
      transitions = earlier ++ first :: (between ++ second :: later) →
      first.Completes slot → second.Completes slot →
      (∀ transition ∈ between, ¬ transition.Resets slot) →
        (first.after slot).rtcInterval ≤
          between.countP RtcTransition.IsTick) := by
  refine ⟨?_, ?_, ?_, ?_, ?_⟩
  · intro transition hmem hertz hevent
    exact write_exact (hexec.step_of_mem hmem) hevent
  · rintro earlier setting later hertz rfl hsets hnone
    obtain ⟨-, hstep, hlater⟩ := hexec.split
    rw [interval_since hslot hlater hnone]
    exact SetsRate.interval_mul hslot hstep hsets
  · rintro earlier reset later rfl hresets hnone
    obtain ⟨-, hstep, hlater⟩ := hexec.split
    rw [remaining_since hslot hlater hnone, Resets.remaining hslot hstep hresets]
  · exact clock_alone hexec
  · rintro earlier first between second later rfl hstarts hends hnone
    obtain ⟨-, hfirst, hlater⟩ := hexec.split
    obtain ⟨hbetween, hsecond, -⟩ := hlater.split
    exact ticks_between hslot hfirst hsecond hbetween hstarts hends hnone

/-- Two processes in use, neither of which has opened its clock. -/
def idleClocks : Nat → Pcb := fun slot =>
  { Pcb.zeroed with inUse := decide (slot < 2) }

/-- One process opens its clock and asks for 4 Hz while another opens its own;
the interval is right after that. -/
theorem clocks_exact_at_four :
    ∃ final, rtcStep.next.run idleClocks [.call 0 .openRtc, .tick,
        .call 1 .openRtc, .call 0 (.writeRtc 4)] = some final ∧
      (final 0).rtcInterval * 4 = maxFreq := by
  obtain ⟨state, hstate⟩ : ∃ state, Execution rtcStep idleClocks _ state :=
    ⟨_, ((Execution.nil.concat
      (show rtcStep idleClocks (.call 0 .openRtc) = some (_, 0) from rfl)).concat
      (show rtcStep _ .tick = some (_, 0) from rfl)).concat
      (show rtcStep _ (.call 1 .openRtc) = some (_, 0) from rfl)⟩
  have hexec := hstate.concat
    (show rtcStep _ (.call 0 (.writeRtc 4)) = some (_, 0) from rfl)
  refine ⟨_, hexec.run_eq, ?_⟩
  exact (clocks_exact (by decide) hexec).2.1 _ _ [] 4 rfl
    (Or.inr ⟨rfl, rfl⟩) (fun _ hmem => by cases hmem)

end Exact

section Waiting

variable {slot : Nat}

/-- An accepted `write` of a running clock finds at most one new interval
left. -/
def WritesInTime (slot : Nat) (pcbs : Nat → Pcb) : RtcEvent → Prop
  | .call other (.writeRtc hertz) =>
      other = slot → IsRate hertz → (pcbs slot).rtcEnabled = true →
        (pcbs slot).remainingRtcTicks ≤ maxFreq / hertz
  | _ => True

instance (slot : Nat) (pcbs : Nat → Pcb) (event : RtcEvent) :
    Decidable (WritesInTime slot pcbs event) :=
  match event with
  | .call _ (.writeRtc _) => inferInstanceAs (Decidable (_ → _ → _ → _))
  | .call _ .openRtc => isTrue trivial
  | .call _ .readRtc => isTrue trivial
  | .call _ .closeRtc => isTrue trivial
  | .tick => isTrue trivial
  | .setInUse _ _ => isTrue trivial

/-- At most one interval is left to wait. -/
def Pcb.WithinInterval (pcb : Pcb) : Prop :=
  pcb.rtcEnabled = true → pcb.remainingRtcTicks ≤ pcb.rtcInterval

theorem rtcHandler_withinInterval {pcb : Pcb} (hwithin : pcb.WithinInterval) :
    (rtcHandler pcb).WithinInterval := by
  have hcount := rtcHandler_remaining pcb
  have hrest : (rtcHandler pcb).rtcEnabled = pcb.rtcEnabled ∧
      (rtcHandler pcb).rtcInterval = pcb.rtcInterval := by
    unfold rtcHandler
    split <;> exact ⟨rfl, rfl⟩
  intro henabled
  have := hwithin (hrest.1 ▸ henabled)
  omega

/-- Only a `write` can leave more than one interval to wait. -/
theorem withinInterval_step (hslot : slot < maxProcesses)
    {pcbs next : Nat → Pcb} {event : RtcEvent} {ret : Int}
    (hwithin : (pcbs slot).WithinInterval)
    (hstep : rtcStep pcbs event = some (next, ret)) :
    (next slot).WithinInterval ↔ WritesInTime slot pcbs event := by
  have hcase := rtcStep_case hstep hslot
  clear hstep
  unfold WritesInTime
  generalize pcbs slot = pcb at hcase hwithin ⊢
  generalize next slot = after at hcase ⊢
  cases hcase with
  | tick => exact iff_of_true (rtcHandler_withinInterval hwithin) trivial
  | openRtc => exact iff_of_true (fun _ => Nat.le_refl _) trivial
  | accepted hertz hrate => simp [Pcb.WithinInterval, hrate]
  | refused hertz hrate =>
      exact iff_of_true hwithin fun _ hother => absurd hother hrate
  | completed => exact iff_of_true (fun _ => Nat.le_refl _) trivial
  | failed => exact iff_of_true hwithin trivial
  | closeRtc => exact iff_of_true (fun henabled => by cases henabled) trivial
  | setInUse => exact iff_of_true hwithin trivial
  | otherCall call ret hother =>
      refine iff_of_true hwithin ?_
      cases call with
      | writeRtc hertz => exact fun hsame => absurd hsame hother
      | openRtc | readRtc | closeRtc => trivial
  | otherSet => exact iff_of_true hwithin trivial

/-- A process that only waits counts every tick. -/
theorem waiting_counts (hslot : slot < maxProcesses) {start final : Nat → Pcb}
    {waiting : List RtcTransition}
    (hexec : Execution rtcStep start waiting final)
    (hown : ∀ transition ∈ waiting,
      transition.event.concerns slot = true → transition.event = .tick)
    (huse : (start slot).inUse = true)
    (henabled : (start slot).rtcEnabled = true) :
    (final slot).inUse = true ∧ (final slot).rtcEnabled = true ∧
      (final slot).remainingRtcTicks = (start slot).remainingRtcTicks -
        waiting.countP RtcTransition.IsTick := by
  induction hexec with
  | nil => exact ⟨huse, henabled, rfl⟩
  | @concat earlier state next event answer hearlier hstep ih =>
      obtain ⟨huse, henabled, hcount⟩ := ih fun transition hmem =>
        hown transition (List.mem_append_left _ hmem)
      have hlast := hown _ (List.mem_append_right _ List.mem_cons_self)
      rw [List.countP_append, List.countP_singleton, Nat.sub_add_eq, ← hcount]
      cases hevent : event.concerns slot with
      | true =>
          obtain rfl : event = .tick := hlast hevent
          obtain ⟨rfl, rfl⟩ := Prod.mk.inj (Option.some.inj hstep)
          rw [tickSlots_apply, if_pos hslot, rtcHandler_remaining, huse,
            henabled]
          refine ⟨?_, ?_, rfl⟩
          · unfold rtcHandler
            split <;> exact huse
          · unfold rtcHandler
            split <;> exact henabled
      | false =>
          have hsame : next slot = state slot := concerns_foreign hevent
            (by simp [OutFn.next, hstep])
          have htick : ¬ RtcTransition.IsTick ⟨state, event, answer, next⟩ := by
            intro htick
            obtain rfl : event = .tick := eq_of_beq htick
            cases hevent
          rw [hsame, if_neg htick]
          exact ⟨huse, henabled, rfl⟩

theorem rtcRead_isSome_iff {pcb : Pcb} (henabled : pcb.rtcEnabled = true) :
    (rtcRead pcb).isSome ↔ pcb.remainingRtcTicks = 0 := by
  rw [rtcRead, if_neg (by simp [henabled])]
  split <;> simp_all

theorem ticks_execution (start : Nat → Pcb) (count : Nat) :
    ∃ transitions final, Execution rtcStep start transitions final ∧
      transitions.countP RtcTransition.IsTick = count ∧
      ∀ transition ∈ transitions, transition.event = .tick := by
  induction count with
  | zero => exact ⟨[], start, .nil, rfl, fun _ hmem => by cases hmem⟩
  | succ count ih =>
      obtain ⟨transitions, final, hexec, hcount, hall⟩ := ih
      refine ⟨_, tickSlots final, hexec.concat (show rtcStep final
        .tick = some (tickSlots final, 0) from rfl), ?_, ?_⟩
      · rw [List.countP_append, hcount]
        rfl
      · intro transition hmem
        rcases List.mem_append.mp hmem with hmem | hmem
        · exact hall transition hmem
        · rw [List.mem_singleton.mp hmem]

/-- Whatever happens elsewhere while the process waits, its read returns once
so many ticks have come. -/
def ReadWithin (slot : Nat) (pcbs : Nat → Pcb) (ticks : Nat) : Prop :=
  ∀ waiting final, Execution rtcStep pcbs waiting final →
    (∀ transition ∈ waiting,
      transition.event.concerns slot = true → transition.event = .tick) →
    ticks ≤ waiting.countP RtcTransition.IsTick →
      (rtcStep final (.call slot .readRtc)).isSome

theorem readWithin_iff (hslot : slot < maxProcesses) {pcbs : Nat → Pcb}
    (huse : (pcbs slot).inUse = true)
    (henabled : (pcbs slot).rtcEnabled = true) (ticks : Nat) :
    ReadWithin slot pcbs ticks ↔ (pcbs slot).remainingRtcTicks ≤ ticks := by
  constructor
  · intro hwithin
    obtain ⟨waiting, final, hexec, hcount, hall⟩ := ticks_execution pcbs ticks
    have hread := hwithin waiting final hexec
      (fun transition hmem _ => hall transition hmem) (Nat.le_of_eq hcount.symm)
    obtain ⟨-, henabled, hleft⟩ := waiting_counts hslot hexec
      (fun transition hmem _ => hall transition hmem) huse henabled
    rw [rtcStep, Option.isSome_map, rtcCall, rtcRead_isSome_iff henabled]
      at hread
    omega
  · intro hle waiting final hexec hown hticks
    obtain ⟨-, henabled, hleft⟩ :=
      waiting_counts hslot hexec hown huse henabled
    rw [rtcStep, Option.isSome_map, rtcCall, rtcRead_isSome_iff henabled]
    omega

/-- At most one interval is left to wait in every state of a run exactly if no
accepted `write` finds more left than its new interval; and the next read after
a `write` waits for at most the new interval exactly if that one does not. -/
theorem rate_change_in_time_iff (hslot : slot < maxProcesses)
    {start final : Nat → Pcb} {events : List RtcEvent}
    (hstart : (start slot).WithinInterval)
    (hrun : rtcStep.next.run start events = some final) :
    (rtcStep.next.Throughout (fun pcbs => (pcbs slot).WithinInterval)
        start events ↔
      rtcStep.next.Along (WritesInTime slot) start events) ∧
    (∀ pcbs hertz after, (pcbs slot).inUse = true →
      (pcbs slot).rtcEnabled = true →
      rtcStep pcbs (.call slot (.writeRtc hertz)) = some (after, 0) →
        (ReadWithin slot after (maxFreq / hertz) ↔
          (pcbs slot).remainingRtcTicks ≤ maxFreq / hertz)) := by
  refine ⟨?_, ?_⟩
  · refine @StepFn.throughout_iff_along _ _ rtcStep.next (fun _ => True)
      (fun pcbs => (pcbs slot).WithinInterval) (WritesInTime slot)
      (fun _ _ _ _ _ => trivial) ?_ start final events trivial hstart hrun
    intro pcbs event next _ hwithin hnext
    obtain ⟨⟨_, ret⟩, hstep, rfl⟩ := Option.map_eq_some_iff.mp hnext
    exact withinInterval_step hslot hwithin hstep
  · intro pcbs hertz after huse henabled hstep
    obtain ⟨-, hafter⟩ := (rtcStep_case hstep hslot).written
    rw [readWithin_iff hslot]
    · rw [hafter]
    · rw [hafter]
      exact huse
    · rw [hafter]
      exact henabled

/-- A lower rate asked for after the `open` is in time. -/
theorem rate_change_in_time_at_two :
    rtcStep.next.Throughout (fun pcbs => (pcbs 0).WithinInterval) idleClocks
      [.call 0 .openRtc, .tick, .call 0 (.writeRtc 2), .tick] := by
  obtain ⟨final, hrun⟩ : ∃ final, rtcStep.next.run idleClocks
      [.call 0 .openRtc, .tick, .call 0 (.writeRtc 2), .tick] = some final :=
    ⟨_, rfl⟩
  exact (rate_change_in_time_iff (by decide) (fun h => by cases h) hrun).1.mpr
    (by decide +kernel)

/-- A higher rate asked for after the `open` is not: 512 ticks are left where
the interval is 1. -/
theorem rate_change_late :
    ∃ final, rtcStep.next.run idleClocks [.call 0 .openRtc,
        .call 0 (.writeRtc 1024)] = some final ∧
      (final 0).rtcEnabled = true ∧ (final 0).rtcInterval = 1 ∧
      (final 0).remainingRtcTicks = 512 :=
  ⟨_, rfl, rfl, rfl, rfl⟩

end Waiting

end PsychOS
