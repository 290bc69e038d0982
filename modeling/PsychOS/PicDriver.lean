/-
The interrupt controllers and their driver (`arch/x86/i8259.c`).  The driver
keeps the masks in variables of its own.  They agree with the controllers only
once something has been written to the slave after the initialisation, which
opens all its lines.  What is accepted enters the kernel by the table of
`entry`; an interrupt there that no device handler ends keeps the lines behind
its own waiting for good.
-/
import PsychOS.InterruptTable
import PsychOS.Lib.Execution
import PsychOS.Lib.InterruptController

namespace PsychOS

/-- `master_mask` and `slave_mask`, and the controllers. -/
structure PicDriver where
  masterMask : BitVec 8
  slaveMask : BitVec 8
  master : Pic
  slave : Pic

abbrev slaveBit : Nat := 8
abbrev irqMasterOffset : Nat := 8

/-- `EOI`. -/
abbrev endOfInterrupt : Nat := 0x60

/-- `outportb`, for the ports of the controllers. -/
def outportb (port : Nat) (byte : BitVec 8) (driver : PicDriver) : PicDriver :=
  match port with
  | 0x20 => { driver with master := driver.master.writeCommand byte }
  | 0x21 => { driver with master := driver.master.writeData byte }
  | 0xA0 => { driver with slave := driver.slave.writeCommand byte }
  | 0xA1 => { driver with slave := driver.slave.writeData byte }
  | _ => driver

/-- `i8259_init`.  The third word for the master is `ICW3_SLAVE`, as for the
slave. -/
def i8259Init (driver : PicDriver) : PicDriver :=
  let driver := outportb 0x21 driver.masterMask driver
  let driver := outportb 0xA1 driver.slaveMask driver
  let driver := outportb 0x20 0x11 driver
  let driver := outportb 0x21 0x20 driver
  let driver := outportb 0x21 0x02 driver
  let driver := outportb 0x21 0x01 driver
  let driver := outportb 0xA0 0x11 driver
  let driver := outportb 0xA1 0x28 driver
  let driver := outportb 0xA1 0x02 driver
  let driver := outportb 0xA1 0x01 driver
  let driver := { driver with masterMask := driver.masterMask &&& ~~~0x04 }
  outportb 0x21 driver.masterMask driver

/-- `1 << n`, cut to the mask it goes into. -/
def lineBit (n : Nat) : BitVec 8 := (1#32 <<< n).setWidth 8

/-- The common part of `enable_irq` and `disable_irq`: the mask with the bit of
the line, changed and written. -/
def changeMask (change : BitVec 8 → BitVec 8 → BitVec 8) (irqNum : Nat)
    (driver : PicDriver) : PicDriver :=
  if irqNum &&& slaveBit ≠ 0 then
    let mask := change driver.slaveMask (lineBit (irqNum - irqMasterOffset))
    outportb 0xA1 mask { driver with slaveMask := mask }
  else
    let mask := change driver.masterMask (lineBit irqNum)
    outportb 0x21 mask { driver with masterMask := mask }

def enableIrq (irqNum : Nat) (driver : PicDriver) : PicDriver :=
  changeMask (fun mask bit => mask &&& ~~~bit) irqNum driver

def disableIrq (irqNum : Nat) (driver : PicDriver) : PicDriver :=
  changeMask (fun mask bit => mask ||| bit) irqNum driver

def sendEoi (irqNum : Nat) (driver : PicDriver) : PicDriver :=
  if irqNum &&& slaveBit ≠ 0 then
    outportb 0x20 (BitVec.ofNat 8 (endOfInterrupt ||| 2))
      (outportb 0xA0
        (BitVec.ofNat 8 (endOfInterrupt ||| (irqNum - irqMasterOffset)))
        driver)
  else outportb 0x20 (BitVec.ofNat 8 (endOfInterrupt ||| irqNum)) driver

/-- The lines with a device handler: the timer, the keyboard and the clock.
The other vectors lead to `null_interrupt_handler`. -/
def Handled (irq : Nat) : Prop := irq = 0 ∨ irq = 1 ∨ irq = 8

instance : DecidablePred Handled := fun _ =>
  inferInstanceAs (Decidable (_ ∨ _ ∨ _))

/-- What a handler does to the controllers.  The timer's sends the end once,
before it enters a program that has not run yet or after the switch, on the
stack of the process that goes on. -/
def handleIrq (irq : Nat) (driver : PicDriver) : PicDriver :=
  if Handled irq then sendEoi irq driver else driver

/-- Calls of the driver, requests of devices, and interrupts that the processor
accepts and handles. -/
inductive PicEvent where
  | enable (irq : Fin 16)
  | disable (irq : Fin 16)
  | request (irq : Fin 16)
  | interrupt

def requestIrq (irq : Nat) (driver : PicDriver) : PicDriver :=
  if irq < 8 then { driver with master := driver.master.request irq }
  else { driver with slave := driver.slave.request (irq - 8) }

/-- One event, with the interrupt that was accepted. -/
def picStep : OutFn PicDriver PicEvent (Option Nat)
  | driver, .enable irq => some (enableIrq irq driver, none)
  | driver, .disable irq => some (disableIrq irq driver, none)
  | driver, .request irq => some (requestIrq irq driver, none)
  | driver, .interrupt =>
      (Pics.accept ⟨driver.master, driver.slave⟩).map fun (irq, pics) =>
        (handleIrq irq { driver with master := pics.master, slave := pics.slave },
          some irq)

/-- The driver as it is loaded, with the controllers in any state. -/
def loadedDriver (master slave : Pic) : PicDriver :=
  ⟨0xFF, 0xFF, master, slave⟩

/-- The controllers as the firmware leaves them, with its own vectors. -/
def bootedDriver : PicDriver :=
  loadedDriver ⟨0xB8, fun _ => false, fun _ => false, 0x08, 0x04, []⟩
    ⟨0x8E, fun _ => false, fun _ => false, 0x70, 0x02, []⟩

/-- What the calls are for: the lines that are enabled. -/
def enabledLines (enabled : Nat → Bool) : PicEvent → Nat → Bool
  | .enable irq => Function.update enabled irq true
  | .disable irq => Function.update enabled irq false
  | .request _ => enabled
  | .interrupt => enabled

/-- The lines enabled after the events; the initialisation opens line 2. -/
def enabledAfter (events : List PicEvent) : Nat → Bool :=
  events.foldl enabledLines fun irq => irq == 2

/-- The calls that write the mask of the slave. -/
def PicEvent.IsSlaveCall : PicEvent → Bool
  | .enable irq => decide (8 ≤ irq.val)
  | .disable irq => decide (8 ≤ irq.val)
  | .request _ => false
  | .interrupt => false

section Driver

variable {driver next : PicDriver} {irq line : Nat}

theorem slave_iff : ∀ irq < 16, irq &&& slaveBit ≠ 0 ↔ 8 ≤ irq := by decide

theorem lineBit_getLsbD : ∀ n < 8, ∀ line < 8,
    (lineBit n).getLsbD line = decide (line = n) := by decide

theorem writeCommand_end (hline : line < 8) (pic : Pic) :
    pic.writeCommand (BitVec.ofNat 8 (endOfInterrupt ||| line)) =
      pic.finish line := by
  have hall : ∀ line < 8,
      (BitVec.ofNat 8 (endOfInterrupt ||| line)).getLsbD 4 = false ∧
        BitVec.ofNat 8 (endOfInterrupt ||| line) &&& 0xF8 = 0x60 ∧
        (BitVec.ofNat 8 (endOfInterrupt ||| line) &&& 7).toNat = line := by
    decide
  obtain ⟨hfirst, hend, hnumber⟩ := hall line hline
  rw [Pic.writeCommand, hfirst, if_neg Bool.false_ne_true, if_pos hend, hnumber]
  rfl

theorem sendEoi_master (hirq : irq < 8) :
    sendEoi irq driver =
      { driver with master := driver.master.finish irq } := by
  have hslave : ¬ irq &&& slaveBit ≠ 0 := by
    rw [slave_iff irq (by omega)]
    omega
  rw [sendEoi, if_neg hslave, outportb, writeCommand_end hirq]

theorem sendEoi_slave (hline : line < 8) :
    sendEoi (8 + line) driver =
      { driver with
        master := driver.master.finish 2
        slave := driver.slave.finish line } := by
  have hslave : (8 + line) &&& slaveBit ≠ 0 := by
    rw [slave_iff (8 + line) (by omega)]
    omega
  have hnumber : 8 + line - irqMasterOffset = line := Nat.add_sub_cancel_left ..
  have hmaster := writeCommand_end (show 2 < 8 by decide) driver.master
  rw [sendEoi, if_pos hslave, hnumber]
  simp only [outportb, writeCommand_end hline, hmaster]

/-- Whatever the controllers were doing, the first word starts them again, and
only the master gets its mask back. -/
theorem i8259Init_eq (driver : PicDriver) :
    i8259Init driver =
      { masterMask := driver.masterMask &&& ~~~0x04
        slaveMask := driver.slaveMask
        master := ⟨driver.masterMask &&& ~~~0x04, fun _ => false,
          fun _ => false, 0x20, 0x02, []⟩
        slave := ⟨0, fun _ => false, fun _ => false, 0x28, 0x02, []⟩ } := by
  have hmaster : (0x20 : BitVec 8) &&& 0xF8 = 0x20 := by decide
  have hslave : (0x28 : BitVec 8) &&& 0xF8 = 0x28 := by decide
  simp only [i8259Init, outportb, Pic.initialise_eq, hmaster, hslave]
  rfl

/-- The handler of the device on a line. -/
def HandlerAddresses.deviceHandler (addrs : HandlerAddresses) (irq : Nat) :
    BitVec 32 :=
  if irq = 0 then addrs.pitHandlerWrapper
  else if irq = 8 then addrs.rtcHandlerWrapper
  else if irq = 1 then addrs.keyboardHandlerWrapper
  else addrs.nullInterruptHandler

/-- Where the vectors of the lines are in the table. -/
theorem irqIntNum_facts : ∀ irq < 16,
    (irqIntNum (BitVec.ofNat 8 irq) = irqIntNum pitIrq ↔ irq = 0) ∧
      (irqIntNum (BitVec.ofNat 8 irq) = irqIntNum rtcIrq ↔ irq = 8) ∧
      (irqIntNum (BitVec.ofNat 8 irq) = irqIntNum keyboardIrq ↔ irq = 1) ∧
      irqIntNum (BitVec.ofNat 8 irq) ≠ syscallInt ∧
      ¬ (irqIntNum (BitVec.ofNat 8 irq)).toNat < numReservedVec := by
  decide

theorem HandlerAddresses.handler_irqIntNum (addrs : HandlerAddresses)
    (hirq : irq < 16) :
    addrs.handler (irqIntNum (BitVec.ofNat 8 irq)) =
      addrs.deviceHandler irq := by
  obtain ⟨hpit, hrtc, hkeyboard, hsyscall, hreserved⟩ :=
    irqIntNum_facts irq hirq
  simp only [handler, deviceHandler, hpit, hrtc, hkeyboard, if_neg hsyscall,
    if_neg hreserved]

theorem HandlerAddresses.deviceHandler_of_not_handled
    (addrs : HandlerAddresses) (hhandled : ¬ Handled irq) :
    addrs.deviceHandler irq = addrs.nullInterruptHandler := by
  obtain ⟨hpit, hkeyboard, hrtc⟩ : irq ≠ 0 ∧ irq ≠ 1 ∧ irq ≠ 8 := by
    simpa only [Handled, not_or] using hhandled
  rw [deviceHandler, if_neg hpit, if_neg hrtc, if_neg hkeyboard]

/-- A mask operation that opens or closes the line of the bit. -/
def Sets (change : BitVec 8 → BitVec 8 → BitVec 8) (opens : Bool) : Prop :=
  ∀ (mask : BitVec 8) (n line : Nat), n < 8 → line < 8 →
    (change mask (lineBit n)).getLsbD line =
      if line = n then !opens else mask.getLsbD line

theorem sets_enable : Sets (fun mask bit => mask &&& ~~~bit) true := by
  intro mask n line hn hline
  rw [BitVec.getLsbD_and, BitVec.getLsbD_not, lineBit_getLsbD n hn line hline,
    decide_eq_true hline]
  by_cases heq : line = n <;> simp [heq]

theorem sets_disable : Sets (fun mask bit => mask ||| bit) false := by
  intro mask n line hn hline
  rw [BitVec.getLsbD_or, lineBit_getLsbD n hn line hline]
  by_cases heq : line = n <;> simp [heq]

/-- The masks of the driver are those of the enabled lines, and the controllers
are set up for the vectors of the table.  The slave has its mask only once it
has been written. -/
structure Follows (enabled : Nat → Bool) (written : Bool)
    (driver : PicDriver) : Prop where
  masterMask : ∀ line < 8, driver.masterMask.getLsbD line = !enabled line
  slaveMask : ∀ line < 8, driver.slaveMask.getLsbD line = !enabled (8 + line)
  master : driver.master.setup = (driver.masterMask, 0x20, 0x02, [])
  slave : driver.slave.setup =
    (if written then driver.slaveMask else 0, 0x28, 0x02, [])

/-- The vectors of the controllers are those the devices have in the table. -/
theorem Follows.vector {enabled : Nat → Bool} {written : Bool}
    (hfollows : Follows enabled written driver) (hirq : irq < 16) :
    Pics.vector ⟨driver.master, driver.slave⟩ irq =
      irqIntNum (BitVec.ofNat 8 irq) := by
  have hall : ∀ irq < 16,
      (if irq < 8 then (0x20 : BitVec 8) ||| BitVec.ofNat 8 irq
        else 0x28 ||| BitVec.ofNat 8 (irq - 8)) =
        irqIntNum (BitVec.ofNat 8 irq) := by decide
  have hmaster := Pic.setup_eq_iff.mp hfollows.master
  have hslave := Pic.setup_eq_iff.mp hfollows.slave
  rw [Pics.vector, hmaster.2.1, hslave.2.1]
  exact hall irq hirq

theorem follows_i8259Init (master slave : Pic) :
    Follows (fun irq => irq == 2) false
      (i8259Init (loadedDriver master slave)) := by
  have hmaster : ∀ line < 8,
      ((0xFF : BitVec 8) &&& ~~~0x04).getLsbD line = !(line == 2) := by decide
  have hslave : ∀ line < 8,
      (0xFF : BitVec 8).getLsbD line = !(8 + line == 2) := by decide
  rw [i8259Init_eq]
  exact ⟨hmaster, hslave, rfl, rfl⟩

theorem Follows.changeMask {change : BitVec 8 → BitVec 8 → BitVec 8}
    {opens written : Bool} {enabled : Nat → Bool}
    (hfollows : Follows enabled written driver) (hsets : Sets change opens)
    (hirq : irq < 16) :
    Follows (Function.update enabled irq opens) (written || decide (8 ≤ irq))
      (changeMask change irq driver) := by
  by_cases hslave : 8 ≤ irq
  · rw [PsychOS.changeMask, if_pos ((slave_iff irq hirq).mpr hslave)]
    refine ⟨?_, ?_, hfollows.master, ?_⟩
    · intro line hline
      rw [Function.update_of_ne (by omega)]
      exact hfollows.masterMask line hline
    · intro line hline
      refine (hsets driver.slaveMask (irq - 8) line (by omega) hline).trans ?_
      by_cases heq : line = irq - 8
      · obtain rfl : 8 + line = irq := by omega
        rw [if_pos heq, Function.update_self]
      · rw [if_neg heq, Function.update_of_ne (by omega)]
        exact hfollows.slaveMask line hline
    · rw [decide_eq_true hslave, Bool.or_true, if_pos rfl]
      exact Pic.setup_writeData hfollows.slave _
  · rw [PsychOS.changeMask, if_neg (mt (slave_iff irq hirq).mp hslave)]
    refine ⟨?_, ?_, Pic.setup_writeData hfollows.master _, ?_⟩
    · intro line hline
      refine (hsets driver.masterMask irq line (by omega) hline).trans ?_
      by_cases heq : line = irq
      · rw [if_pos heq, heq, Function.update_self]
      · rw [if_neg heq, Function.update_of_ne heq]
        exact hfollows.masterMask line hline
    · intro line hline
      rw [Function.update_of_ne (by omega)]
      exact hfollows.slaveMask line hline
    · rw [decide_eq_false hslave, Bool.or_false]
      exact hfollows.slave

/-- A controller that has passed an interrupt on, after the handler. -/
def served (irq line : Nat) (pic : Pic) : Pic :=
  if Handled irq then (pic.accept line).finish line else pic.accept line

@[simp] theorem setup_served (pic : Pic) :
    (served irq line pic).setup = pic.setup := by
  unfold served
  split <;> rfl

theorem inService_served_of_handled {pic : Pic} (hhandled : Handled irq)
    (hfree : pic.inService line = false) :
    (served irq line pic).inService = pic.inService := by
  rw [served, if_pos hhandled]
  exact Pic.inService_accept_end hfree

theorem inService_served_of_ne {pic : Pic} {other : Nat} (hne : other ≠ line)
    (hservice : pic.inService other = true) :
    (served irq line pic).inService other = true := by
  have haccept : (pic.accept line).inService other = true :=
    Pic.inService_accept_of hservice
  unfold served
  split
  · exact (Pic.inService_finish_of_ne hne).trans haccept
  · exact haccept

theorem inService_served_of_not_handled {pic : Pic}
    (hhandled : ¬ Handled irq) :
    (served irq line pic).inService line = true := by
  rw [served, if_neg hhandled]
  exact Function.update_self ..

/-- What an interrupt does: its line of the master is free down to the first,
and the controllers it comes through serve it. -/
theorem interrupt_cases {answer : Option Nat}
    (hstep : picStep driver .interrupt = some (next, answer)) :
    ∃ irq, answer = some irq ∧ irq < 16 ∧
      (∀ other ≤ Pics.masterLine irq, driver.master.inService other = false) ∧
      next.master = served irq (Pics.masterLine irq) driver.master ∧
      next.masterMask = driver.masterMask ∧
      next.slaveMask = driver.slaveMask ∧
      (next.slave = driver.slave ∨
        ∃ line, driver.slave.inService line = false ∧
          next.slave = served irq line driver.slave) := by
  obtain ⟨⟨irq, pics⟩, haccept, heq⟩ := Option.map_eq_some_iff.mp hstep
  obtain ⟨rfl, rfl⟩ := Prod.mk.inj heq
  obtain ⟨hfree, ⟨hlt, rfl⟩ | ⟨line, hline, rfl, hslave, rfl⟩⟩ :=
    Pics.accept_cases haccept
  · have hmaster : Pics.masterLine irq = irq := if_pos hlt
    refine ⟨irq, rfl, by omega, hfree, ?_⟩
    rw [handleIrq, sendEoi_master hlt, hmaster, served]
    split
    · exact ⟨rfl, rfl, rfl, Or.inl rfl⟩
    · exact ⟨rfl, rfl, rfl, Or.inl rfl⟩
  · have hmaster : Pics.masterLine (8 + line) = 2 := if_neg (by omega)
    refine ⟨8 + line, rfl, by omega, hfree, ?_⟩
    have hserved (pic : Pic) (place : Nat) : served (8 + line) place pic =
        if Handled (8 + line) then (pic.accept place).finish place
        else pic.accept place := rfl
    rw [handleIrq, sendEoi_slave hline, hmaster, hserved]
    split
    case isTrue h =>
      exact ⟨rfl, rfl, rfl, Or.inr ⟨line, hslave, (if_pos h).symm⟩⟩
    case isFalse h =>
      exact ⟨rfl, rfl, rfl, Or.inr ⟨line, hslave, (if_neg h).symm⟩⟩

theorem Follows.of_setup {enabled : Nat → Bool} {written : Bool}
    (hfollows : Follows enabled written driver)
    (hmasterMask : next.masterMask = driver.masterMask)
    (hslaveMask : next.slaveMask = driver.slaveMask)
    (hmaster : next.master.setup = driver.master.setup)
    (hslave : next.slave.setup = driver.slave.setup) :
    Follows enabled written next := by
  refine ⟨?_, ?_, ?_, ?_⟩
  · rw [hmasterMask]
    exact hfollows.masterMask
  · rw [hslaveMask]
    exact hfollows.slaveMask
  · rw [hmaster, hmasterMask]
    exact hfollows.master
  · rw [hslave, hslaveMask]
    exact hfollows.slave

theorem Follows.requestIrq {enabled : Nat → Bool} {written : Bool}
    (hfollows : Follows enabled written driver) :
    Follows enabled written (requestIrq irq driver) := by
  unfold PsychOS.requestIrq
  split
  · exact hfollows.of_setup rfl rfl rfl rfl
  · exact hfollows.of_setup rfl rfl rfl rfl

theorem inService_changeMask (change : BitVec 8 → BitVec 8 → BitVec 8) :
    (changeMask change irq driver).master.inService =
        driver.master.inService ∧
      (changeMask change irq driver).slave.inService =
        driver.slave.inService := by
  unfold changeMask
  split
  · exact ⟨rfl, Pic.inService_writeData _⟩
  · exact ⟨Pic.inService_writeData _, rfl⟩

theorem inService_requestIrq :
    (requestIrq irq driver).master.inService = driver.master.inService ∧
      (requestIrq irq driver).slave.inService = driver.slave.inService := by
  unfold requestIrq
  split <;> exact ⟨rfl, rfl⟩

end Driver

section Step

variable {driver next : PicDriver} {event : PicEvent} {answer : Option Nat}

theorem picStep_follows {enabled : Nat → Bool} {written : Bool}
    (hstep : picStep driver event = some (next, answer))
    (hfollows : Follows enabled written driver) :
    Follows (enabledLines enabled event) (written || event.IsSlaveCall)
      next := by
  cases event with
  | enable irq =>
      obtain ⟨rfl, -⟩ := Prod.mk.inj (Option.some.inj hstep)
      exact hfollows.changeMask sets_enable irq.isLt
  | disable irq =>
      obtain ⟨rfl, -⟩ := Prod.mk.inj (Option.some.inj hstep)
      exact hfollows.changeMask sets_disable irq.isLt
  | request irq =>
      obtain ⟨rfl, -⟩ := Prod.mk.inj (Option.some.inj hstep)
      rw [PicEvent.IsSlaveCall, Bool.or_false]
      exact hfollows.requestIrq
  | interrupt =>
      obtain ⟨irq, -, -, -, hmaster, hmasterMask, hslaveMask, hslave⟩ :=
        interrupt_cases hstep
      rw [PicEvent.IsSlaveCall, Bool.or_false]
      refine hfollows.of_setup hmasterMask hslaveMask ?_ ?_
      · rw [hmaster, setup_served]
      · rcases hslave with hslave | ⟨line, -, hslave⟩
        · rw [hslave]
        · rw [hslave, setup_served]

/-- Only an interrupt has something in service begin or end. -/
theorem picStep_inService (hstep : picStep driver event = some (next, answer)) :
    (answer = none ∧ next.master.inService = driver.master.inService ∧
        next.slave.inService = driver.slave.inService) ∨
      event = .interrupt := by
  cases event with
  | enable irq =>
      obtain ⟨rfl, rfl⟩ := Prod.mk.inj (Option.some.inj hstep)
      exact Or.inl ⟨rfl, inService_changeMask _⟩
  | disable irq =>
      obtain ⟨rfl, rfl⟩ := Prod.mk.inj (Option.some.inj hstep)
      exact Or.inl ⟨rfl, inService_changeMask _⟩
  | request irq =>
      obtain ⟨rfl, rfl⟩ := Prod.mk.inj (Option.some.inj hstep)
      exact Or.inl ⟨rfl, inService_requestIrq⟩
  | interrupt => exact Or.inr rfl

/-- A line of the master in service stays so, and what is accepted comes in
before it. -/
theorem picStep_blocked {line : Nat}
    (hstep : picStep driver event = some (next, answer))
    (hservice : driver.master.inService line = true) :
    next.master.inService line = true ∧
      ∀ irq, answer = some irq → Pics.masterLine irq < line := by
  rcases picStep_inService hstep with ⟨rfl, hmaster, -⟩ | rfl
  · rw [hmaster]
    exact ⟨hservice, fun irq hirq => nomatch hirq⟩
  · obtain ⟨irq, rfl, -, hfree, hmaster, -⟩ := interrupt_cases hstep
    -- Nothing up to the accepted line was in service, but `line` is.
    have hlt : Pics.masterLine irq < line := by
      by_contra hle
      rw [hfree line (Nat.le_of_not_lt hle)] at hservice
      exact Bool.false_ne_true hservice
    refine ⟨?_, fun other hother => Option.some.inj hother ▸ hlt⟩
    rw [hmaster]
    exact inService_served_of_ne (Nat.ne_of_gt hlt) hservice

theorem picStep_irq_lt {irq : Nat}
    (hstep : picStep driver event = some (next, some irq)) : irq < 16 := by
  rcases picStep_inService hstep with ⟨hnone, -⟩ | rfl
  · exact nomatch hnone
  · obtain ⟨_, heq, hlt, -⟩ := interrupt_cases hstep
    obtain rfl := Option.some.inj heq
    exact hlt

/-- Nobody ends an interrupt without a device handler. -/
theorem picStep_unhandled {irq : Nat}
    (hstep : picStep driver event = some (next, some irq))
    (hhandled : ¬ Handled irq) :
    next.master.inService (Pics.masterLine irq) = true := by
  rcases picStep_inService hstep with ⟨hnone, -⟩ | rfl
  · exact nomatch hnone
  · obtain ⟨_, heq, -, -, hmaster, -⟩ := interrupt_cases hstep
    obtain rfl := Option.some.inj heq
    rw [hmaster]
    exact inService_served_of_not_handled hhandled

/-- A handled interrupt leaves in service what was in service before it. -/
theorem picStep_handled (hstep : picStep driver event = some (next, answer))
    (hhandled : ∀ irq, answer = some irq → Handled irq) :
    next.master.inService = driver.master.inService ∧
      next.slave.inService = driver.slave.inService := by
  rcases picStep_inService hstep with ⟨-, hsame⟩ | rfl
  · exact hsame
  · obtain ⟨irq, rfl, -, hfree, hmaster, -, -, hslave⟩ := interrupt_cases hstep
    have hirq := hhandled irq rfl
    rw [hmaster, inService_served_of_handled hirq (hfree _ (Nat.le_refl _))]
    rcases hslave with hslave | ⟨line, hline, hslave⟩
    · rw [hslave]
      exact ⟨rfl, rfl⟩
    · rw [hslave, inService_served_of_handled hirq hline]
      exact ⟨rfl, rfl⟩

end Step

section Runs

variable {start final : PicDriver}
  {transitions : List (Transition PicDriver PicEvent (Option Nat))}

theorem execution_follows {master slave : Pic}
    (hexec : Execution picStep (i8259Init (loadedDriver master slave))
      transitions final) :
    Follows (enabledAfter (transitions.map Transition.event))
      ((transitions.map Transition.event).any PicEvent.IsSlaveCall) final := by
  induction hexec with
  | nil => exact follows_i8259Init master slave
  | concat _ hstep ih =>
      have hnext := picStep_follows hstep ih
      rw [List.map_append, enabledAfter, List.foldl_append, List.any_append,
        List.map_singleton, List.any_cons, List.any_nil, Bool.or_false]
      exact hnext

theorem execution_blocked {line : Nat}
    (hexec : Execution picStep start transitions final)
    (hservice : start.master.inService line = true) :
    final.master.inService line = true ∧
      ∀ transition ∈ transitions, ∀ irq,
        transition.answer = some irq → Pics.masterLine irq < line := by
  induction hexec with
  | nil => exact ⟨hservice, by simp⟩
  | concat _ hstep ih =>
      obtain ⟨hlast, hbefore⟩ := picStep_blocked hstep ih.1
      refine ⟨hlast, ?_⟩
      intro transition hmem
      rcases List.mem_append.mp hmem with hold | hnew
      · exact ih.2 transition hold
      · obtain rfl := List.mem_singleton.mp hnew
        exact hbefore

theorem execution_handled (hexec : Execution picStep start transitions final)
    (hhandled : ∀ transition ∈ transitions, ∀ irq,
      transition.answer = some irq → Handled irq) :
    final.master.inService = start.master.inService ∧
      final.slave.inService = start.slave.inService := by
  induction hexec with
  | nil => exact ⟨rfl, rfl⟩
  | concat _ hstep ih =>
      obtain ⟨hmaster, hslave⟩ := ih fun transition hmem =>
        hhandled transition (List.mem_append_left _ hmem)
      have hlast := picStep_handled hstep
        (hhandled _ (List.mem_append_right _ List.mem_cons_self))
      exact ⟨hlast.1.trans hmaster, hlast.2.trans hslave⟩

/-- Along every run the master passes on exactly the lines that have been
enabled.  The slave does so only after a first call for one of its lines:
until then it passes on all of them, though `slave_mask` has them closed.  The
vectors are those the table has its handlers at, and the master is told of a
slave on line 1. -/
theorem open_lines_follow_calls {master slave : Pic}
    (hexec : Execution picStep (i8259Init (loadedDriver master slave))
      transitions final) :
    (∀ line < 8, final.master.masked.getLsbD line =
        !enabledAfter (transitions.map Transition.event) line) ∧
      (∀ line < 8, final.slave.masked.getLsbD line =
        ((transitions.map Transition.event).any PicEvent.IsSlaveCall &&
          !enabledAfter (transitions.map Transition.event) (8 + line))) ∧
      final.master.vectors = 0x20 ∧ final.slave.vectors = 0x28 ∧
      final.master.cascade = 0x02 ∧ final.slave.cascade = 0x02 := by
  have hfollows := execution_follows hexec
  have hmaster := Pic.setup_eq_iff.mp hfollows.master
  have hslave := Pic.setup_eq_iff.mp hfollows.slave
  refine ⟨?_, ?_, hmaster.2.1, hslave.2.1, hmaster.2.2.1, hslave.2.2.1⟩
  · intro line hline
    rw [hmaster.1]
    exact hfollows.masterMask line hline
  · intro line hline
    rw [hslave.1, ← hfollows.slaveMask line hline]
    split
    case isTrue hwritten => rw [hwritten, Bool.true_and]
    case isFalse hwritten =>
      rw [Bool.eq_false_iff.mpr hwritten, Bool.false_and]
      exact BitVec.getLsbD_zero

/-- Before the first call for a line of the slave its line 4 is open. -/
theorem open_lines_before_slave_call :
    ∃ transitions final,
      trace picStep (i8259Init bootedDriver) [.enable 1, .request 12] =
        some (transitions, final) ∧
        final.slaveMask.getLsbD 4 = true ∧
        final.slave.masked.getLsbD 4 = false ∧
        final.master.masked.getLsbD 1 = false ∧
        final.master.masked.getLsbD 0 = true := by
  have hmask : (trace picStep (i8259Init bootedDriver)
      [.enable 1, .request 12]).map (·.2.slaveMask.getLsbD 4) =
        some true := by decide +kernel
  obtain ⟨⟨transitions, final⟩, htrace, hslaveMask⟩ :=
    Option.map_eq_some_iff.mp hmask
  obtain ⟨hexec, hevents⟩ := trace_execution htrace
  obtain ⟨hmaster, hslave, -⟩ := open_lines_follow_calls hexec
  rw [hevents] at hmaster hslave
  exact ⟨transitions, final, htrace, hslaveMask,
    (hslave 4 (by decide)).trans (by decide),
    (hmaster 1 (by decide)).trans (by decide),
    (hmaster 0 (by decide)).trans (by decide)⟩

/-- Every interrupt that is accepted after the initialisation enters the kernel
at the handler of its own device in the table that `entry` sets up, and one
without a device handler at `null_interrupt_handler`. -/
theorem interrupt_reaches_handler {master slave : Pic}
    (hexec : Execution picStep (i8259Init (loadedDriver master slave))
      transitions final)
    {transition : Transition PicDriver PicEvent (Option Nat)} {irq : Nat}
    (hmem : transition ∈ transitions) (hanswer : transition.answer = some irq)
    (addrs : HandlerAddresses) (idt : Idt) :
    decodeGate (setUpIdt addrs idt
        (Pics.vector ⟨transition.before.master, transition.before.slave⟩
          irq)).val = some {
      offset := addrs.deviceHandler irq
      selector := kernelCs.setWidth 32
      present := true
      dpl := 0 } ∧
      (¬ Handled irq →
        addrs.deviceHandler irq = addrs.nullInterruptHandler) := by
  obtain ⟨earlier, later, rfl⟩ := List.append_of_mem hmem
  obtain ⟨hearlier, hstep, -⟩ := hexec.split
  rw [hanswer] at hstep
  have hirq := picStep_irq_lt hstep
  refine ⟨?_, addrs.deviceHandler_of_not_handled⟩
  rw [(execution_follows hearlier).vector hirq, decodeGate_setUpIdt,
    addrs.handler_irqIntNum hirq, if_neg (irqIntNum_facts irq hirq).2.2.2.1]

/-- The keyboard's first interrupt. -/
theorem interrupt_reaches_handler_keyboard :
    ∃ transition : Transition PicDriver PicEvent (Option Nat),
      transition.answer = some 1 ∧
        decodeGate (setUpIdt ⟨fun _ => 0, 1, 2, 3, 4, 5⟩
          (fun _ => exceptionHandleDesc 0 0 0)
          (Pics.vector ⟨transition.before.master, transition.before.slave⟩
            1)).val = some {
          offset := 3
          selector := kernelCs.setWidth 32
          present := true
          dpl := 0 } := by
  have hrun : (trace picStep (i8259Init bootedDriver)
      [.enable 1, .request 1, .interrupt]).map (·.1.map Transition.answer) =
      some [none, none, some 1] := by decide +kernel
  obtain ⟨⟨transitions, final⟩, htrace, hanswers⟩ :=
    Option.map_eq_some_iff.mp hrun
  have hkeyboard : some 1 ∈ transitions.map Transition.answer := by
    rw [hanswers]
    decide
  obtain ⟨transition, hmem, hanswer⟩ := List.mem_map.mp hkeyboard
  exact ⟨transition, hanswer, (interrupt_reaches_handler
    (trace_execution htrace).1 hmem hanswer _ _).1⟩

/-- After the initialisation nothing is in service between two events exactly
as long as only the timer, the keyboard and the clock have interrupted. -/
theorem idle_iff_all_handled {driver : PicDriver}
    (hexec : Execution picStep (i8259Init driver) transitions final) :
    (∀ line, final.master.inService line = false ∧
        final.slave.inService line = false) ↔
      ∀ transition ∈ transitions, ∀ irq,
        transition.answer = some irq → Handled irq := by
  constructor
  · intro hidle transition hmem irq hanswer
    by_contra hhandled
    -- It would still be in service at the end of the run.
    obtain ⟨earlier, later, rfl⟩ := List.append_of_mem hmem
    obtain ⟨-, hstep, hlater⟩ := hexec.split
    rw [hanswer] at hstep
    have hservice :=
      (execution_blocked hlater (picStep_unhandled hstep hhandled)).1
    rw [(hidle _).1] at hservice
    exact Bool.false_ne_true hservice
  · intro hhandled line
    obtain ⟨hmaster, hslave⟩ := execution_handled hexec hhandled
    rw [hmaster, hslave, i8259Init_eq]
    exact ⟨rfl, rfl⟩

/-- The keyboard and the clock, one after the other. -/
theorem idle_after_keyboard_and_clock :
    ∃ transitions final,
      trace picStep (i8259Init bootedDriver)
          [.enable 1, .enable 8, .request 8, .request 1, .interrupt,
            .interrupt] = some (transitions, final) ∧
        transitions.map Transition.answer =
          [none, none, none, none, some 1, some 8] ∧
        ∀ line, final.master.inService line = false ∧
          final.slave.inService line = false := by
  have hrun : (trace picStep (i8259Init bootedDriver)
      [.enable 1, .enable 8, .request 8, .request 1, .interrupt,
        .interrupt]).map (·.1.map Transition.answer) =
      some [none, none, none, none, some 1, some 8] := by decide +kernel
  obtain ⟨⟨transitions, final⟩, htrace, hanswers⟩ :=
    Option.map_eq_some_iff.mp hrun
  have hall : ∀ answer ∈ [none, none, none, none, some 1, some 8],
      ∀ irq, answer = some irq → Handled irq := by
    simp [Handled]
  refine ⟨transitions, final, htrace, hanswers,
    (idle_iff_all_handled (trace_execution htrace).1).mpr ?_⟩
  intro transition hmem
  apply hall
  rw [← hanswers]
  exact List.mem_map_of_mem hmem

/-- Once an interrupt without a device handler has been accepted, only lines of
the master before its own are ever accepted again.  On a line of the slave that
leaves the timer and the keyboard: the clock has interrupted for the last
time. -/
theorem unhandled_interrupt_blocks {driver next : PicDriver} {irq : Nat}
    (hstep : picStep driver .interrupt = some (next, some irq))
    (hhandled : ¬ Handled irq)
    (hexec : Execution picStep next transitions final) :
    ∀ transition ∈ transitions, ∀ later, transition.answer = some later →
      Pics.masterLine later < Pics.masterLine irq :=
  (execution_blocked hexec (picStep_unhandled hstep hhandled)).2

/-- The mouse moves before the clock is opened. -/
theorem clock_blocked_by_mouse :
    ∃ next transitions final,
      picStep (requestIrq 12 (i8259Init bootedDriver)) .interrupt =
          some (next, some 12) ∧
        trace picStep next
            [.enable 8, .request 8, .enable 0, .request 0, .interrupt] =
          some (transitions, final) ∧
        transitions.map Transition.answer =
          [none, none, none, none, some 0] ∧
        ∀ transition ∈ transitions, transition.answer ≠ some 8 := by
  have hrun : ((picStep (requestIrq 12 (i8259Init bootedDriver))
      .interrupt).bind fun (next, answer) =>
        (trace picStep next
          [.enable 8, .request 8, .enable 0, .request 0, .interrupt]).map
            fun (transitions, _) =>
              (answer, transitions.map Transition.answer)) =
      some (some 12, [none, none, none, none, some 0]) := by decide +kernel
  obtain ⟨⟨next, answer⟩, hstep, hrest⟩ := Option.bind_eq_some_iff.mp hrun
  obtain ⟨⟨transitions, final⟩, htrace, heq⟩ := Option.map_eq_some_iff.mp hrest
  obtain ⟨rfl, hanswers⟩ := Prod.mk.inj heq
  refine ⟨next, transitions, final, hstep, htrace, hanswers, ?_⟩
  intro transition hmem hclock
  have hblocks := unhandled_interrupt_blocks hstep (by decide)
    (trace_execution htrace).1 transition hmem 8 hclock
  exact absurd hblocks (by decide)

end Runs

end PsychOS
