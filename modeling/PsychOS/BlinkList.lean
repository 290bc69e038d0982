/-
The blinking characters of the user program `fish`.  They are a linked list in
the static `blink_array`, which `mp1_ioctl` changes and `mp1_rtc_tasklet`
walks once a tick.  An entry of the array is free while its location is zero.
What the calls are for is said on a plain list of blinks.
-/
import PsychOS.Lib.Execution
import PsychOS.Lib.LinkedList
import PsychOS.Lib.Memory

namespace PsychOS

/-- `80*25`: the entries of `blink_array`, and the cells of the screen. -/
def blinkArraySize : Nat := 80 * 25

structure BlinkData where
  location : BitVec 16
  onChar : UInt8
  offChar : UInt8
  onLength : BitVec 16
  offLength : BitVec 16
  countdown : BitVec 16
  status : BitVec 16
deriving DecidableEq

/-- `struct mp1_blink_struct`.  A pointer is an index of `blink_array`. -/
structure Blink extends BlinkData where
  next : Option Nat
deriving DecidableEq

/-- What `ece391_memset` leaves of an entry. -/
def Blink.zeroed : Blink := ⟨⟨0, 0, 0, 0, 0, 0, 0⟩, none⟩

/-- `blink_array`, `mp1_list_head`, and the screen at `vmem_base_addr`. -/
structure BlinkState where
  blinkArray : Nat → Blink
  listHead : Option Nat
  vmem : Memory UInt8

namespace BlinkState

def setBlink (st : BlinkState) (i : Nat) (b : Blink) : BlinkState :=
  { st with blinkArray := Function.update st.blinkArray i b }

abbrev data (st : BlinkState) (i : Nat) : BlinkData :=
  (st.blinkArray i).toBlinkData

def links (st : BlinkState) : Links Nat :=
  ⟨st.listHead, fun i => (st.blinkArray i).next⟩

/-- `main` after it has cleared the array. -/
def start (vmem : Memory UInt8) : BlinkState := ⟨fun _ => Blink.zeroed, none, vmem⟩

end BlinkState

section Source

def mp1Poke (st : BlinkState) (offset : Nat) (byte : UInt8) : BlinkState :=
  { st with vmem := st.vmem.store offset byte }

def mp1Malloc (st : BlinkState) : Option Nat :=
  (List.range blinkArraySize).find? fun i => (st.blinkArray i).location == 0

def mp1Free (st : BlinkState) (i : Nat) : BlinkState :=
  st.setBlink i Blink.zeroed

/-- The loop of `mp1_find_helper`, for at most `fuel` turns. -/
def findHelperLoop (st : BlinkState) (location : BitVec 16) :
    Nat → Option Nat → Option (Option Nat)
  | 0, _ => none
  | _ + 1, none => some none
  | fuel + 1, some i =>
      if (st.blinkArray i).location = location then some (some i)
      else findHelperLoop st location fuel (st.blinkArray i).next

/-- Only the low half of the argument is looked at. -/
def mp1FindHelper (fuel : Nat) (st : BlinkState) (arg : BitVec 32) :
    Option (Option Nat) :=
  findHelperLoop st (arg.setWidth 16) fuel st.listHead

def mp1IoctlAdd (st : BlinkState) (arg : Blink) : BlinkState × Int :=
  if blinkArraySize ≤ arg.location.toNat then (st, -1)
  else
    let temp := { arg with status := 1, countdown := arg.onLength }
    match mp1Malloc st with
    | none => (st, -1)
    | some i =>
        let st := st.setBlink i { temp with next := st.listHead }
        let st := { st with listHead := some i }
        (mp1Poke st (temp.location.toNat * 2) temp.onChar, 0)

/-- `remove_find_prev`: which link holds the address of entry `i`. -/
def removeFindPrev (st : BlinkState) (i : Nat) :
    Nat → Option Nat → Option (Option Nat)
  | 0, _ => none
  | fuel + 1, link =>
      if st.links.get link = some i then some link
      else
        -- Behind the last entry this would be an access at address 12.
        match st.links.get link with
        | none => none
        | some entry => removeFindPrev st i fuel (some entry)

/-- Store a link. -/
def BlinkState.setLink (st : BlinkState) (value : Option Nat) :
    Option Nat → BlinkState
  | none => { st with listHead := value }
  | some i => st.setBlink i { st.blinkArray i with next := value }

def mp1IoctlRemove (fuel : Nat) (st : BlinkState) (arg : BitVec 32) :
    Option (BlinkState × Int) := do
  match ← mp1FindHelper fuel st arg with
  | none => some (st, -1)
  | some i =>
      let link ← removeFindPrev st i fuel none
      let st := st.setLink (st.blinkArray i).next link
      some (mp1Free st i, 0)

/-- `testb $1` clears the overflow flag, and the sign flag with it, so `cmovl`
goes by the top bit of what is left of the status. -/
def syncDisplayed (b : BlinkData) : UInt8 :=
  if (b.status.setWidth 8 &&& 1#8).msb then b.onChar else b.offChar

def mp1IoctlSync (fuel : Nat) (st : BlinkState) (arg : BitVec 32) :
    Option (BlinkState × Int) := do
  match ← mp1FindHelper fuel st (arg >>> 16) with
  | none => some (st, -1)
  | some source =>
      match ← mp1FindHelper fuel st (arg &&& 0xFFFF) with
      | none => some (st, -1)
      | some target =>
          let first := st.blinkArray source
          let second := { st.blinkArray target with
            onLength := first.onLength
            offLength := first.offLength
            countdown := first.countdown
            status := first.status }
          let st := st.setBlink target second
          some (mp1Poke st (second.location.toNat * 2)
            (syncDisplayed second.toBlinkData), 0)

/-- The result and what the caller's structure then holds. -/
def mp1IoctlFind (fuel : Nat) (st : BlinkState) (arg : Blink) :
    Option (Blink × Int) := do
  match ← mp1FindHelper fuel st (arg.location.setWidth 32) with
  | none => some (arg, -1)
  | some i => some (st.blinkArray i, 0)

/-- One turn of `tasklet_loop`. -/
def taskletTurn (st : BlinkState) (i : Nat) : BlinkState :=
  let b := st.blinkArray i
  let countdown := b.countdown - 1
  -- The comparison is signed.
  if 0 < countdown.toInt then st.setBlink i { b with countdown := countdown }
  else
    let offset := b.location.toNat * 2
    if b.status &&& 1 ≠ 0 then
      mp1Poke (st.setBlink i { b with
        countdown := b.offLength
        status := b.status ^^^ 1 }) offset b.offChar
    else
      mp1Poke (st.setBlink i { b with
        countdown := b.onLength
        status := b.status ^^^ 1 }) offset b.onChar

def taskletLoop : Nat → Option Nat → BlinkState → Option BlinkState
  | 0, _, _ => none
  | _ + 1, none, st => some st
  | fuel + 1, some i, st =>
      let st := taskletTurn st i
      taskletLoop fuel (st.blinkArray i).next st

def mp1RtcTasklet (fuel : Nat) (st : BlinkState) : Option BlinkState :=
  taskletLoop fuel st.listHead st

/-- The four commands of `mp1_ioctl`, and a tick. -/
inductive BlinkCall where
  | add (arg : Blink)
  | remove (arg : BitVec 32)
  | find (arg : Blink)
  | sync (arg : BitVec 32)
  | tasklet
deriving DecidableEq

/-- The result, and the blink that a search copies to the caller.  The copied
link is an address and is left out. -/
structure BlinkReply where
  result : Int
  found : Option BlinkData
deriving DecidableEq

def blinkStep (fuel : Nat) : OutFn BlinkState BlinkCall BlinkReply
  | st, .add arg =>
      let (st, result) := mp1IoctlAdd st arg
      some (st, ⟨result, none⟩)
  | st, .remove arg =>
      (mp1IoctlRemove fuel st arg).map fun (st, result) => (st, ⟨result, none⟩)
  | st, .find arg =>
      (mp1IoctlFind fuel st arg).map fun (b, result) =>
        (st, ⟨result, some b.toBlinkData⟩)
  | st, .sync arg =>
      (mp1IoctlSync fuel st arg).map fun (st, result) => (st, ⟨result, none⟩)
  | st, .tasklet =>
      (mp1RtcTasklet fuel st).map fun st => (st, ⟨0, none⟩)

end Source

section Specification

namespace BlinkData

def isAt (location : BitVec 16) (b : BlinkData) : Bool := b.location == location

/-- Where on the screen its character is. -/
def cell (b : BlinkData) : Nat := b.location.toNat * 2

def fresh (b : BlinkData) : BlinkData :=
  { b with status := 1, countdown := b.onLength }

/-- Blink from now on as `leader` does. -/
def follow (leader b : BlinkData) : BlinkData :=
  { b with
    onLength := leader.onLength
    offLength := leader.offLength
    countdown := leader.countdown
    status := leader.status }

def isOn (b : BlinkData) : Bool := b.status &&& 1 ≠ 0

/-- The tick that changes what is shown. -/
def expires (b : BlinkData) : Bool := (b.countdown - 1).toInt ≤ 0

def toggle (b : BlinkData) : BlinkData :=
  { b with
    countdown := if b.isOn then b.offLength else b.onLength
    status := b.status ^^^ 1 }

def tick (b : BlinkData) : BlinkData :=
  if b.expires then b.toggle else { b with countdown := b.countdown - 1 }

/-- What a tick does to the screen. -/
def tickShown (vmem : Memory UInt8) (b : BlinkData) : Memory UInt8 :=
  if b.expires then
    vmem.store b.cell (if b.isOn then b.offChar else b.onChar)
  else vmem

end BlinkData

/-- The blinks, latest first, and the screen. -/
structure Display where
  blinks : List BlinkData
  vmem : Memory UInt8

namespace Display

variable (display : Display)

def at? (location : BitVec 16) : Option BlinkData :=
  display.blinks.find? (BlinkData.isAt location)

def add (b : BlinkData) : Display × Int :=
  if blinkArraySize ≤ b.location.toNat ∨
      blinkArraySize ≤ display.blinks.length then (display, -1)
  else (⟨b.fresh :: display.blinks, display.vmem.store b.cell b.onChar⟩, 0)

def remove (location : BitVec 16) : Display × Int :=
  match display.at? location with
  | none => (display, -1)
  | some _ =>
      ({ display with
        blinks := display.blinks.eraseP (BlinkData.isAt location) }, 0)

def sync (source target : BitVec 16) : Display × Int :=
  match display.at? source, display.at? target with
  | some leader, some b =>
      (⟨modifyFirst (BlinkData.isAt target) leader.follow display.blinks,
        display.vmem.store b.cell b.offChar⟩, 0)
  | _, _ => (display, -1)

def tick : Display :=
  ⟨display.blinks.map BlinkData.tick,
    display.blinks.foldl BlinkData.tickShown display.vmem⟩

/-- The calls on a plain list. -/
def call : BlinkCall → Display × BlinkReply
  | .add arg =>
      let (display, result) := display.add arg.toBlinkData
      (display, ⟨result, none⟩)
  | .remove arg =>
      let (display, result) := display.remove (arg.setWidth 16)
      (display, ⟨result, none⟩)
  | .find arg =>
      match display.at? arg.location with
      | none => (display, ⟨-1, some arg.toBlinkData⟩)
      | some b => (display, ⟨0, some b⟩)
  | .sync arg =>
      let (display, result) :=
        display.sync (arg.extractLsb' 16 16) (arg.setWidth 16)
      (display, ⟨result, none⟩)
  | .tasklet => (display.tick, ⟨0, none⟩)

def step : OutFn Display BlinkCall BlinkReply := fun display event =>
  some (display.call event)

end Display

/-- The list in the array has the blinks of the display in `slots`, and the
entries in use are those of the list. -/
structure KeepsBlinks (st : BlinkState) (slots : List Nat)
    (display : Display) : Prop where
  holds : st.links.Holds slots
  allocated : ∀ i, i ∈ slots ↔
    i < blinkArraySize ∧ (st.data i).location ≠ 0
  blinks_eq : display.blinks = slots.map st.data
  vmem_eq : display.vmem = st.vmem

end Specification

end PsychOS
