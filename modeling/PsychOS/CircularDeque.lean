/-
The circular buffer as a bounded deque.  Whatever operations follow
`circular_buffer_init`, in whatever order, they do to the bytes in the buffer
what the same operations do to a list that is not allowed to grow beyond the
capacity.
-/
import PsychOS.Lib.Execution
import PsychOS.CircularBuffer

namespace PsychOS

open CircularBuffer

/-- A buffer and the memory its block, the callers' input and output buffers
and everything else are in. -/
structure RingState where
  mem : Memory UInt8
  buf : CircularBuffer

/-- The calls.  Buffers of the caller are given by their addresses. -/
inductive BufferOp where
  | put (input len : Nat)
  | get (output len : Nat)
  | peek (output len : Nat)
  | putByte (byte : UInt8)
  | getByte (output : Nat)
  | peekEndByte (output : Nat)
  | removeEndByte
  | find (val : UInt8)
  | length
  | clear
  deriving DecidableEq, Repr

/-- Perform a call: the new state and the return value, 0 for `clear`. -/
def performBufferOp (s : RingState) : BufferOp → RingState × Int
  | .put input len =>
      let (mem, buf, ret) :=
        circularBufferPut s.mem s.buf (fun i => s.mem (input + i)) len
      (⟨mem, buf⟩, ret)
  | .get output len =>
      let (bytes, buf) := circularBufferGet s.mem s.buf len
      (⟨s.mem.storeList output bytes, buf⟩, bytes.length)
  | .peek output len =>
      let bytes := circularBufferPeek s.mem s.buf len
      (⟨s.mem.storeList output bytes, s.buf⟩, bytes.length)
  | .putByte byte =>
      let (mem, buf, ret) := circularBufferPutByte s.mem s.buf byte
      (⟨mem, buf⟩, ret)
  | .getByte output =>
      let (byte, buf) := circularBufferGetByte s.mem s.buf
      (⟨s.mem.storeList output byte.toList, buf⟩, byte.toList.length)
  | .peekEndByte output =>
      let byte := circularBufferPeekEndByte s.mem s.buf
      (⟨s.mem.storeList output byte.toList, s.buf⟩, byte.toList.length)
  | .removeEndByte =>
      let (buf, ret) := circularBufferRemoveEndByte s.buf
      (⟨s.mem, buf⟩, ret)
  | .find val => (s, circularBufferFind s.mem s.buf val)
  | .length => (s, circularBufferLen s.buf)
  | .clear => (⟨s.mem, circularBufferClear s.buf⟩, 0)

/-- The bytes from `start` on are not bytes of the backing block. -/
def CircularBuffer.Apart (buf : CircularBuffer) (start count : Nat) : Prop :=
  ∀ i < count, start + i < buf.dataStart ∨ buf.dataEnd ≤ start + i

instance (buf : CircularBuffer) (start count : Nat) :
    Decidable (buf.Apart start count) :=
  inferInstanceAs (Decidable (∀ i < count, _))

/-- The bytes a call copies in or out are in a buffer of the caller, and `put`
does not make the 32-bit sum of the lengths wrap. -/
def BufferOp.Allowed (buf : CircularBuffer) : BufferOp → Prop
  | .put input len =>
      buf.currentLen + len < 2 ^ 32 ∧
        buf.Apart input (min len (buf.maxLen - buf.currentLen))
  | .get output len => buf.Apart output (min len buf.currentLen)
  | .peek output len => buf.Apart output (min len buf.currentLen)
  | .getByte output => buf.Apart output 1
  | .peekEndByte output => buf.Apart output 1
  | _ => True

instance (buf : CircularBuffer) : DecidablePred (BufferOp.Allowed buf)
  | .put input len => inferInstanceAs (Decidable
      (buf.currentLen + len < 2 ^ 32 ∧
        buf.Apart input (min len (buf.maxLen - buf.currentLen))))
  | .get output len | .peek output len =>
      inferInstanceAs (Decidable (buf.Apart output (min len buf.currentLen)))
  | .getByte output | .peekEndByte output =>
      inferInstanceAs (Decidable (buf.Apart output 1))
  | .putByte _ | .removeEndByte | .find _ | .length | .clear => isTrue trivial

def bufferStep : OutFn RingState BufferOp Int := fun s op =>
  if op.Allowed s.buf then some (performBufferOp s op) else none

/-- The bytes in the buffer, read circularly from the head. -/
def RingState.queue (s : RingState) : List UInt8 := s.buf.contents s.mem

/-- What an operation of a bounded deque does: the bytes it then holds, the
result, and the bytes handed to the caller. -/
structure DequeEffect where
  queue : List UInt8
  ret : Int
  written : List UInt8
  deriving DecidableEq, Repr

/-- The operations on a list of at most `maxLen` bytes. -/
def dequeEffect (maxLen : Nat) (mem : Memory UInt8) (queue : List UInt8) :
    BufferOp → DequeEffect
  | .put input len =>
      let count := min len (maxLen - queue.length)
      ⟨queue ++ mem.load input count, count, []⟩
  | .get _ len =>
      ⟨queue.drop len, (min len queue.length : Nat), queue.take len⟩
  | .peek _ len => ⟨queue, (min len queue.length : Nat), queue.take len⟩
  | .putByte byte =>
      if queue.length < maxLen then ⟨queue ++ [byte], 1, []⟩
      else ⟨queue, 0, []⟩
  | .getByte _ =>
      match queue with
      | [] => ⟨[], 0, []⟩
      | first :: rest => ⟨rest, 1, [first]⟩
  | .peekEndByte _ =>
      match queue.getLast? with
      | none => ⟨queue, 0, []⟩
      | some last => ⟨queue, 1, [last]⟩
  | .removeEndByte =>
      if queue = [] then ⟨queue, 0, []⟩ else ⟨queue.dropLast, 1, []⟩
  | .find val => ⟨queue, ((queue.idxOf? val).map Int.ofNat).getD (-1), []⟩
  | .length => ⟨queue, queue.length, []⟩
  | .clear => ⟨[], 0, []⟩

/-- Where the call hands bytes to. -/
def BufferOp.output : BufferOp → Nat
  | .get output _ => output
  | .peek output _ => output
  | .getByte output => output
  | .peekEndByte output => output
  | _ => 0

/-- The call did what it does to a deque, and outside the backing block it
wrote nothing but the bytes it handed out. -/
structure DequeStep (s : RingState) (op : BufferOp) (next : RingState)
    (ret : Int) : Prop where
  valid : next.buf.Valid
  sameBlock : next.buf.SameBlock s.buf
  queue_eq : next.queue = (dequeEffect s.buf.maxLen s.mem s.queue op).queue
  ret_eq : ret = (dequeEffect s.buf.maxLen s.mem s.queue op).ret
  frame : ∀ a, (a < s.buf.dataStart ∨ s.buf.dataStart + s.buf.maxLen ≤ a) →
    next.mem a = s.mem.storeList op.output
      (dequeEffect s.buf.maxLen s.mem s.queue op).written a

section Steps

variable {s : RingState}

theorem queue_length (s : RingState) :
    s.queue.length = s.buf.currentLen :=
  contents_length s.mem s.buf

/-- Bytes handed out do not change the bytes in the buffer. -/
theorem contents_storeList {buf : CircularBuffer} (hvalid : buf.Valid)
    (mem : Memory UInt8) {output : Nat} {bytes : List UInt8}
    (hapart : buf.Apart output bytes.length) :
    buf.contents (mem.storeList output bytes) = buf.contents mem := by
  apply hvalid.contents_congr
  intro a hlo hhi
  apply Memory.storeList_of_outside
  by_contra hin
  have hbyte := hapart (a - output) (by omega)
  rw [hvalid.dataEnd_eq] at hbyte
  omega

theorem put_deque (hvalid : s.buf.Valid) {input len : Nat}
    (hsum : s.buf.currentLen + len < 2 ^ 32) :
    DequeStep s (.put input len) (performBufferOp s (.put input len)).1
      (performBufferOp s (.put input len)).2 := by
  have hle := hvalid.len_le
  -- the test of the source takes the smaller of the request and the room
  have hcount : (if (s.buf.currentLen + len) % 2 ^ 32 > s.buf.maxLen then
      s.buf.maxLen - s.buf.currentLen else len) =
      min len (s.buf.maxLen - s.buf.currentLen) := by
    rw [Nat.mod_eq_of_lt hsum]
    split <;> omega
  have hload : Memory.load (fun i => s.mem (input + i)) 0
      (min len (s.buf.maxLen - s.buf.currentLen)) =
      s.mem.load input (min len (s.buf.maxLen - s.buf.currentLen)) := by
    simp only [Memory.load, Nat.zero_add]
  have hfits := @put_fits_of_count s.mem s.buf (fun i => s.mem (input + i))
    len hvalid hcount (by omega)
  have hcontents := hfits.contents_eq
  rw [hload] at hcontents
  refine ⟨hfits.valid, ⟨rfl, rfl⟩, ?_, ?_, hfits.frame⟩
  · simp only [RingState.queue, dequeEffect, contents_length]
    exact hcontents
  · simp only [performBufferOp, dequeEffect, queue_length, hfits.count_eq]

theorem get_deque (hvalid : s.buf.Valid) {output len : Nat}
    (hapart : s.buf.Apart output (min len s.buf.currentLen)) :
    DequeStep s (.get output len) (performBufferOp s (.get output len)).1
      (performBufferOp s (.get output len)).2 := by
  have hbytes := @get_bytes s.mem s.buf hvalid len
  have hnext := @get_valid s.mem s.buf hvalid len
  have hblock := @get_sameBlock s.mem s.buf hvalid len
  have hapart' : (circularBufferGet s.mem s.buf len).2.Apart output
      (circularBufferGet s.mem s.buf len).1.length := by
    rw [hbytes, List.length_take, contents_length]
    intro i hi
    rw [hnext.dataEnd_eq, hblock.1, hblock.2, ← hvalid.dataEnd_eq]
    exact hapart i hi
  refine ⟨hnext, hblock, ?_, ?_, ?_⟩
  · have hkeep := contents_storeList hnext s.mem hapart'
    exact hkeep.trans (get_contents hvalid len)
  · simp only [performBufferOp, dequeEffect, hbytes, List.length_take,
      RingState.queue, contents_length]
  · intro a _
    simp only [performBufferOp, dequeEffect, hbytes, BufferOp.output,
      RingState.queue]

theorem peek_deque (hvalid : s.buf.Valid) {output len : Nat}
    (hapart : s.buf.Apart output (min len s.buf.currentLen)) :
    DequeStep s (.peek output len) (performBufferOp s (.peek output len)).1
      (performBufferOp s (.peek output len)).2 := by
  have hbytes := @peek_bytes s.mem s.buf hvalid len
  have hapart' : s.buf.Apart output
      (circularBufferPeek s.mem s.buf len).length := by
    rw [hbytes, List.length_take, contents_length]
    exact hapart
  refine ⟨hvalid, ⟨rfl, rfl⟩, contents_storeList hvalid s.mem hapart', ?_, ?_⟩
  · simp only [performBufferOp, dequeEffect, hbytes, List.length_take,
      RingState.queue, contents_length]
  · intro a _
    simp only [performBufferOp, dequeEffect, hbytes, BufferOp.output,
      RingState.queue]

theorem putByte_deque (hvalid : s.buf.Valid) (byte : UInt8) :
    DequeStep s (.putByte byte) (performBufferOp s (.putByte byte)).1
      (performBufferOp s (.putByte byte)).2 := by
  refine ⟨putByte_valid hvalid, putByte_sameBlock, ?_, ?_, ?_⟩
  · rw [dequeEffect, queue_length]
    by_cases hroom : s.buf.currentLen < s.buf.maxLen
    · rw [if_pos hroom]
      exact putByte_contents hvalid hroom
    · simp only [performBufferOp, putByte_of_full (Nat.le_of_not_lt hroom),
        if_neg hroom]
  · rw [dequeEffect, queue_length]
    by_cases hroom : s.buf.currentLen < s.buf.maxLen
    · simp only [performBufferOp, putByte_of_room hroom, if_pos hroom]
      rfl
    · simp only [performBufferOp, putByte_of_full (Nat.le_of_not_lt hroom),
        if_neg hroom]
      rfl
  · intro a houtside
    have hwritten : (dequeEffect s.buf.maxLen s.mem s.queue
        (.putByte byte)).written = [] := by
      rw [dequeEffect]
      split <;> rfl
    rw [hwritten]
    exact putByte_frame hvalid houtside

theorem getByte_deque (hvalid : s.buf.Valid) {output : Nat}
    (hapart : s.buf.Apart output 1) :
    DequeStep s (.getByte output) (performBufferOp s (.getByte output)).1
      (performBufferOp s (.getByte output)).2 := by
  have hget := @get_deque s hvalid output 1 (by
    intro i hi
    exact hapart i (by omega))
  have hbyte := @getByte_eq s.mem s.buf hvalid
  have hbytes := @get_bytes s.mem s.buf hvalid 1
  -- the two calls do the same, and so do the two operations on lists
  have hsame : performBufferOp s (.getByte output) =
      performBufferOp s (.get output 1) := by
    simp only [performBufferOp, hbyte, hbytes]
    cases s.buf.contents s.mem <;> rfl
  have heffect : dequeEffect s.buf.maxLen s.mem s.queue (.getByte output) =
      dequeEffect s.buf.maxLen s.mem s.queue (.get output 1) := by
    simp only [dequeEffect]
    cases s.queue with
    | nil => rfl
    | cons first rest => simp
  rw [hsame]
  exact ⟨hget.valid, hget.sameBlock, heffect ▸ hget.queue_eq,
    heffect ▸ hget.ret_eq, heffect ▸ hget.frame⟩

theorem peekEndByte_deque (hvalid : s.buf.Valid) {output : Nat}
    (hapart : s.buf.Apart output 1) :
    DequeStep s (.peekEndByte output)
      (performBufferOp s (.peekEndByte output)).1
      (performBufferOp s (.peekEndByte output)).2 := by
  have hbyte : circularBufferPeekEndByte s.mem s.buf = s.queue.getLast? :=
    peekEndByte_eq_getLast? hvalid
  simp only [performBufferOp, hbyte]
  cases hlast : s.queue.getLast? with
  | none =>
      refine ⟨hvalid, ⟨rfl, rfl⟩, ?_, ?_, ?_⟩ <;>
        simp only [dequeEffect, hlast]
      · rfl
      · rfl
      · intro a _
        rfl
  | some last =>
      refine ⟨hvalid, ⟨rfl, rfl⟩, ?_, ?_, ?_⟩ <;>
        simp only [dequeEffect, hlast]
      · exact contents_storeList hvalid s.mem hapart
      · rfl
      · intro a _
        rfl

theorem removeEndByte_deque (hvalid : s.buf.Valid) :
    DequeStep s .removeEndByte (performBufferOp s .removeEndByte).1
      (performBufferOp s .removeEndByte).2 := by
  have hempty : s.queue = [] ↔ s.buf.currentLen = 0 := by
    rw [← List.length_eq_zero_iff, queue_length]
  refine ⟨removeEndByte_valid hvalid, removeEndByte_sameBlock, ?_, ?_, ?_⟩
  · have hcontents := @removeEndByte_contents s.mem s.buf
    rw [dequeEffect]
    split
    · next hnil =>
        have hkept : s.buf.contents s.mem = [] := hnil
        rw [hkept] at hcontents
        exact hcontents.trans hnil.symm
    · exact hcontents
  · rw [dequeEffect]
    simp only [performBufferOp, circularBufferRemoveEndByte, hempty]
    split <;> rfl
  · intro a _
    have hwritten : (dequeEffect s.buf.maxLen s.mem s.queue
        .removeEndByte).written = [] := by
      rw [dequeEffect]
      split <;> rfl
    rw [hwritten]
    rfl

theorem find_deque (hvalid : s.buf.Valid) (val : UInt8) :
    DequeStep s (.find val) (performBufferOp s (.find val)).1
      (performBufferOp s (.find val)).2 := by
  refine ⟨hvalid, ⟨rfl, rfl⟩, rfl, ?_, fun _ _ => rfl⟩
  simp only [performBufferOp, dequeEffect, find_eq hvalid, indexOrMinusOne,
    RingState.queue]
  cases (s.buf.contents s.mem).idxOf? val with
  | none => rfl
  | some i => simp

/-- Every call does to the buffer what it does to a deque. -/
theorem bufferStep_deque (hvalid : s.buf.Valid) {op : BufferOp}
    {next : RingState} {ret : Int}
    (hstep : bufferStep s op = some (next, ret)) :
    DequeStep s op next ret := by
  obtain ⟨hallowed, heq⟩ := Option.ite_none_right_eq_some.mp hstep
  have hresult := Option.some.inj heq
  have hnext : next = (performBufferOp s op).1 := (congrArg Prod.fst hresult).symm
  have hret : ret = (performBufferOp s op).2 := (congrArg Prod.snd hresult).symm
  rw [hnext, hret]
  cases op with
  | put input len => exact put_deque hvalid hallowed.1
  | get output len => exact get_deque hvalid hallowed
  | peek output len => exact peek_deque hvalid hallowed
  | putByte byte => exact putByte_deque hvalid byte
  | getByte output => exact getByte_deque hvalid hallowed
  | peekEndByte output => exact peekEndByte_deque hvalid hallowed
  | removeEndByte => exact removeEndByte_deque hvalid
  | find val => exact find_deque hvalid val
  | length =>
      refine ⟨hvalid, ⟨rfl, rfl⟩, rfl, ?_, fun _ _ => rfl⟩
      simp only [performBufferOp, dequeEffect, queue_length, circularBufferLen]
  | clear =>
      exact ⟨clear_valid hvalid, clear_sameBlock _, rfl, rfl, fun _ _ => rfl⟩

end Steps

/-- The pointers are in the block that was given to `circular_buffer_init`, and
the tail is `current_len` places after the head. -/
structure CircularBuffer.WellPlaced (dataBuf maxLen : Nat)
    (buf : CircularBuffer) : Prop where
  block : buf.dataStart = dataBuf ∧ buf.dataEnd = dataBuf + maxLen ∧
    buf.maxLen = maxLen
  head : dataBuf ≤ buf.head ∧ buf.head < dataBuf + maxLen
  tail : dataBuf ≤ buf.tail ∧ buf.tail < dataBuf + maxLen
  len_le : buf.currentLen ≤ maxLen
  tail_eq : buf.tail - dataBuf =
    (buf.head - dataBuf + buf.currentLen) % maxLen

theorem CircularBuffer.Valid.wellPlaced {buf : CircularBuffer}
    (hvalid : buf.Valid) {dataBuf maxLen : Nat}
    (hblock : buf.SameBlock (circularBufferInit dataBuf maxLen)) :
    buf.WellPlaced dataBuf maxLen := by
  obtain ⟨hstart, hmax⟩ := hblock
  change buf.dataStart = dataBuf at hstart
  change buf.maxLen = maxLen at hmax
  subst hstart hmax
  have htail := hvalid.tail_eq
  refine ⟨⟨rfl, hvalid.dataEnd_eq, rfl⟩, ⟨hvalid.head_ge, hvalid.head_lt⟩,
    ⟨?_, ?_⟩, hvalid.len_le, ?_⟩
  · rw [htail]
    exact Ring.le_slot _ _ _ _
  · rw [htail]
    exact Ring.slot_lt _ _ hvalid.maxLen_pos _
  · rw [htail, Ring.slot, Nat.add_sub_cancel_left]

/-- What holds of the buffer after any calls. -/
theorem execution_valid {dataBuf maxLen : Nat} {mem : Memory UInt8}
    {transitions : List (Transition RingState BufferOp Int)}
    {final : RingState} (hstart : 0 < dataBuf) (hmax : 0 < maxLen)
    (hexec : Execution bufferStep ⟨mem, circularBufferInit dataBuf maxLen⟩
      transitions final) :
    final.buf.Valid ∧
      final.buf.SameBlock (circularBufferInit dataBuf maxLen) := by
  induction hexec with
  | nil => exact ⟨init_valid hstart hmax, rfl, rfl⟩
  | concat _ hstep ih =>
      have hdeque := bufferStep_deque ih.1 hstep
      exact ⟨hdeque.valid, hdeque.sameBlock.trans ih.2⟩

/-- After `circular_buffer_init`, in every sequence of calls, the buffer is a
deque of at most `maxLen` bytes. -/
theorem circular_buffer_is_deque {dataBuf maxLen : Nat} {mem : Memory UInt8}
    {transitions : List (Transition RingState BufferOp Int)}
    {final : RingState} (hstart : 0 < dataBuf)
    (hmax : 1 ≤ maxLen ∧ maxLen < 2 ^ 31)
    (hexec : Execution bufferStep ⟨mem, circularBufferInit dataBuf maxLen⟩
      transitions final) :
    RingState.queue ⟨mem, circularBufferInit dataBuf maxLen⟩ = [] ∧
      final.buf.WellPlaced dataBuf maxLen ∧
      ∀ call ∈ transitions,
        call.before.buf.WellPlaced dataBuf maxLen ∧
          DequeStep call.before call.event call.after call.answer := by
  obtain ⟨hvalid, hblock⟩ := execution_valid hstart hmax.1 hexec
  refine ⟨rfl, hvalid.wellPlaced hblock, ?_⟩
  intro call hmem
  obtain ⟨i, hget⟩ := List.mem_iff_getElem?.mp hmem
  obtain ⟨hbefore, hsame⟩ :=
    execution_valid hstart hmax.1 (hexec.take_of_getElem? hget)
  exact ⟨hbefore.wellPlaced hsame,
    bufferStep_deque hbefore (hexec.step_of_mem hmem)⟩

/-- Calls on a buffer of three bytes that wrap around in both directions. -/
def wrappingCalls : List BufferOp :=
  [.put 500 5, .get 600 2, .putByte 9, .find 9, .removeEndByte, .getByte 700]

theorem wrappingCalls_deque : ∃ transitions final,
    trace bufferStep ⟨fun a => UInt8.ofNat (a % 7), circularBufferInit 100 3⟩
      wrappingCalls = some (transitions, final) ∧
    transitions.map Transition.answer = [3, 2, 1, 1, 1, 1] ∧
    final.queue = [] ∧ final.buf.WellPlaced 100 3 := by
  have hanswers : (trace bufferStep
      ⟨fun a => UInt8.ofNat (a % 7), circularBufferInit 100 3⟩
      wrappingCalls).map (fun result =>
        (result.1.map Transition.answer, result.2.queue)) =
      some ([3, 2, 1, 1, 1, 1], []) := by decide
  obtain ⟨⟨transitions, final⟩, htrace, hboth⟩ :=
    Option.map_eq_some_iff.mp hanswers
  obtain ⟨hret, hqueue⟩ := Prod.mk.inj hboth
  have hdeque := circular_buffer_is_deque (by decide) ⟨by decide, by decide⟩
    (trace_execution htrace).1
  exact ⟨transitions, final, htrace, hret, hqueue, hdeque.2.1⟩

end PsychOS
