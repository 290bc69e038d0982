/-
The kernel's circular buffer (`lib/circular_buffer.c`).  The operations are
written with the pointers and hand-made wrap-around of the source; a buffer
together with its backing memory stands for a list of bytes, and every
operation is described by what it does to that list.
-/
import PsychOS.Lib.Ring

namespace PsychOS

/-- `circular_buffer_t`: pointers are addresses in the backing memory. -/
structure CircularBuffer where
  maxLen : Nat
  currentLen : Nat
  dataStart : Nat
  dataEnd : Nat
  head : Nat
  tail : Nat
deriving Repr, DecidableEq

def circularBufferInit (dataBuf maxLen : Nat) : CircularBuffer where
  maxLen := maxLen
  currentLen := 0
  dataStart := dataBuf
  dataEnd := dataBuf + maxLen
  head := dataBuf
  tail := dataBuf

def circularBufferClear (buf : CircularBuffer) : CircularBuffer :=
  { buf with currentLen := 0, head := buf.dataStart, tail := buf.dataStart }

namespace CircularBuffer

/-- The body of the loop in `circular_buffer_put`, `count` times: store at the
tail, advance the tail. -/
def putLoop (lo hi : Nat) : Memory UInt8 → Nat → List UInt8 →
    Memory UInt8 × Nat
  | mem, tail, [] => (mem, tail)
  | mem, tail, byte :: rest =>
      putLoop lo hi (mem.store tail byte) (Ring.advance lo hi tail) rest

/-- The loop shared by `circular_buffer_get` and `circular_buffer_peek`: the
bytes copied out in order, and the pointer after the last of them. -/
def readLoop (mem : Memory UInt8) (lo hi : Nat) : Nat → Nat →
    List UInt8 × Nat
  | ptr, 0 => ([], ptr)
  | ptr, count + 1 =>
      let (bytes, last) := readLoop mem lo hi (Ring.advance lo hi ptr) count
      (mem ptr :: bytes, last)

/-- The loop of `circular_buffer_find`, with the number of bytes still to be
looked at. -/
def findLoop (mem : Memory UInt8) (lo hi : Nat) (val : UInt8) :
    Nat → Nat → Nat → Int
  | _, _, 0 => -1
  | len, addr, count + 1 =>
      if mem addr = val then len
      else findLoop mem lo hi val (len + 1) (Ring.advance lo hi addr) count

end CircularBuffer

open CircularBuffer

/-- `circular_buffer_put`; the capacity test and the new length are sums in 32
bits.  The input is the memory at `input_buf`. -/
def circularBufferPut (mem : Memory UInt8) (buf : CircularBuffer)
    (input : Memory UInt8) (len : Nat) :
    Memory UInt8 × CircularBuffer × Nat :=
  let len := if (buf.currentLen + len) % 2 ^ 32 > buf.maxLen then
    buf.maxLen - buf.currentLen else len
  let (mem, tail) :=
    putLoop buf.dataStart buf.dataEnd mem buf.tail (input.load 0 len)
  (mem, { buf with
    tail := tail, currentLen := (buf.currentLen + len) % 2 ^ 32 }, len)

/-- `circular_buffer_get`: the bytes stored to the output buffer from its
start on, and the buffer left behind.  The return value is their number. -/
def circularBufferGet (mem : Memory UInt8) (buf : CircularBuffer)
    (len : Nat) : List UInt8 × CircularBuffer :=
  let len := if len > buf.currentLen then buf.currentLen else len
  let (bytes, head) := readLoop mem buf.dataStart buf.dataEnd buf.head len
  (bytes, { buf with head := head, currentLen := buf.currentLen - len })

def circularBufferPeek (mem : Memory UInt8) (buf : CircularBuffer)
    (len : Nat) : List UInt8 :=
  let len := if len > buf.currentLen then buf.currentLen else len
  (readLoop mem buf.dataStart buf.dataEnd buf.head len).1

def circularBufferPutByte (mem : Memory UInt8) (buf : CircularBuffer)
    (byte : UInt8) : Memory UInt8 × CircularBuffer × Nat :=
  if buf.currentLen ≥ buf.maxLen then (mem, buf, 0)
  else
    (mem.store buf.tail byte,
      { buf with
        tail := Ring.advance buf.dataStart buf.dataEnd buf.tail
        currentLen := buf.currentLen + 1 }, 1)

/-- `circular_buffer_get_byte`; `none` is the return value 0, after which `*b`
is untouched. -/
def circularBufferGetByte (mem : Memory UInt8) (buf : CircularBuffer) :
    Option UInt8 × CircularBuffer :=
  if buf.currentLen = 0 then (none, buf)
  else
    (some (mem buf.head),
      { buf with
        head := Ring.advance buf.dataStart buf.dataEnd buf.head
        currentLen := buf.currentLen - 1 })

def circularBufferPeekEndByte (mem : Memory UInt8) (buf : CircularBuffer) :
    Option UInt8 :=
  if buf.currentLen = 0 then none
  else some (mem (Ring.retreat buf.dataStart buf.dataEnd buf.tail))

def circularBufferRemoveEndByte (buf : CircularBuffer) :
    CircularBuffer × Nat :=
  if buf.currentLen = 0 then (buf, 0)
  else
    ({ buf with
        tail := Ring.retreat buf.dataStart buf.dataEnd buf.tail
        currentLen := buf.currentLen - 1 }, 1)

def circularBufferFind (mem : Memory UInt8) (buf : CircularBuffer)
    (val : UInt8) : Int :=
  findLoop mem buf.dataStart buf.dataEnd val 0 buf.head buf.currentLen

def circularBufferLen (buf : CircularBuffer) : Nat := buf.currentLen

namespace CircularBuffer

/-- The representation invariant: the block is not at address zero, the head
lies in it, and the tail is `currentLen` places after the head. -/
structure Valid (buf : CircularBuffer) : Prop where
  dataEnd_eq : buf.dataEnd = buf.dataStart + buf.maxLen
  dataStart_pos : 0 < buf.dataStart
  maxLen_pos : 0 < buf.maxLen
  head_ge : buf.dataStart ≤ buf.head
  head_lt : buf.head < buf.dataStart + buf.maxLen
  len_le : buf.currentLen ≤ buf.maxLen
  tail_eq : buf.tail =
    Ring.slot buf.dataStart buf.maxLen buf.head buf.currentLen

/-- The bytes stored in the buffer, oldest first. -/
def contents (mem : Memory UInt8) (buf : CircularBuffer) : List UInt8 :=
  Ring.window mem buf.dataStart buf.maxLen buf.head buf.currentLen

@[simp]
theorem contents_length (mem : Memory UInt8) (buf : CircularBuffer) :
    (buf.contents mem).length = buf.currentLen := by
  simp [contents]

/-- Two buffers on the same backing block. -/
def SameBlock (left right : CircularBuffer) : Prop :=
  left.dataStart = right.dataStart ∧ left.maxLen = right.maxLen

theorem Valid.contents_congr {buf : CircularBuffer} (hvalid : buf.Valid)
    {mem mem' : Memory UInt8}
    (hagree : ∀ a, buf.dataStart ≤ a → a < buf.dataStart + buf.maxLen →
      mem a = mem' a) :
    buf.contents mem = buf.contents mem' :=
  Ring.window_congr hvalid.maxLen_pos hagree

theorem init_valid {dataBuf maxLen : Nat} (hstart : 0 < dataBuf)
    (hmax : 0 < maxLen) : (circularBufferInit dataBuf maxLen).Valid where
  dataEnd_eq := rfl
  dataStart_pos := hstart
  maxLen_pos := hmax
  head_ge := Nat.le_refl _
  head_lt := by simp only [circularBufferInit]; omega
  len_le := Nat.zero_le _
  tail_eq := by
    simp only [circularBufferInit]
    rw [Ring.slot_zero (Nat.le_refl _) (by omega)]

@[simp]
theorem init_contents (mem : Memory UInt8) (dataBuf maxLen : Nat) :
    (circularBufferInit dataBuf maxLen).contents mem = [] := rfl

theorem clear_valid {buf : CircularBuffer} (hvalid : buf.Valid) :
    (circularBufferClear buf).Valid where
  dataEnd_eq := hvalid.dataEnd_eq
  dataStart_pos := hvalid.dataStart_pos
  maxLen_pos := hvalid.maxLen_pos
  head_ge := Nat.le_refl _
  head_lt := Nat.lt_add_of_pos_right hvalid.maxLen_pos
  len_le := Nat.zero_le _
  tail_eq := by
    have hpos := hvalid.maxLen_pos
    simp only [circularBufferClear]
    rw [Ring.slot_zero (Nat.le_refl _) (by omega)]

@[simp]
theorem clear_contents (mem : Memory UInt8) (buf : CircularBuffer) :
    (circularBufferClear buf).contents mem = [] := rfl

theorem clear_sameBlock (buf : CircularBuffer) :
    (circularBufferClear buf).SameBlock buf := ⟨rfl, rfl⟩

theorem SameBlock.trans {a b c : CircularBuffer} (hab : a.SameBlock b)
    (hbc : b.SameBlock c) : a.SameBlock c :=
  ⟨hab.1.trans hbc.1, hab.2.trans hbc.2⟩

section PutByte

variable {mem : Memory UInt8} {buf : CircularBuffer} {byte : UInt8}

theorem putByte_of_full (hfull : buf.maxLen ≤ buf.currentLen) :
    circularBufferPutByte mem buf byte = (mem, buf, 0) :=
  if_pos hfull

theorem putByte_of_room (hroom : buf.currentLen < buf.maxLen) :
    circularBufferPutByte mem buf byte =
      (mem.store buf.tail byte,
        { buf with
          tail := Ring.advance buf.dataStart buf.dataEnd buf.tail
          currentLen := buf.currentLen + 1 }, 1) :=
  if_neg (Nat.not_le_of_lt hroom)

theorem putByte_sameBlock :
    (circularBufferPutByte mem buf byte).2.1.SameBlock buf := by
  unfold circularBufferPutByte
  split
  · exact ⟨rfl, rfl⟩
  · exact ⟨rfl, rfl⟩

theorem putByte_valid (hvalid : buf.Valid) :
    (circularBufferPutByte mem buf byte).2.1.Valid := by
  by_cases hroom : buf.currentLen < buf.maxLen
  · rw [putByte_of_room hroom]
    refine ⟨hvalid.dataEnd_eq, hvalid.dataStart_pos, hvalid.maxLen_pos,
      hvalid.head_ge, hvalid.head_lt, hroom, ?_⟩
    simp only [hvalid.tail_eq, hvalid.dataEnd_eq]
    exact Ring.advance_slot _ _ hvalid.maxLen_pos _
  · rw [putByte_of_full (Nat.le_of_not_lt hroom)]
    exact hvalid

/-- `put_byte` appends exactly when there is room. -/
theorem putByte_contents (hvalid : buf.Valid)
    (hroom : buf.currentLen < buf.maxLen) :
    (circularBufferPutByte mem buf byte).2.1.contents
        (circularBufferPutByte mem buf byte).1 =
      buf.contents mem ++ [byte] := by
  rw [putByte_of_room hroom]
  simp only [contents, hvalid.tail_eq]
  exact Ring.window_store_back mem byte hroom

/-- `put_byte` writes nowhere outside the backing block. -/
theorem putByte_frame (hvalid : buf.Valid) {a : Nat}
    (houtside : a < buf.dataStart ∨ buf.dataStart + buf.maxLen ≤ a) :
    (circularBufferPutByte mem buf byte).1 a = mem a := by
  by_cases hroom : buf.currentLen < buf.maxLen
  · rw [putByte_of_room hroom]
    have hge := Ring.le_slot buf.dataStart buf.maxLen buf.head buf.currentLen
    have hlt := Ring.slot_lt buf.dataStart buf.head hvalid.maxLen_pos
      buf.currentLen
    apply Memory.store_of_ne
    rw [hvalid.tail_eq]
    omega
  · rw [putByte_of_full (Nat.le_of_not_lt hroom)]

end PutByte

section Put

variable {mem : Memory UInt8} {buf : CircularBuffer}

/-- What storing bytes at the tail must leave behind. -/
structure Stored (mem : Memory UInt8) (buf : CircularBuffer)
    (bytes : List UInt8) (mem' : Memory UInt8) (tail : Nat) : Prop where
  valid : Valid { buf with
    tail := tail, currentLen := buf.currentLen + bytes.length }
  contents_eq : contents mem' { buf with
    tail := tail, currentLen := buf.currentLen + bytes.length } =
      buf.contents mem ++ bytes
  frame : ∀ a, (a < buf.dataStart ∨ buf.dataStart + buf.maxLen ≤ a) →
    mem' a = mem a

/-- The loop of `put` is `put_byte` once per byte, as long as there is room. -/
theorem putLoop_stored (hvalid : buf.Valid) {bytes : List UInt8}
    (hroom : buf.currentLen + bytes.length ≤ buf.maxLen) :
    Stored mem buf bytes
      (putLoop buf.dataStart buf.dataEnd mem buf.tail bytes).1
      (putLoop buf.dataStart buf.dataEnd mem buf.tail bytes).2 := by
  induction bytes generalizing mem buf with
  | nil => exact ⟨hvalid, (List.append_nil _).symm, fun _ _ => rfl⟩
  | cons byte rest ih =>
      rw [List.length_cons] at hroom
      have hspace : buf.currentLen < buf.maxLen := by omega
      have hnext := @putByte_valid mem buf byte hvalid
      have hcontents := @putByte_contents mem buf byte hvalid hspace
      have hframe := fun a => @putByte_frame mem buf byte hvalid a
      rw [putByte_of_room hspace] at hnext hcontents
      simp only [putByte_of_room hspace] at hframe
      obtain ⟨hlast, hbytes, hothers⟩ :=
        @ih (mem.store buf.tail byte) _ hnext (by simp only; omega)
      have hlen : buf.currentLen + 1 + rest.length =
          buf.currentLen + (byte :: rest).length := by
        rw [List.length_cons]
        omega
      simp only [hlen] at hlast hbytes
      refine ⟨hlast, ?_, ?_⟩
      · rw [putLoop, hbytes, hcontents, List.append_assoc]
        rfl
      · intro a houtside
        rw [putLoop, hothers a houtside, hframe a houtside]

/-- The call of `put` adds as many bytes as there is room for and says so.  The
bytes that were in the buffer stay where they are. -/
structure PutFits (mem : Memory UInt8) (buf : CircularBuffer)
    (input : Memory UInt8) (len : Nat) : Prop where
  count_eq : (circularBufferPut mem buf input len).2.2 =
    min len (buf.maxLen - buf.currentLen)
  valid : (circularBufferPut mem buf input len).2.1.Valid
  contents_eq : (circularBufferPut mem buf input len).2.1.contents
      (circularBufferPut mem buf input len).1 =
    buf.contents mem ++ input.load 0 (min len (buf.maxLen - buf.currentLen))
  len_eq : (circularBufferPut mem buf input len).2.1.currentLen =
    buf.currentLen + min len (buf.maxLen - buf.currentLen)
  unread : ∀ i < buf.currentLen, (circularBufferPut mem buf input len).1
      (Ring.slot buf.dataStart buf.maxLen buf.head i) =
    mem (Ring.slot buf.dataStart buf.maxLen buf.head i)
  frame : ∀ a, (a < buf.dataStart ∨ buf.dataStart + buf.maxLen ≤ a) →
    (circularBufferPut mem buf input len).1 a = mem a

variable {input : Memory UInt8} {len : Nat}

/-- A request that is cut to the room there is, or needs no cut, fits. -/
theorem put_fits_of_count (hvalid : buf.Valid)
    (hcount : (if (buf.currentLen + len) % 2 ^ 32 > buf.maxLen then
      buf.maxLen - buf.currentLen else len) =
        min len (buf.maxLen - buf.currentLen))
    (hsum : buf.currentLen + min len (buf.maxLen - buf.currentLen) <
      2 ^ 32) : PutFits mem buf input len := by
  have hle := hvalid.len_le
  obtain ⟨hnext, hcontents, hframe⟩ := @putLoop_stored mem buf hvalid
    (input.load 0 (min len (buf.maxLen - buf.currentLen)))
    (by rw [Memory.load_length]; omega)
  simp only [Memory.load_length] at hnext hcontents
  have hunread : ∀ i < buf.currentLen, (putLoop buf.dataStart buf.dataEnd mem
      buf.tail (input.load 0 (min len (buf.maxLen - buf.currentLen)))).1
      (Ring.slot buf.dataStart buf.maxLen buf.head i) =
      mem (Ring.slot buf.dataStart buf.maxLen buf.head i) := by
    intro i hi
    have hbyte := congrArg (fun bytes : List UInt8 => bytes[i]?) hcontents
    simp only [contents, Ring.window] at hbyte
    rw [List.getElem?_append_left (by simpa using hi)] at hbyte
    simpa [hi, Nat.lt_add_right _ hi] using hbyte
  constructor
  all_goals
    simp only [circularBufferPut, hcount, Nat.mod_eq_of_lt hsum]
  · exact hnext
  · exact hcontents
  · exact hunread
  · exact hframe

/-- The two lengths wrap around to a sum that does not exceed the capacity. -/
def SumWraps (buf : CircularBuffer) (len : Nat) : Prop :=
  2 ^ 32 ≤ buf.currentLen + len ∧
    buf.currentLen + len - 2 ^ 32 ≤ buf.maxLen

/-- `put` stores what fits exactly if the capacity test does not see a sum that
wrapped around. -/
theorem put_fits_iff (hvalid : buf.Valid) (hmax : buf.maxLen < 2 ^ 31)
    (hlen : len < 2 ^ 32) :
    PutFits mem buf input len ↔ ¬ buf.SumWraps len := by
  have hle := hvalid.len_le
  constructor
  · intro hfits hwraps
    obtain ⟨hlo, hhi⟩ := hwraps
    have hcount := hfits.count_eq
    simp only [circularBufferPut] at hcount
    rw [if_neg (by omega)] at hcount
    omega
  · intro hwraps
    have hcases : ¬ (2 ^ 32 ≤ buf.currentLen + len ∧
      buf.currentLen + len - 2 ^ 32 ≤ buf.maxLen) := hwraps
    apply put_fits_of_count hvalid
    · split <;> omega
    · omega

theorem partFilled_put_fits :
    PutFits (fun _ => 1) ⟨3, 1, 100, 103, 102, 100⟩ (fun _ => 7)
      (2 ^ 32 - 5) :=
  (put_fits_iff ⟨rfl, by decide, by decide, by decide, by decide, by decide,
    rfl⟩ (by decide) (by decide)).mpr fun hwraps => absurd hwraps.1 (by decide)

/-- The cells the loop passes hold bytes it stored. -/
theorem putLoop_overwrites {lo cap head : Nat} (hcap : 0 < cap) (i : Nat)
    (bytes : List UInt8) :
    (∀ a, (putLoop lo (lo + cap) mem (Ring.slot lo cap head i) bytes).1 a =
        mem a ∨
      (putLoop lo (lo + cap) mem (Ring.slot lo cap head i) bytes).1 a ∈
        bytes) ∧
      ∀ j < bytes.length,
        (putLoop lo (lo + cap) mem (Ring.slot lo cap head i) bytes).1
          (Ring.slot lo cap head (i + j)) ∈ bytes := by
  induction bytes generalizing mem i with
  | nil => exact ⟨fun _ => Or.inl rfl, fun j hj => absurd hj (Nat.not_lt_zero j)⟩
  | cons byte rest ih =>
      obtain ⟨hcells, hpassed⟩ :=
        @ih (mem.store (Ring.slot lo cap head i) byte) (i + 1)
      rw [putLoop, Ring.advance_slot lo head hcap]
      constructor
      · intro a
        rcases hcells a with hkept | hstored
        · by_cases ha : a = Ring.slot lo cap head i
          · rw [hkept, ha, Memory.store_same]
            exact Or.inr List.mem_cons_self
          · rw [hkept, Memory.store_of_ne _ _ ha]
            exact Or.inl rfl
        · exact Or.inr (List.mem_cons_of_mem byte hstored)
      · intro j hj
        cases j with
        | zero =>
            rcases hcells (Ring.slot lo cap head (i + 0)) with hkept | hstored
            · rw [hkept, Nat.add_zero, Memory.store_same]
              exact List.mem_cons_self
            · exact List.mem_cons_of_mem byte hstored
        | succ j =>
            have hlater := hpassed j (Nat.lt_of_succ_lt_succ hj)
            rw [Nat.add_assoc, Nat.add_comm 1 j] at hlater
            exact List.mem_cons_of_mem byte hlater

/-- A sum that wrapped around lets the loop run over the unread bytes. -/
theorem put_overwrites (hvalid : buf.Valid) (hmax : buf.maxLen < 2 ^ 31)
    (hwraps : buf.SumWraps len) {i : Nat} (hi : i < buf.currentLen) :
    (circularBufferPut mem buf input len).2.2 = len ∧
      (circularBufferPut mem buf input len).1
          (Ring.slot buf.dataStart buf.maxLen buf.head i) ∈
        input.load 0 len := by
  have hle := hvalid.len_le
  obtain ⟨hlo, hhi⟩ := hwraps
  have hcount : (if (buf.currentLen + len) % 2 ^ 32 > buf.maxLen then
      buf.maxLen - buf.currentLen else len) = len := if_neg (by omega)
  have hround : Ring.slot buf.dataStart buf.maxLen buf.head
      (buf.currentLen + (buf.maxLen - buf.currentLen + i)) =
      Ring.slot buf.dataStart buf.maxLen buf.head i := by
    have hsum : buf.head - buf.dataStart +
        (buf.currentLen + (buf.maxLen - buf.currentLen + i)) =
        buf.head - buf.dataStart + i + buf.maxLen := by omega
    rw [Ring.slot, Ring.slot, hsum, Nat.add_mod_right]
  have hloop := (@putLoop_overwrites mem buf.dataStart buf.maxLen buf.head
    hvalid.maxLen_pos buf.currentLen (input.load 0 len)).2
    (buf.maxLen - buf.currentLen + i) (by rw [Memory.load_length]; omega)
  rw [hround, ← hvalid.tail_eq, ← hvalid.dataEnd_eq] at hloop
  simp only [circularBufferPut, hcount]
  exact ⟨trivial, hloop⟩

/-- One unread byte, 1, and room for two.  A request for 2^32 - 1 bytes is not
cut, and the loop stores a 7 over the unread byte. -/
theorem wrapped_put_overwrites :
    (⟨3, 1, 100, 103, 100, 101⟩ : CircularBuffer).Valid ∧
      (circularBufferPut (fun _ => 1) ⟨3, 1, 100, 103, 100, 101⟩ (fun _ => 7)
        (2 ^ 32 - 1)).2.2 = 2 ^ 32 - 1 ∧
      (circularBufferPut (fun _ => 1) ⟨3, 1, 100, 103, 100, 101⟩ (fun _ => 7)
        (2 ^ 32 - 1)).1 100 = 7 := by
  have hvalid : (⟨3, 1, 100, 103, 100, 101⟩ : CircularBuffer).Valid :=
    ⟨rfl, by decide, by decide, by decide, by decide, by decide, rfl⟩
  have hwraps : (⟨3, 1, 100, 103, 100, 101⟩ : CircularBuffer).SumWraps
      (2 ^ 32 - 1) := by
    simp [SumWraps]
  obtain ⟨hcount, hbyte⟩ := @put_overwrites (fun _ => 1) _ (fun _ => 7)
    (2 ^ 32 - 1) hvalid (by decide) hwraps 0 (by decide)
  have hseven : ∀ byte ∈ Memory.load (fun _ => (7 : UInt8)) 0 (2 ^ 32 - 1),
      byte = 7 := by
    intro byte hmem
    obtain ⟨_, -, heq⟩ := List.mem_map.mp hmem
    exact heq.symm
  have hcell := hseven _ hbyte
  have hhead : Ring.slot 100 3 100 0 = 100 := rfl
  simp only [hhead] at hcell
  exact ⟨hvalid, hcount, hcell⟩

end Put

section EndByte

variable {mem : Memory UInt8} {buf : CircularBuffer}

/-- The cell before the tail is the last byte of a non-empty buffer. -/
theorem Valid.retreat_tail (hvalid : buf.Valid) {len : Nat}
    (hlen : buf.currentLen = len + 1) :
    Ring.retreat buf.dataStart buf.dataEnd buf.tail =
      Ring.slot buf.dataStart buf.maxLen buf.head len := by
  rw [hvalid.tail_eq, hvalid.dataEnd_eq, hlen]
  exact Ring.retreat_slot hvalid.dataStart_pos hvalid.maxLen_pos len

theorem peekEndByte_eq_getLast? (hvalid : buf.Valid) :
    circularBufferPeekEndByte mem buf = (buf.contents mem).getLast? := by
  unfold circularBufferPeekEndByte
  cases hlen : buf.currentLen with
  | zero => simp [contents, hlen]
  | succ len =>
      rw [if_neg (Nat.succ_ne_zero len), hvalid.retreat_tail hlen, contents,
        hlen, Ring.window_succ_back, List.getLast?_concat]

theorem removeEndByte_sameBlock :
    (circularBufferRemoveEndByte buf).1.SameBlock buf := by
  unfold circularBufferRemoveEndByte
  split
  · exact ⟨rfl, rfl⟩
  · exact ⟨rfl, rfl⟩

theorem removeEndByte_valid (hvalid : buf.Valid) :
    (circularBufferRemoveEndByte buf).1.Valid := by
  unfold circularBufferRemoveEndByte
  cases hlen : buf.currentLen with
  | zero => simpa using hvalid
  | succ len =>
      have hle := hvalid.len_le
      rw [if_neg (Nat.succ_ne_zero len)]
      exact ⟨hvalid.dataEnd_eq, hvalid.dataStart_pos, hvalid.maxLen_pos,
        hvalid.head_ge, hvalid.head_lt, by simp only; omega,
        hvalid.retreat_tail hlen⟩

theorem removeEndByte_contents :
    (circularBufferRemoveEndByte buf).1.contents mem =
      (buf.contents mem).dropLast := by
  unfold circularBufferRemoveEndByte
  cases hlen : buf.currentLen with
  | zero => simp [contents, hlen]
  | succ len =>
      rw [if_neg (Nat.succ_ne_zero len)]
      simp only [contents, hlen, Nat.add_sub_cancel]
      rw [Ring.window_succ_back, List.dropLast_concat]

end EndByte

section Get

variable {mem : Memory UInt8} {buf : CircularBuffer}

/-- The copy loop reads a window and leaves the pointer at its end. -/
theorem readLoop_eq_window (mem : Memory UInt8) {lo cap : Nat}
    (hcap : 0 < cap) (ptr count : Nat) (hlo : lo ≤ ptr)
    (hhi : ptr < lo + cap) :
    readLoop mem lo (lo + cap) ptr count =
      (Ring.window mem lo cap ptr count, Ring.slot lo cap ptr count) := by
  induction count generalizing ptr with
  | zero => simp [readLoop, Ring.slot_zero hlo hhi]
  | succ count ih =>
      have hzero := Ring.slot_zero hlo hhi
      have hnext : Ring.advance lo (lo + cap) ptr = Ring.slot lo cap ptr 1 := by
        have hadv := Ring.advance_slot lo ptr hcap 0
        rwa [hzero] at hadv
      rw [readLoop, hnext, ih _ (Ring.le_slot lo cap ptr 1)
        (Ring.slot_lt lo ptr hcap 1)]
      simp only [Ring.window_succ_front, hzero, Ring.slot_slot,
        Nat.add_comm 1 count]

/-- How many bytes a request for `len` bytes really moves. -/
theorem capped_eq_min (len current : Nat) :
    (if len > current then current else len) = min len current := by
  split <;> omega

theorem Valid.get_eq (hvalid : buf.Valid) (len : Nat) :
    circularBufferGet mem buf len =
      ((buf.contents mem).take len,
        { buf with
          head := Ring.slot buf.dataStart buf.maxLen buf.head
            (min len buf.currentLen)
          currentLen := buf.currentLen - min len buf.currentLen }) := by
  simp only [circularBufferGet, capped_eq_min, hvalid.dataEnd_eq]
  rw [readLoop_eq_window mem hvalid.maxLen_pos _ _ hvalid.head_ge
    hvalid.head_lt, contents, Ring.window_take]

/-- `get` hands out the oldest `len` bytes, or all there are. -/
theorem get_bytes (hvalid : buf.Valid) (len : Nat) :
    (circularBufferGet mem buf len).1 = (buf.contents mem).take len := by
  rw [hvalid.get_eq]

theorem get_sameBlock (hvalid : buf.Valid) (len : Nat) :
    (circularBufferGet mem buf len).2.SameBlock buf := by
  rw [hvalid.get_eq]
  exact ⟨rfl, rfl⟩

theorem get_valid (hvalid : buf.Valid) (len : Nat) :
    (circularBufferGet mem buf len).2.Valid := by
  have hle := hvalid.len_le
  rw [hvalid.get_eq]
  refine ⟨hvalid.dataEnd_eq, hvalid.dataStart_pos, hvalid.maxLen_pos,
    Ring.le_slot _ _ _ _, Ring.slot_lt _ _ hvalid.maxLen_pos _,
    by simp only; omega, ?_⟩
  simp only [Ring.slot_slot]
  rw [hvalid.tail_eq]
  congr 1
  omega

theorem get_contents (hvalid : buf.Valid) (len : Nat) :
    (circularBufferGet mem buf len).2.contents mem =
      (buf.contents mem).drop len := by
  have hlen := contents_length mem buf
  rw [hvalid.get_eq]
  simp only [contents, ← Ring.window_drop]
  rcases Nat.le_total len buf.currentLen with hle | hge
  · rw [Nat.min_eq_left hle]
  · rw [Nat.min_eq_right hge, List.drop_of_length_le (by simp),
      List.drop_of_length_le (by simpa using hge)]

theorem peek_bytes (hvalid : buf.Valid) (len : Nat) :
    circularBufferPeek mem buf len = (buf.contents mem).take len := by
  simp only [circularBufferPeek, capped_eq_min, hvalid.dataEnd_eq]
  rw [readLoop_eq_window mem hvalid.maxLen_pos _ _ hvalid.head_ge
    hvalid.head_lt, contents, Ring.window_take]

/-- `get_byte` is `get` for one byte. -/
theorem getByte_eq (hvalid : buf.Valid) :
    circularBufferGetByte mem buf =
      ((buf.contents mem).head?, (circularBufferGet mem buf 1).2) := by
  have hzero := Ring.slot_zero hvalid.head_ge hvalid.head_lt
  rw [hvalid.get_eq, circularBufferGetByte]
  cases hlen : buf.currentLen with
  | zero =>
      have hempty : buf.contents mem = [] :=
        List.eq_nil_of_length_eq_zero ((contents_length mem buf).trans hlen)
      rw [if_pos rfl, hempty, Nat.min_zero, hzero]
      simp only [List.head?_nil, Prod.mk.injEq, true_and]
      rw [Nat.sub_zero, ← hlen]
  | succ len =>
      have hnext := Ring.advance_slot buf.dataStart buf.head
        hvalid.maxLen_pos 0
      rw [hzero] at hnext
      rw [if_neg (Nat.succ_ne_zero len), contents, hlen,
        Ring.window_succ_front, hzero, hvalid.dataEnd_eq, hnext,
        Nat.min_eq_left (Nat.le_add_left 1 len)]
      rfl

end Get

section Find

variable {mem : Memory UInt8} {buf : CircularBuffer}

/-- The position of the first occurrence, as `circular_buffer_find` reports
it. -/
def indexOrMinusOne (bytes : List UInt8) (val : UInt8) (base : Nat) : Int :=
  match bytes.idxOf? val with
  | some i => (base + i : Nat)
  | none => -1

theorem findLoop_eq (mem : Memory UInt8) {lo cap : Nat} (hcap : 0 < cap)
    (val : UInt8) (len ptr count : Nat) (hlo : lo ≤ ptr)
    (hhi : ptr < lo + cap) :
    findLoop mem lo (lo + cap) val len ptr count =
      indexOrMinusOne (Ring.window mem lo cap ptr count) val len := by
  induction count generalizing len ptr with
  | zero => rfl
  | succ count ih =>
      have hzero := Ring.slot_zero hlo hhi
      have hnext : Ring.advance lo (lo + cap) ptr = Ring.slot lo cap ptr 1 := by
        have hadv := Ring.advance_slot lo ptr hcap 0
        rwa [hzero] at hadv
      rw [findLoop, hnext, ih _ _ (Ring.le_slot lo cap ptr 1)
        (Ring.slot_lt lo ptr hcap 1), Ring.window_succ_front, hzero]
      simp only [indexOrMinusOne, List.idxOf?_cons]
      by_cases hhead : mem ptr = val
      · simp [hhead]
      · simp only [hhead, ↓reduceIte, beq_iff_eq]
        cases (Ring.window mem lo cap (Ring.slot lo cap ptr 1)
          count).idxOf? val with
        | none => rfl
        | some i => simp [Nat.add_assoc, Nat.add_comm 1 i]

theorem find_eq (hvalid : buf.Valid) (val : UInt8) :
    circularBufferFind mem buf val =
      indexOrMinusOne (buf.contents mem) val 0 := by
  rw [circularBufferFind, hvalid.dataEnd_eq]
  exact findLoop_eq mem hvalid.maxLen_pos val 0 buf.head buf.currentLen
    hvalid.head_ge hvalid.head_lt

end Find

end CircularBuffer

end PsychOS
