/-
Numbers as text: `itoa` and `strrev` of the kernel (`lib/lib.c`) and of the
user programs (`ece391support.c`), and `printf`.  Digits are produced from the
lowest on and turned around in place.
-/
import PsychOS.Filesystem
import PsychOS.Lib.Numerals
import PsychOS.Lib.Strings

namespace PsychOS

/-- The table of digits, `'0'` to `'9'` and `'A'` to `'Z'`. -/
def lookup : Memory UInt8 :=
  cString [48, 49, 50, 51, 52, 53, 54, 55, 56, 57, 65, 66, 67, 68, 69, 70, 71,
    72, 73, 74, 75, 76, 77, 78, 79, 80, 81, 82, 83, 84, 85, 86, 87, 88, 89, 90]

/-- The loop of `strrev`; `none` if the turns do not suffice. -/
def strrevLoop (s : Nat) :
    Nat → Memory UInt8 → Int → Int → Option (Memory UInt8)
  | 0, mem, first, last => if first < last then none else some mem
  | fuel + 1, mem, first, last =>
      if first < last then
        let tmp := mem (s + last.toNat)
        let mem := mem.store (s + last.toNat) (mem (s + first.toNat))
        let mem := mem.store (s + first.toNat) tmp
        strrevLoop s fuel mem (first + 1) (last - 1)
      else some mem

/-- The index of the last character, as `int32_t`: -1 for an empty string. -/
def lastIndex (len : Nat) : Int := toInt32 (len + (2 ^ 32 - 1))

/-- `strrev`; `none` if the string has no end. -/
def strrev (mem : Memory UInt8) (s : Nat) : Option (Memory UInt8) :=
  (strlenFrom mem s (2 ^ 32)).bind fun len =>
    strrevLoop s (2 ^ 32) mem 0 (lastIndex len)

/-- `ece391_strrev`, which leaves strings of one character alone. -/
def ece391Strrev (mem : Memory UInt8) (s : Nat) : Option (Memory UInt8) :=
  (strlenFrom mem s (2 ^ 32)).bind fun len =>
    if lastIndex len ≤ 0 then some mem
    else strrevLoop s (2 ^ 32) mem 0 (lastIndex len)

/-- The digit loop of `itoa`: the memory and the place behind the last digit;
`none` if the turns do not suffice. -/
def itoaLoop (radix : Nat) :
    Nat → Nat → Memory UInt8 → Nat → Option (Memory UInt8 × Nat)
  | 0, newval, mem, newbuf => if newval > 0 then none else some (mem, newbuf)
  | fuel + 1, newval, mem, newbuf =>
      if newval > 0 then
        itoaLoop radix fuel (newval / radix)
          (mem.store newbuf (lookup (newval % radix))) (newbuf + 1)
      else some (mem, newbuf)

/-- What the two `itoa` have in common; they differ in the function that turns
the digits around. -/
def itoaWith (reverse : Memory UInt8 → Nat → Option (Memory UInt8))
    (mem : Memory UInt8) (value : UInt32) (buf radix : Nat) :
    Option (Memory UInt8) :=
  if value = 0 then some ((mem.store buf 48).store (buf + 1) 0)
  else
    (itoaLoop radix (2 ^ 32) value.toNat mem buf).bind fun (mem, newbuf) =>
      reverse (mem.store newbuf 0) buf

def itoa : Memory UInt8 → UInt32 → Nat → Nat → Option (Memory UInt8) :=
  itoaWith strrev

def ece391Itoa : Memory UInt8 → UInt32 → Nat → Nat → Option (Memory UInt8) :=
  itoaWith ece391Strrev

/-- `puts`: the characters passed to `putc`; `none` if there is no terminator
among the first `fuel`. -/
def putsFrom (mem : Memory UInt8) (s : Nat) : Nat → Option (List UInt8)
  | 0 => none
  | fuel + 1 =>
      if mem s = 0 then some []
      else (putsFrom mem (s + 1) fuel).map (mem s :: ·)

def puts (mem : Memory UInt8) (s : Nat) : Option (List UInt8) :=
  putsFrom mem s (2 ^ 32)

/-- The loop that fills `conv_buf` up to index 8 with zeros. -/
def padZeros (convBuf : Memory UInt8) (i : Nat) : Memory UInt8 :=
  convBuf.fill i 48 (8 - i)

section Conversions

variable (convBuf : Memory UInt8) (value : UInt32)

/-- The cases of `printf` that print a number, for what the array `conv_buf`
on the stack holds before. -/
def printHex : Option (List UInt8) :=
  (itoa convBuf value 0 16).bind fun convBuf => puts convBuf 0

def printAlternateHex : Option (List UInt8) :=
  (itoa convBuf value 8 16).bind fun convBuf =>
    (strlenFrom convBuf 8 (2 ^ 32)).bind fun startingIndex =>
      puts (padZeros convBuf startingIndex) startingIndex

def printUnsigned : Option (List UInt8) :=
  (itoa convBuf value 0 10).bind fun convBuf => puts convBuf 0

def printSigned : Option (List UInt8) :=
  let written :=
    if toInt32 value.toNat < 0 then itoa (convBuf.store 0 45) (-value) 1 10
    else itoa convBuf value 0 10
  written.bind fun convBuf => puts convBuf 0

end Conversions

/-- One conversion of `printf`: the characters and the number of the next
argument.  The arguments are the words above the format on the stack. -/
def convert (mem : Memory UInt8) (args : Nat → UInt32)
    (convBuf : Memory UInt8) (ch : UInt8) (alternate : Bool) (arg : Nat) :
    Option (List UInt8 × Nat) :=
  if ch = 37 then some ([37], arg)
  -- 'x'
  else if ch = 120 then
    (if alternate then printAlternateHex convBuf (args arg)
      else printHex convBuf (args arg)).map (·, arg + 1)
  -- 'u'
  else if ch = 117 then (printUnsigned convBuf (args arg)).map (·, arg + 1)
  -- 'd'
  else if ch = 100 then (printSigned convBuf (args arg)).map (·, arg + 1)
  -- 'c'
  else if ch = 99 then some ([(args arg).toUInt8], arg + 1)
  -- 's'
  else if ch = 115 then (puts mem (args arg).toNat).map (·, arg + 1)
  else some ([], arg)

/-- `#` after `%`, any number of times: the place of the first other character
and whether there was one. -/
def skipHashes (mem : Memory UInt8) : Nat → Nat → Bool → Option (Nat × Bool)
  | 0, _, _ => none
  | fuel + 1, buf, alternate =>
      if mem buf = 35 then skipHashes mem fuel (buf + 1) true
      else some (buf, alternate)

/-- The loop of `printf` from `buf` on: the characters printed and the place of
the terminator. -/
def printfFrom (mem : Memory UInt8) (args : Nat → UInt32)
    (convBuf : Nat → Memory UInt8) :
    Nat → Nat → Nat → Option (List UInt8 × Nat)
  | 0, _, _ => none
  | fuel + 1, buf, arg =>
      if mem buf = 0 then some ([], buf)
      else if mem buf = 37 then
        (skipHashes mem (2 ^ 32) (buf + 1) false).bind fun (buf, alternate) =>
          (convert mem args (convBuf buf) (mem buf) alternate arg).bind
            fun (text, arg) =>
              (printfFrom mem args convBuf fuel (buf + 1) arg).map
                fun (rest, last) => (text ++ rest, last)
      else
        (printfFrom mem args convBuf fuel (buf + 1) arg).map
          fun (rest, last) => (mem buf :: rest, last)

/-- `printf`: the characters printed and the result, the length of the format.
`convBuf` is what the stack holds where the array of the conversion at a place
of the format will be. -/
def printf (mem : Memory UInt8) (args : Nat → UInt32)
    (convBuf : Nat → Memory UInt8) (format : Nat) :
    Option (List UInt8 × Nat) :=
  (printfFrom mem args convBuf (2 ^ 32) format 0).map
    fun (text, last) => (text, last - format)

/-- The digit a character stands for. -/
def digitValue (ch : UInt8) : Nat :=
  if ch.toNat < 65 then ch.toNat - 48 else ch.toNat - 55

section Reversal

variable {mem : Memory UInt8}

/-- The loop turns `count` characters around.  It goes over two of them in each
turn. -/
theorem strrevLoop_eq (s : Nat) {fuel : Nat} (first count : Nat)
    (hfuel : count ≤ fuel) :
    strrevLoop s fuel mem first (first + count - 1) =
      some (mem.reverseRange (s + first) count) := by
  induction fuel generalizing mem first count with
  | zero =>
      obtain rfl : count = 0 := Nat.le_zero.mp hfuel
      rw [strrevLoop, if_neg (by omega),
        mem.reverseRange_of_le_one _ (Nat.zero_le 1)]
  | succ fuel ih =>
      rw [strrevLoop]
      by_cases hmore : 2 ≤ count
      · obtain ⟨rest, rfl⟩ := Nat.exists_eq_add_of_le' hmore
        have hlast : ((first : Int) + ((rest + 2 : Nat) : Int) - 1).toNat =
            first + rest + 1 := by omega
        have hnext : (first : Int) + ((rest + 2 : Nat) : Int) - 1 - 1 =
            ((first + 1 : Nat) : Int) + (rest : Int) - 1 := by omega
        rw [if_pos (by omega)]
        simp only [hlast, Int.toNat_natCast]
        have hrest := @ih ((mem.store (s + (first + rest + 1))
          (mem (s + first))).store (s + first)
            (mem (s + (first + rest + 1)))) (first + 1) rest (by omega)
        rw [hnext, ← Int.natCast_succ, hrest]
        have hswap := mem.reverseRange_swap (s + first) rest
        simp only [Nat.add_assoc] at hswap ⊢
        rw [hswap]
      · rw [if_neg (by omega), mem.reverseRange_of_le_one _ (by omega)]

theorem lastIndex_eq {len : Nat} (hlen : len < 2 ^ 31) :
    lastIndex len = 0 + (len : Int) - 1 := by
  rw [lastIndex, toInt32]
  split <;> omega

/-- What both functions leave of a string. -/
theorem strrev_eq {s : Nat} {bytes : List UInt8}
    (hholds : HoldsString mem s bytes) (hnul : 0 ∉ bytes)
    (hlength : bytes.length < 2 ^ 31) :
    strrev mem s = some (mem.reverseRange s bytes.length) ∧
      ece391Strrev mem s = some (mem.reverseRange s bytes.length) := by
  have hstrlen : strlenFrom mem s (2 ^ 32) = some bytes.length :=
    strlenFrom_eq hholds hnul (by omega)
  have hloop : strrevLoop s (2 ^ 32) mem 0 (lastIndex bytes.length) =
      some (mem.reverseRange s bytes.length) := by
    rw [lastIndex_eq hlength]
    exact strrevLoop_eq s 0 bytes.length (by omega)
  constructor
  · rw [strrev, hstrlen, Option.bind_some, hloop]
  · rw [ece391Strrev, hstrlen, Option.bind_some]
    split
    · next hshort =>
        rw [lastIndex_eq hlength] at hshort
        rw [mem.reverseRange_of_le_one _ (by omega)]
    · exact hloop

end Reversal

section Digits

theorem lookup_ne_zero {d : Nat} (hd : d < 36) : lookup d ≠ 0 := by
  interval_cases d <;> decide

theorem digitValue_lookup {d : Nat} (hd : d < 36) :
    digitValue (lookup d) = d := by
  interval_cases d <;> rfl

/-- A number written in a radix with the digits of the table: no more than 32
of them, no zero in front of another digit, and it reads as the number. -/
structure CanonicalText (radix n : Nat) (text : List UInt8) : Prop where
  length_pos : 0 < text.length
  length_le : text.length ≤ 32
  digits : ∀ ch ∈ text, ∃ d < radix, ch = lookup d
  leading : text.head? = some 48 → text = [48]
  value : evaluate digitValue radix text = n

variable {radix : Nat}

theorem numeral_canonical (hradix : 2 ≤ radix) (hmax : radix ≤ 36) {n : Nat}
    (hn : n < 2 ^ 32) : CanonicalText radix n (numeral lookup radix n) where
  length_pos := by
    rw [numeral]
    split
    · exact Nat.one_pos
    · rw [List.length_reverse, List.length_map, List.length_pos_iff]
      exact Nat.digits_ne_nil_iff_ne_zero.mpr ‹_›
  length_le := by
    have hpow : 2 ^ 32 ≤ radix ^ 32 := Nat.pow_le_pow_left hradix 32
    exact numeral_length_le hradix (by decide) (Nat.lt_of_lt_of_le hn hpow)
  digits := fun _ hch => mem_numeral hradix hch
  leading := by
    intro hhead
    by_cases hzero : n = 0
    · rw [numeral, if_pos hzero]
      rfl
    · -- the first digit has the value of its glyph, which is not zero
      obtain ⟨d, hpos, hlt, hfirst⟩ :=
        @numeral_head UInt8 lookup radix n hradix hzero
      have hglyph : lookup d = 48 := Option.some.inj (hfirst.symm.trans hhead)
      have hvalue := digitValue_lookup (Nat.lt_of_lt_of_le hlt hmax)
      rw [hglyph] at hvalue
      exact absurd hvalue (Nat.ne_of_lt hpos)
  value := evaluate_numeral hradix
    (fun _ hd => digitValue_lookup (Nat.lt_of_lt_of_le hd hmax)) n

theorem zero_not_mem_digits (hradix : 2 ≤ radix) (hmax : radix ≤ 36)
    (n : Nat) : 0 ∉ (Nat.digits radix n).map lookup := by
  intro hmem
  obtain ⟨d, hd, hzero⟩ := List.mem_map.mp hmem
  exact lookup_ne_zero
    (Nat.lt_of_lt_of_le (Nat.digits_lt_base hradix hd) hmax) hzero

theorem zero_not_mem_numeral (hradix : 2 ≤ radix) (hmax : radix ≤ 36)
    (n : Nat) : 0 ∉ numeral lookup radix n := by
  intro hmem
  obtain ⟨d, hd, hzero⟩ := mem_numeral hradix hmem
  exact lookup_ne_zero (Nat.lt_of_lt_of_le hd hmax) hzero.symm

/-- The loop stores the digits from the lowest on.  Every turn makes the rest
smaller, so as many turns as the number suffice. -/
theorem itoaLoop_eq (hradix : 2 ≤ radix) {fuel newval : Nat}
    (mem : Memory UInt8) (newbuf : Nat) (hfuel : newval ≤ fuel) :
    itoaLoop radix fuel newval mem newbuf =
      some (mem.storeList newbuf ((Nat.digits radix newval).map lookup),
        newbuf + ((Nat.digits radix newval).map lookup).length) := by
  induction fuel generalizing newval mem newbuf with
  | zero =>
      obtain rfl : newval = 0 := Nat.le_zero.mp hfuel
      simp [itoaLoop, Memory.storeList]
  | succ fuel ih =>
      rw [itoaLoop]
      by_cases hmore : newval > 0
      · have hless : newval / radix < newval := Nat.div_lt_self hmore hradix
        rw [if_pos hmore, ih _ _ (by omega), Nat.digits_def' hradix hmore,
          List.map_cons, List.length_cons, Memory.storeList, Nat.add_assoc,
          Nat.add_comm 1]
      · obtain rfl : newval = 0 := Nat.eq_zero_of_not_pos hmore
        simp [Memory.storeList]

/-- `itoa` writes the numeral and a terminator, with either way to turn the
digits around. -/
theorem itoaWith_eq (hradix : 2 ≤ radix) (hmax : radix ≤ 36)
    {reverse : Memory UInt8 → Nat → Option (Memory UInt8)}
    (hreverse : ∀ {mem : Memory UInt8} {s : Nat} {bytes : List UInt8},
      HoldsString mem s bytes → 0 ∉ bytes → bytes.length < 2 ^ 31 →
        reverse mem s = some (mem.reverseRange s bytes.length))
    (mem : Memory UInt8) (value : UInt32) (buf : Nat) :
    itoaWith reverse mem value buf radix =
      some (mem.storeList buf (numeral lookup radix value.toNat ++ [0])) := by
  rw [itoaWith, numeral]
  by_cases hzero : value = 0
  · have hnumber : value.toNat = 0 := congrArg UInt32.toNat hzero
    rw [if_pos hzero, if_pos hnumber]
    rfl
  · have hne : value.toNat ≠ 0 := fun heq =>
      hzero (UInt32.toNat_inj.mp heq)
    have hlt := value.toNat_lt
    have hdigits : ((Nat.digits radix value.toNat).map lookup).length <
        2 ^ 31 := by
      rw [List.length_map]
      have hpow : 2 ^ 32 ≤ radix ^ 32 := Nat.pow_le_pow_left hradix 32
      have hle := (Nat.digits_length_le_iff hradix value.toNat).mpr
        (Nat.lt_of_lt_of_le hlt hpow)
      omega
    have hstored := mem.storeList_append buf
      ((Nat.digits radix value.toNat).map lookup) [0]
    have hturned := hreverse (holdsString_storeList mem buf _)
      (zero_not_mem_digits hradix hmax value.toNat) hdigits
    rw [if_neg hzero, if_neg hne, itoaLoop_eq hradix mem buf (Nat.le_of_lt hlt),
      Option.bind_some]
    rw [hstored] at hturned
    rw [← mem.reverseRange_storeList, hstored]
    exact hturned

theorem itoa_eq (hradix : 2 ≤ radix) (hmax : radix ≤ 36)
    (mem : Memory UInt8) (value : UInt32) (buf : Nat) :
    itoa mem value buf radix =
      some (mem.storeList buf (numeral lookup radix value.toNat ++ [0])) :=
  itoaWith_eq hradix hmax
    (fun hholds hnul hlength => (strrev_eq hholds hnul hlength).1) mem value
    buf

theorem ece391Itoa_eq (hradix : 2 ≤ radix) (hmax : radix ≤ 36)
    (mem : Memory UInt8) (value : UInt32) (buf : Nat) :
    ece391Itoa mem value buf radix =
      some (mem.storeList buf (numeral lookup radix value.toNat ++ [0])) :=
  itoaWith_eq hradix hmax
    (fun hholds hnul hlength => (strrev_eq hholds hnul hlength).2) mem value
    buf

end Digits

section Printing

variable {mem : Memory UInt8}

theorem putsFrom_eq {s fuel : Nat} {bytes : List UInt8}
    (hholds : HoldsString mem s bytes) (hnul : 0 ∉ bytes)
    (hfuel : bytes.length < fuel) : putsFrom mem s fuel = some bytes := by
  induction fuel generalizing s bytes with
  | zero => exact absurd hfuel (Nat.not_lt_zero _)
  | succ fuel ih =>
      rw [putsFrom]
      cases bytes with
      | nil => exact if_pos (holdsString_nil_iff.mp hholds)
      | cons byte rest =>
          obtain ⟨hhead, hholds⟩ := holdsString_cons_iff.mp hholds
          obtain ⟨hbyte, hnul⟩ := not_or.mp (mt List.mem_cons.mpr hnul)
          rw [hhead, if_neg (Ne.symm hbyte),
            ih hholds hnul (Nat.lt_of_succ_lt_succ hfuel), Option.map_some]

theorem puts_eq {s : Nat} {bytes : List UInt8}
    (hholds : HoldsString mem s bytes) (hnul : 0 ∉ bytes)
    (hlength : bytes.length ≤ 33) : puts mem s = some bytes :=
  putsFrom_eq hholds hnul (by omega)

/-- A signed number: the magnitude after a minus sign. -/
def signedText (value : UInt32) : List UInt8 :=
  if value.toNat < 2 ^ 31 then numeral lookup 10 value.toNat
  else 45 :: numeral lookup 10 (2 ^ 32 - value.toNat)

/-- A number in hexadecimal, filled up with zeros. -/
def paddedHex (value : UInt32) : List UInt8 :=
  List.replicate (8 - (numeral lookup 16 value.toNat).length) 48 ++
    numeral lookup 16 value.toNat

/-- What a conversion prints, and the number of the next argument. -/
def conversionText (mem : Memory UInt8) (args : Nat → UInt32) (ch : UInt8)
    (alternate : Bool) (arg : Nat) : Option (List UInt8 × Nat) :=
  if ch = 37 then some ([37], arg)
  else if ch = 120 then
    some (if alternate then paddedHex (args arg)
      else numeral lookup 16 (args arg).toNat, arg + 1)
  else if ch = 117 then some (numeral lookup 10 (args arg).toNat, arg + 1)
  else if ch = 100 then some (signedText (args arg), arg + 1)
  else if ch = 99 then some ([(args arg).toUInt8], arg + 1)
  else if ch = 115 then (puts mem (args arg).toNat).map (·, arg + 1)
  else some ([], arg)

theorem puts_numeral {radix : Nat} (hradix : 2 ≤ radix) (hmax : radix ≤ 36)
    (convBuf : Memory UInt8) (value : UInt32) :
    ((itoa convBuf value 0 radix).bind fun convBuf => puts convBuf 0) =
      some (numeral lookup radix value.toNat) := by
  have hcanonical := numeral_canonical hradix hmax value.toNat_lt
  rw [itoa_eq hradix hmax, Option.bind_some]
  exact puts_eq (holdsString_storeList _ _ _)
    (zero_not_mem_numeral hradix hmax _)
    (Nat.le_succ_of_le hcanonical.length_le)

/-- The padded form is put together before index 8 and printed from there
on. -/
theorem printAlternateHex_eq (convBuf : Memory UInt8) (value : UInt32) :
    printAlternateHex convBuf value = some (paddedHex value) := by
  have hnul := zero_not_mem_numeral (by decide : 2 ≤ 16) (by decide)
    value.toNat
  have hlength : (numeral lookup 16 value.toNat).length ≤ 8 :=
    numeral_length_le (by decide) (by decide)
      (Nat.lt_of_lt_of_le value.toNat_lt (by decide))
  have hdigits := holdsString_storeList convBuf 8
    (numeral lookup 16 value.toNat)
  have hstrlen := strlenFrom_eq hdigits hnul
    (by omega : (numeral lookup 16 value.toNat).length < 2 ^ 32)
  have hplace : (numeral lookup 16 value.toNat).length +
      (8 - (numeral lookup 16 value.toNat).length) = 8 := by omega
  have hpadded := @HoldsString.fill
    (convBuf.storeList 8 (numeral lookup 16 value.toNat ++ [0]))
    (numeral lookup 16 value.toNat).length (numeral lookup 16 value.toNat)
    (8 - (numeral lookup 16 value.toNat).length) 48
    (by rw [hplace]; exact hdigits)
  rw [printAlternateHex, itoa_eq (by decide) (by decide), Option.bind_some,
    hstrlen, Option.bind_some]
  apply puts_eq hpadded
  · intro hmem
    rcases List.mem_append.mp hmem with hzeros | htext
    · exact absurd (List.eq_of_mem_replicate hzeros) (by decide)
    · exact hnul htext
  · rw [List.length_append, List.length_replicate]
    omega

/-- A negative number is written behind a minus sign. -/
theorem printSigned_eq (convBuf : Memory UInt8) (value : UInt32) :
    printSigned convBuf value = some (signedText value) := by
  have hlt := value.toNat_lt
  have hsign : toInt32 value.toNat < 0 ↔ ¬ value.toNat < 2 ^ 31 := by
    rw [toInt32, Nat.mod_eq_of_lt hlt]
    split <;> omega
  rw [printSigned, signedText]
  by_cases hsmall : value.toNat < 2 ^ 31
  · rw [if_neg (mt hsign.mp (not_not.mpr hsmall)), if_pos hsmall]
    exact puts_numeral (by decide) (by decide) convBuf value
  · have hmagnitude : (-value).toNat = 2 ^ 32 - value.toNat := by
      have hsize : UInt32.size = 2 ^ 32 := rfl
      rw [UInt32.toNat_neg, hsize]
      omega
    have hcanonical := numeral_canonical (by decide : 2 ≤ 10) (by decide)
      (-value).toNat_lt
    rw [if_pos (hsign.mpr hsmall), if_neg hsmall,
      itoa_eq (by decide) (by decide), Option.bind_some, ← hmagnitude]
    apply puts_eq (holdsString_storeList convBuf 0
      (45 :: numeral lookup 10 (-value).toNat))
    · intro hmem
      rcases List.mem_cons.mp hmem with hminus | htext
      · exact absurd hminus (by decide)
      · exact zero_not_mem_numeral (by decide) (by decide) _ htext
    · exact Nat.succ_le_succ hcanonical.length_le

/-- Every conversion prints what it should, whatever the array on the stack
held before. -/
theorem convert_eq (args : Nat → UInt32) (convBuf : Memory UInt8)
    (ch : UInt8) (alternate : Bool) (arg : Nat) :
    convert mem args convBuf ch alternate arg =
      conversionText mem args ch alternate arg := by
  have hhex : printHex convBuf (args arg) =
      some (numeral lookup 16 (args arg).toNat) :=
    puts_numeral (by decide) (by decide) convBuf (args arg)
  have hunsigned : printUnsigned convBuf (args arg) =
      some (numeral lookup 10 (args arg).toNat) :=
    puts_numeral (by decide) (by decide) convBuf (args arg)
  rw [convert, conversionText, hhex, hunsigned, printSigned_eq,
    printAlternateHex_eq]
  cases alternate <;> rfl

/-- A piece of a format: a character that stands for itself, or `%`, a number
of `#` and a character. -/
inductive Directive where
  | literal (ch : UInt8) (hch : ch ≠ 0 ∧ ch ≠ 37)
  | conversion (hashes : Nat) (ch : UInt8) (hch : ch ≠ 0 ∧ ch ≠ 35)

def Directive.text : Directive → List UInt8
  | .literal ch _ => [ch]
  | .conversion hashes ch _ => 37 :: (List.replicate hashes 35 ++ [ch])

/-- What a format prints from argument number `arg` on. -/
def formatText (mem : Memory UInt8) (args : Nat → UInt32) :
    List Directive → Nat → Option (List UInt8)
  | [], _ => some []
  | .literal ch _ :: rest, arg => (formatText mem args rest arg).map (ch :: ·)
  | .conversion hashes ch _ :: rest, arg =>
      (conversionText mem args ch (0 < hashes) arg).bind fun (text, arg) =>
        (formatText mem args rest arg).map (text ++ ·)

theorem skipHashes_eq {fuel buf hashes : Nat} {ch : UInt8}
    {rest : List UInt8} (hch : ch ≠ 35)
    (hholds : HoldsString mem buf (List.replicate hashes 35 ++ ch :: rest))
    (hfuel : hashes < fuel) (alternate : Bool) :
    skipHashes mem fuel buf alternate =
      some (buf + hashes, alternate || decide (0 < hashes)) := by
  induction fuel generalizing buf hashes alternate with
  | zero => exact absurd hfuel (Nat.not_lt_zero _)
  | succ fuel ih =>
      rw [skipHashes]
      cases hashes with
      | zero =>
          have hhere := (holdsString_cons_iff.mp hholds).1
          rw [if_neg (hhere ▸ hch)]
          simp
      | succ hashes =>
          rw [List.replicate_succ, List.cons_append] at hholds
          obtain ⟨hhere, hholds⟩ := holdsString_cons_iff.mp hholds
          rw [if_pos hhere, ih hholds (Nat.lt_of_succ_lt_succ hfuel)]
          simp [Nat.add_assoc, Nat.add_comm 1]

/-- The turn of the loop that meets a conversion. -/
theorem printfFrom_conversion (args : Nat → UInt32)
    (convBuf : Nat → Memory UInt8) {fuel buf hashes : Nat} {ch : UInt8}
    {rest : List UInt8} (hch : ch ≠ 0 ∧ ch ≠ 35)
    (hholds : HoldsString mem buf
      ((Directive.conversion hashes ch hch).text ++ rest))
    (hhashes : hashes < 2 ^ 32) (arg : Nat) :
    printfFrom mem args convBuf (fuel + 1) buf arg =
      (conversionText mem args ch (0 < hashes) arg).bind fun (text, arg) =>
        (printfFrom mem args convBuf fuel
          (buf + (Directive.conversion hashes ch hch).text.length) arg).map
            fun (later, last) => (text ++ later, last) := by
  have hsplit : (Directive.conversion hashes ch hch).text ++ rest =
      37 :: (List.replicate hashes 35 ++ ch :: rest) := by
    simp [Directive.text]
  rw [hsplit] at hholds
  obtain ⟨hhere, htail⟩ := holdsString_cons_iff.mp hholds
  have hskip := skipHashes_eq hch.2 htail hhashes false
  have hchar := (holdsString_cons_iff.mp htail.drop).1
  rw [List.length_replicate] at hchar
  have hnext : buf + (Directive.conversion hashes ch hch).text.length =
      buf + 1 + hashes + 1 := by
    simp only [Directive.text, List.length_cons, List.length_append,
      List.length_replicate, List.length_nil]
    omega
  rw [printfFrom, hhere, if_neg (by decide), if_pos rfl, hskip,
    Option.bind_some]
  dsimp only
  rw [hchar, convert_eq, Bool.false_or, hnext]

/-- The loop goes over the format piece by piece. -/
theorem printfFrom_eq (args : Nat → UInt32) (convBuf : Nat → Memory UInt8)
    {fuel : Nat} (buf : Nat) (directives : List Directive) (arg : Nat)
    (hholds : HoldsString mem buf (directives.flatMap Directive.text))
    (hlength : (directives.flatMap Directive.text).length < 2 ^ 32)
    (hfuel : directives.length < fuel) :
    printfFrom mem args convBuf fuel buf arg =
      (formatText mem args directives arg).map
        (·, buf + (directives.flatMap Directive.text).length) := by
  induction directives generalizing fuel buf arg with
  | nil =>
      cases fuel with
      | zero => exact absurd hfuel (Nat.not_lt_zero _)
      | succ fuel =>
          rw [printfFrom, if_pos (holdsString_nil_iff.mp hholds)]
          rfl
  | cons directive rest ih =>
      cases fuel with
      | zero => exact absurd hfuel (Nat.not_lt_zero _)
      | succ fuel =>
          rw [List.flatMap_cons] at hholds hlength ⊢
          rw [List.length_append] at hlength ⊢
          have hrest := fun arg => @ih fuel (buf + directive.text.length) arg
            hholds.drop (by omega) (Nat.lt_of_succ_lt_succ hfuel)
          cases directive with
          | literal ch hch =>
              have hhere := (holdsString_cons_iff.mp hholds).1
              rw [printfFrom, hhere, if_neg hch.1, if_neg hch.2]
              change (printfFrom mem args convBuf fuel
                (buf + (Directive.literal ch hch).text.length) arg).map _ = _
              rw [hrest arg, formatText, Option.map_map, Option.map_map]
              simp [Function.comp_def, Nat.add_assoc]
          | conversion hashes ch hch =>
              have hhashes : hashes < 2 ^ 32 := by
                simp only [Directive.text, List.length_cons,
                  List.length_append, List.length_replicate] at hlength
                omega
              rw [printfFrom_conversion args convBuf hch hholds hhashes,
                formatText]
              cases conversionText mem args ch (decide (0 < hashes)) arg with
              | none => rfl
              | some printed =>
                  rw [Option.bind_some, Option.bind_some]
                  dsimp only
                  rw [hrest, Option.map_map, Option.map_map]
                  simp [Function.comp_def, Nat.add_assoc]

theorem directives_length_le (directives : List Directive) :
    directives.length ≤ (directives.flatMap Directive.text).length := by
  induction directives with
  | nil => exact Nat.le_refl 0
  | cons directive rest ih =>
      have hpos : 1 ≤ directive.text.length := by
        cases directive with
        | literal ch hch => exact Nat.le_refl 1
        | conversion hashes ch hch => exact Nat.succ_pos _
      rw [List.flatMap_cons, List.length_append, List.length_cons]
      omega

/-- `printf` prints what its format says, and returns the length of the
format. -/
theorem printf_eq (args : Nat → UInt32) (convBuf : Nat → Memory UInt8)
    {format : Nat} {directives : List Directive}
    (hholds : HoldsString mem format (directives.flatMap Directive.text))
    (hlength : (directives.flatMap Directive.text).length < 2 ^ 32) :
    printf mem args convBuf format =
      (formatText mem args directives 0).map
        (·, (directives.flatMap Directive.text).length) := by
  have hcount := directives_length_le directives
  rw [printf, printfFrom_eq args convBuf format directives 0 hholds hlength
    (by omega), Option.map_map]
  simp [Function.comp_def]

end Printing

/-- The sign and the magnitude of the number a word stands for. -/
theorem signedText_eq (value : UInt32) :
    signedText value = if toInt32 value.toNat < 0 then
      45 :: numeral lookup 10 (toInt32 value.toNat).natAbs
      else numeral lookup 10 (toInt32 value.toNat).natAbs := by
  have hlt := value.toNat_lt
  rw [signedText, toInt32, Nat.mod_eq_of_lt hlt]
  split
  · rw [if_neg (by omega), Int.natAbs_natCast]
  · have hmagnitude : ((value.toNat : Int) - 2 ^ 32).natAbs =
        2 ^ 32 - value.toNat := by omega
    rw [if_pos (by omega), hmagnitude]

/-- Exactly eight hexadecimal digits that read as the number. -/
theorem paddedHex_eq (value : UInt32) :
    (paddedHex value).length = 8 ∧
      (∀ ch ∈ paddedHex value, ∃ d < 16, ch = lookup d) ∧
      evaluate digitValue 16 (paddedHex value) = value.toNat := by
  have hcanonical := numeral_canonical (by decide : 2 ≤ 16) (by decide)
    value.toNat_lt
  have hlength : (numeral lookup 16 value.toNat).length ≤ 8 :=
    numeral_length_le (by decide) (by decide)
      (Nat.lt_of_lt_of_le value.toNat_lt (by decide))
  refine ⟨?_, ?_, ?_⟩
  · rw [paddedHex, List.length_append, List.length_replicate]
    omega
  · intro ch hmem
    rcases List.mem_append.mp hmem with hzero | hdigit
    · exact ⟨0, by decide, List.eq_of_mem_replicate hzero⟩
    · exact hcanonical.digits ch hdigit
  · have hzeros := @evaluate_zeros UInt8 lookup digitValue 16 rfl
      (8 - (numeral lookup 16 value.toNat).length)
      (numeral lookup 16 value.toNat)
    exact hzeros.trans hcanonical.value

/-- Numbers are written in their canonical form: by both `itoa` in every radix,
and by `printf` wherever in its format the conversion stands. -/
theorem numbers_written_canonically {mem : Memory UInt8} {radix format : Nat}
    {directives : List Directive} (hradix : 2 ≤ radix) (hmax : radix ≤ 36)
    (hformat : HoldsString mem format (directives.flatMap Directive.text))
    (hlength : (directives.flatMap Directive.text).length < 2 ^ 32)
    (value : UInt32) (buf : Nat) (args : Nat → UInt32)
    (convBuf : Nat → Memory UInt8) :
    (itoa mem value buf radix =
        some (mem.storeList buf (numeral lookup radix value.toNat ++ [0])) ∧
      ece391Itoa mem value buf radix = itoa mem value buf radix ∧
      CanonicalText radix value.toNat (numeral lookup radix value.toNat)) ∧
    printf mem args convBuf format = (formatText mem args directives 0).map
      (·, (directives.flatMap Directive.text).length) ∧
    ∀ (alternate : Bool) (arg : Nat),
      conversionText mem args 117 alternate arg =
        some (numeral lookup 10 (args arg).toNat, arg + 1) ∧
      conversionText mem args 120 false arg =
        some (numeral lookup 16 (args arg).toNat, arg + 1) ∧
      conversionText mem args 100 alternate arg =
        some (if toInt32 (args arg).toNat < 0 then
          45 :: numeral lookup 10 (toInt32 (args arg).toNat).natAbs
          else numeral lookup 10 (toInt32 (args arg).toNat).natAbs,
            arg + 1) ∧
      ∃ text, conversionText mem args 120 true arg = some (text, arg + 1) ∧
        text.length = 8 ∧ (∀ ch ∈ text, ∃ d < 16, ch = lookup d) ∧
        evaluate digitValue 16 text = (args arg).toNat := by
  have hkernel := itoa_eq hradix hmax mem value buf
  have huser := ece391Itoa_eq hradix hmax mem value buf
  refine ⟨⟨hkernel, huser.trans hkernel.symm,
    numeral_canonical hradix hmax value.toNat_lt⟩,
    printf_eq args convBuf hformat hlength, ?_⟩
  intro alternate arg
  refine ⟨rfl, rfl, ?_, paddedHex (args arg), rfl, paddedHex_eq (args arg)⟩
  rw [← signedText_eq]
  rfl

/-- The format `"=%d"`. -/
def signedFormat : List Directive :=
  [.literal 61 (by decide), .conversion 0 100 (by decide)]

/-- The smallest number after an equals sign. -/
theorem smallest_number_written :
    printf (cString [61, 37, 100]) (fun _ => 0x80000000) (fun _ _ => 7) 0 =
        some ([61, 45, 50, 49, 52, 55, 52, 56, 51, 54, 52, 56], 3) ∧
      CanonicalText 36 (2 ^ 32 - 1) (numeral lookup 36 (2 ^ 32 - 1)) := by
  obtain ⟨⟨-, -, hcanonical⟩, hprintf, -⟩ := @numbers_written_canonically
    (cString [61, 37, 100]) 36 0 signedFormat (by decide) (by decide) rfl
    (by decide) 0xFFFFFFFF 0 (fun _ => 0x80000000) (fun _ _ => 7)
  refine ⟨hprintf.trans ?_, hcanonical⟩
  have hnumeral : numeral lookup 10 2147483648 =
      [50, 49, 52, 55, 52, 56, 51, 54, 52, 56] := by
    simp [numeral]
    decide
  have htext : signedText 0x80000000 = 45 :: numeral lookup 10 2147483648 :=
    rfl
  simp [formatText, conversionText, signedFormat, htext, hnumeral,
    Directive.text]

end PsychOS
