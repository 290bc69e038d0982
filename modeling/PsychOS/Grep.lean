/-
`do_one_file` of the user program `grep`: a file is read through one buffer,
whose complete lines are searched in place and whose last, unfinished line is
moved to the front before the next read.  The calls that reach the kernel are
parameters.
-/
import PsychOS.Lib.Strings
import Mathlib.Data.List.Infix

namespace PsychOS

/-- `BUFSIZE`; the buffer has one byte more. -/
def grepBufSize : Nat := 1024

def newline : UInt8 := 10

/-- A plain `char` is signed. -/
def signedChar (byte : UInt8) : Int :=
  if byte < 0x80 then byte.toNat else (byte.toNat : Int) - 256

/-- `ece391_strncmp` of the string at `p` with the one at `q`. -/
def ece391Strncmp (s1 s2 : Memory UInt8) : Nat → Nat → Nat → Int
  | 0, _, _ => 0
  | n + 1, p, q =>
      if s1 p = s2 q then
        if s1 p = 0 ∨ n = 0 then 0 else ece391Strncmp s1 s2 n (p + 1) (q + 1)
      else ((s1 p).toNat : Int) - (s2 q).toNat

/-- `ece391_strcpy` within one array, for at most `fuel` bytes. -/
def ece391Strcpy : Nat → Memory UInt8 → Nat → Nat → Option (Memory UInt8)
  | 0, _, _, _ => none
  | fuel + 1, mem, dst, src =>
      let value := mem src
      let mem := mem.store dst value
      if value ≠ 0 then ece391Strcpy fuel mem (dst + 1) (src + 1)
      else some mem

/-- What `ece391_fdputs` adds to the output. -/
def ece391Fdputs (fuel : Nat) (output : List UInt8) (str : Memory UInt8)
    (addr : Nat) : Option (List UInt8) :=
  (strlenFrom str addr fuel).map fun len => output ++ str.load addr len

/-- The bytes of a literal. -/
def literal (text : String) : List UInt8 :=
  text.toList.map fun ch => UInt8.ofNat ch.toNat

/-- The calls that `do_one_file` makes, on files in a state of type `σ`.  An
answer of -1 is `none`, and `false` for `close`. -/
structure FileCalls (σ : Type) where
  openFile : Memory UInt8 → σ → Option Int × σ
  read : Int → Nat → σ → Option (List UInt8) × σ
  close : Int → σ → Bool × σ

/-- The buffer, how much of it is in use, and what has been printed. -/
structure GrepState (σ : Type) where
  files : σ
  data : Memory UInt8
  last : Nat
  output : List UInt8

section DoOneFile

/-- `while (line_end < last && '\n' != data[line_end])`, with `left` bytes
before `last`. -/
def lineEndFrom (data : Memory UInt8) : Nat → Nat → Nat
  | 0, lineEnd => lineEnd
  | left + 1, lineEnd =>
      if data lineEnd ≠ newline then lineEndFrom data left (lineEnd + 1)
      else lineEnd

/-- The test of the `for` loop over `check`, with `left` positions before
`line_end`. -/
def matchesFrom (s : Memory UInt8) (sLen : Nat) (data : Memory UInt8) :
    Nat → Nat → Bool
  | 0, _ => false
  | left + 1, check =>
      if signedChar (s 0) = (data check).toNat ∧
          ece391Strncmp data s sLen check 0 = 0 then true
      else matchesFrom s sLen data left (check + 1)

variable {σ : Type} (fuel : Nat) (s fname : Memory UInt8) (sLen : Nat)

/-- Search the line between `lineStart` and `lineEnd`; a match prints it. -/
def searchLine (data : Memory UInt8) (lineStart lineEnd : Nat)
    (output : List UInt8) : Option (List UInt8) :=
  if matchesFrom s sLen data (lineEnd - lineStart) lineStart then do
    let output ← ece391Fdputs fuel output fname 0
    let output := output ++ literal ":"
    let output ← ece391Fdputs fuel output data lineStart
    some (output ++ literal "\n")
  else some output

/-- The inner loop, for the `cnt` bytes of the last read. -/
def searchLines (cnt : Nat) :
    Nat → Nat → GrepState σ → Option (GrepState σ)
  | 0, _, _ => none
  | turns + 1, lineStart, st =>
      let lineEnd := lineEndFrom st.data (st.last - lineStart) lineStart
      if st.data lineEnd ≠ newline ∧ 0 ≠ cnt ∧ lineStart ≠ 0 then do
        let data := st.data.store lineEnd 0
        let data ← ece391Strcpy fuel data 0 lineStart
        some { st with data := data, last := st.last - lineStart }
      else do
        let data := st.data.store lineEnd 0
        let output ←
          searchLine fuel s fname sLen data lineStart lineEnd st.output
        let st := { st with data := data, output := output }
        let lineStart := lineEnd + 1
        if st.last ≤ lineStart then some { st with last := 0 }
        else searchLines cnt turns lineStart st

/-- The outer loop; `false` if a read failed. -/
def readLoop (calls : FileCalls σ) (fd : Int) :
    Nat → GrepState σ → Option (Bool × GrepState σ)
  | 0, _ => none
  | turns + 1, st =>
      match calls.read fd (grepBufSize - st.last) st.files with
      | (none, files) =>
          some (false, { st with
            files := files
            output := st.output ++ literal "file read failed\n" })
      | (some bytes, files) => do
          let cnt := bytes.length
          let st ← searchLines fuel s fname sLen cnt fuel 0
            { st with
              files := files
              data := st.data.storeList st.last bytes
              last := st.last + cnt }
          if 0 = cnt then some (true, st)
          else readLoop calls fd turns st

/-- `do_one_file`, with whatever the buffer holds at first. -/
def doOneFile (calls : FileCalls σ) (files : σ) (data : Memory UInt8) :
    Option (Int × GrepState σ) := do
  let sLen ← strlenFrom s 0 fuel
  match calls.openFile fname files with
  | (none, files) => some (-1, ⟨files, data, 0, literal "file open failed\n"⟩)
  | (some fd, files) =>
      let (ended, st) ←
        readLoop fuel s fname sLen calls fd fuel ⟨files, data, 0, []⟩
      if !ended then some (-1, st)
      else
        match calls.close fd st.files with
        | (false, files) =>
            some (-1, { st with
              files := files
              output := st.output ++ literal "file close failed\n" })
        | (true, files) => some (0, { st with files := files })

end DoOneFile

section Strings

variable {mem other : Memory UInt8} {text search : List UInt8}

/-- Comparing a search string with what follows in a line tells whether it
begins there. -/
theorem ece391Strncmp_eq_zero_iff {p q : Nat} (htext : HoldsString mem p text)
    (hsearch : HoldsString other q search) (hnul : 0 ∉ search) :
    ece391Strncmp mem other search.length p q = 0 ↔ search <+: text := by
  induction search generalizing p q text with
  | nil => simp [ece391Strncmp]
  | cons byte rest ih =>
      obtain ⟨hbyte, hrest⟩ := holdsString_cons_iff.mp hsearch
      obtain ⟨hzero, hnul'⟩ := not_or.mp (mt List.mem_cons.mpr hnul)
      have hdiff {char : UInt8} (hne : char ≠ byte) :
          (char.toNat : Int) - byte.toNat ≠ 0 := by
        intro hnat
        exact hne (UInt8.toNat_inj.mp (by omega))
      rw [List.length_cons, ece391Strncmp, hbyte]
      cases text with
      | nil =>
          rw [holdsString_nil_iff.mp htext, if_neg hzero, List.prefix_nil]
          exact iff_of_false (hdiff hzero) (List.cons_ne_nil byte rest)
      | cons char line =>
          obtain ⟨hchar, hline⟩ := holdsString_cons_iff.mp htext
          rw [hchar, List.cons_prefix_cons, ← ih hline hrest hnul']
          by_cases hsame : char = byte
          · rw [if_pos hsame]
            cases rest with
            | nil => simp [ece391Strncmp, hsame]
            | cons next rest =>
                have hmore : ¬ (char = 0 ∨ (next :: rest).length = 0) := by
                  rw [hsame]
                  simpa using Ne.symm hzero
                rw [if_neg hmore]
                simp [hsame]
          · rw [if_neg hsame]
            exact iff_of_false (hdiff hsame) fun hboth =>
              hsame hboth.1.symm

/-- Moving a string down is an ascending copy of it and its terminator. -/
theorem ece391Strcpy_eq {fuel dst src : Nat} (hholds : HoldsString mem src text)
    (hnul : 0 ∉ text) (hdown : dst < src) (hfuel : text.length < fuel) :
    ece391Strcpy fuel mem dst src =
      some (mem.copyUp dst src (text.length + 1)) := by
  induction fuel generalizing mem dst src text with
  | zero => exact absurd hfuel (Nat.not_lt_zero _)
  | succ fuel ih =>
      rw [ece391Strcpy, Memory.copyUp]
      cases text with
      | nil =>
          rw [holdsString_nil_iff.mp hholds]
          rfl
      | cons byte rest =>
          obtain ⟨hhead, hholds⟩ := holdsString_cons_iff.mp hholds
          obtain ⟨hbyte, hnul⟩ := not_or.mp (mt List.mem_cons.mpr hnul)
          have hrest : HoldsString (mem.store dst byte) (src + 1) rest := by
            apply hholds.congr
            intro i _
            exact Memory.store_of_ne _ _ (by omega)
          rw [hhead, List.length_cons, if_pos (Ne.symm hbyte),
            ih hrest hnul (by omega) (Nat.lt_of_succ_lt_succ hfuel)]

theorem lineEndFrom_eq (mem : Memory UInt8) (left start : Nat) :
    lineEndFrom mem left start =
      start + ((mem.load start left).takeWhile (· ≠ newline)).length := by
  induction left generalizing start with
  | zero => rfl
  | succ left ih =>
      rw [lineEndFrom, mem.load_succ]
      by_cases hend : mem start = newline
      · rw [if_neg (not_not.mpr hend), hend]
        rfl
      · rw [if_pos hend, ih, List.takeWhile_cons_of_pos (by simpa using hend),
          List.length_cons]
        omega

theorem signedChar_eq_toNat_iff {char byte : UInt8} :
    signedChar char = byte.toNat ↔ char < 0x80 ∧ char = byte := by
  have hlt := char.toNat_lt
  rw [signedChar]
  split
  · next hlow =>
      rw [Int.ofNat_inj, UInt8.toNat_inj]
      exact (and_iff_right hlow).symm
  · next hhigh =>
      constructor
      · intro hsame
        omega
      · intro hboth
        exact absurd hboth.1 hhigh

end Strings

section Lines

/-- The lines of a text.  Behind a final newline there is one more, which is
empty and so is not searched for anything. -/
def textLines (text : List UInt8) : List (List UInt8) := text.splitOn newline

/-- What is printed for a line. -/
def printedLine (name line : List UInt8) : List UInt8 :=
  name ++ literal ":" ++ line ++ literal "\n"

/-- What is printed for the lines of a text that `p` selects. -/
def printedLines (p : List UInt8 → Bool) (name text : List UInt8) :
    List UInt8 :=
  ((textLines text).filter p).flatMap (printedLine name)

/-- No line is longer than the buffer. -/
def LinesFit (text : List UInt8) : Prop :=
  ∀ line ∈ textLines text, line.length ≤ grepBufSize

instance : DecidablePred LinesFit := fun text =>
  inferInstanceAs (Decidable (∀ line ∈ textLines text, _))

/-- The end of the file or a newline comes next. -/
def EndsLine (rest : List UInt8) : Prop :=
  rest = [] ∨ ∃ more, rest = newline :: more

variable {p : List UInt8 → Bool} {name line rest : List UInt8}

theorem textLines_line (hline : newline ∉ line) (rest : List UInt8) :
    textLines (line ++ newline :: rest) = line :: textLines rest := by
  apply List.splitOnP_append_cons_of_forall_mem
  · intro byte hbyte
    apply beq_false_of_ne
    rintro rfl
    exact hline hbyte
  · exact beq_self_eq_true newline

theorem textLines_of_not_mem (hline : newline ∉ line) :
    textLines line = [line] :=
  List.splitOn_eq_singleton hline

theorem printedLines_line (hline : newline ∉ line) (rest : List UInt8) :
    printedLines p name (line ++ newline :: rest) =
      printedLines p name line ++ printedLines p name rest := by
  rw [printedLines, textLines_line hline, printedLines,
    textLines_of_not_mem hline, printedLines, ← List.flatMap_append,
    ← List.filter_append]
  rfl

theorem printedLines_of_not_mem (hline : newline ∉ line) :
    printedLines p name line =
      if p line then printedLine name line else [] := by
  rw [printedLines, textLines_of_not_mem hline, List.filter_singleton]
  cases p line with
  | true => exact List.append_nil _
  | false => rfl

theorem linesFit_line (hline : newline ∉ line) :
    LinesFit (line ++ newline :: rest) ↔
      line.length ≤ grepBufSize ∧ LinesFit rest := by
  rw [LinesFit, textLines_line hline, List.forall_mem_cons]
  rfl

theorem linesFit_of_not_mem (hline : newline ∉ line) :
    LinesFit line ↔ line.length ≤ grepBufSize := by
  rw [LinesFit, textLines_of_not_mem hline, List.forall_mem_singleton]

end Lines

/-- The arguments of `do_one_file` are strings, the first not empty. -/
structure GrepArguments (s fname : Memory UInt8) (search name : List UInt8) :
    Prop where
  search_holds : HoldsString s 0 search
  search_nul : 0 ∉ search
  search_ne_nil : search ≠ []
  name_holds : HoldsString fname 0 name
  name_nul : 0 ∉ name

/-- The lines that `do_one_file` finds.  A first character that is negative as
a `char` differs from every byte of the buffer. -/
def found (search line : List UInt8) : Bool :=
  decide (search.headD 0 < 0x80 ∧ search <:+: line)

section Search

variable {s fname data : Memory UInt8} {search name line : List UInt8}
  {fuel start : Nat}

theorem matchesFrom_eq (hargs : GrepArguments s fname search name)
    (hline : HoldsString data start line) :
    matchesFrom s search.length data line.length start =
      found search line := by
  have hfirst : s 0 = search.headD 0 := by
    cases hsearch : search with
    | nil => exact absurd hsearch hargs.search_ne_nil
    | cons first rest =>
        have hholds := hargs.search_holds
        rw [hsearch] at hholds
        exact (holdsString_cons_iff.mp hholds).1
  induction line generalizing start with
  | nil => simp [matchesFrom, found, hargs.search_ne_nil]
  | cons byte rest ih =>
      obtain ⟨hbyte, hrest⟩ := holdsString_cons_iff.mp hline
      -- A string that begins here begins with the byte that is here.
      have hhead : search <+: byte :: rest → search.headD 0 = byte := by
        intro hbegins
        cases hsearch : search with
        | nil => exact absurd hsearch hargs.search_ne_nil
        | cons first more =>
            rw [hsearch, List.cons_prefix_cons] at hbegins
            exact hbegins.1
      have htest : (signedChar (s 0) = (data start).toNat ∧
          ece391Strncmp data s search.length start 0 = 0) ↔
          search.headD 0 < 0x80 ∧ search <+: byte :: rest := by
        rw [ece391Strncmp_eq_zero_iff hline hargs.search_holds
          hargs.search_nul, signedChar_eq_toNat_iff, hfirst, hbyte, and_assoc]
        apply and_congr_right
        intro _
        exact and_iff_right_of_imp hhead
      rw [List.length_cons, matchesFrom, ih hrest, found, found]
      simp only [htest, List.infix_cons_iff]
      split
      · next hhere => exact (decide_eq_true ⟨hhere.1, Or.inl hhere.2⟩).symm
      · next hnot =>
          apply decide_eq_decide.mpr
          apply and_congr_right
          intro hlow
          rw [or_iff_right fun hhere => hnot ⟨hlow, hhere⟩]

theorem ece391Fdputs_eq {str : Memory UInt8} {addr : Nat}
    {bytes : List UInt8} (hholds : HoldsString str addr bytes)
    (hnul : 0 ∉ bytes) (hfuel : bytes.length < fuel) (output : List UInt8) :
    ece391Fdputs fuel output str addr = some (output ++ bytes) := by
  rw [ece391Fdputs, strlenFrom_eq hholds hnul hfuel, Option.map_some,
    hholds.load_eq]

theorem searchLine_eq (hargs : GrepArguments s fname search name)
    (hline : HoldsString data start line) (hnul : 0 ∉ line)
    (hnewline : newline ∉ line) (hname : name.length < fuel)
    (hfuel : line.length < fuel) (output : List UInt8) :
    searchLine fuel s fname search.length data start (start + line.length)
        output =
      some (output ++ printedLines (found search) name line) := by
  rw [searchLine, Nat.add_sub_cancel_left, matchesFrom_eq hargs hline,
    printedLines_of_not_mem hnewline,
    ece391Fdputs_eq hargs.name_holds hargs.name_nul hname]
  simp only [Option.bind_eq_bind, Option.bind_some,
    ece391Fdputs_eq hline hnul hfuel]
  split
  · rw [printedLine]
    simp only [List.append_assoc]
  · rw [List.append_nil]

end Search

/-- From `lineStart` on the buffer holds `text`, which is still to be
searched. -/
structure GrepBuffer {σ : Type} (st : GrepState σ) (lineStart : Nat)
    (text : List UInt8) : Prop where
  start_le : lineStart ≤ st.last
  last_le : st.last ≤ grepBufSize
  text_eq : st.data.load lineStart (st.last - lineStart) = text
  beyond : st.data grepBufSize ≠ newline
  nul : 0 ∉ text

section Loops

variable {σ : Type} {s fname : Memory UInt8} {search name line rest text :
  List UInt8} {fuel cnt turns lineStart : Nat} {st : GrepState σ}

theorem GrepBuffer.length_eq (hbuffer : GrepBuffer st lineStart text) :
    text.length = st.last - lineStart := by
  rw [← hbuffer.text_eq, Memory.load_length]

theorem GrepBuffer.load_line
    (hbuffer : GrepBuffer st lineStart (line ++ newline :: rest)) :
    st.data.load lineStart line.length = line ∧
      st.data (lineStart + line.length) = newline ∧
      st.data.load (lineStart + line.length + 1) rest.length = rest := by
  have htext := hbuffer.text_eq
  rw [← hbuffer.length_eq, List.length_append] at htext
  obtain ⟨hline, hmore⟩ := Memory.load_append_inj htext
  rw [List.length_cons, Memory.load_succ, List.cons.injEq] at hmore
  exact ⟨hline, hmore⟩

/-- The state in which a complete line has been searched. -/
def GrepState.afterLine (st : GrepState σ) (lineStart : Nat)
    (search name line : List UInt8) : GrepState σ :=
  { st with
    data := st.data.store (lineStart + line.length) 0
    output := st.output ++ printedLines (found search) name line }

/-- A turn of the inner loop that searches a line. -/
theorem searchLines_line (hargs : GrepArguments s fname search name)
    (hload : st.data.load lineStart line.length = line) (hnul : 0 ∉ line)
    (hnewline : newline ∉ line) (hname : name.length < fuel)
    (hfuel : line.length < fuel)
    (hend : lineEndFrom st.data (st.last - lineStart) lineStart =
      lineStart + line.length)
    (hcomplete : ¬ (st.data (lineStart + line.length) ≠ newline ∧ 0 ≠ cnt ∧
      lineStart ≠ 0)) :
    searchLines fuel s fname search.length cnt (turns + 1) lineStart st =
      if st.last ≤ lineStart + line.length + 1 then
        some { st.afterLine lineStart search name line with last := 0 }
      else
        searchLines fuel s fname search.length cnt turns
          (lineStart + line.length + 1)
          (st.afterLine lineStart search name line) := by
  have hholds := holdsString_store hload
  rw [searchLines]
  simp only [hend]
  rw [if_neg hcomplete, searchLine_eq hargs hholds hnul hnewline hname hfuel]
  rfl

theorem takeWhile_line (hnewline : newline ∉ line) (rest : List UInt8) :
    (line ++ rest).takeWhile (· ≠ newline) =
      line ++ rest.takeWhile (· ≠ newline) := by
  apply List.takeWhile_append_of_pos
  intro byte hbyte
  apply decide_eq_true
  rintro rfl
  exact hnewline hbyte

theorem GrepBuffer.lineEnd_eq (hbuffer : GrepBuffer st lineStart text)
    (hnewline : newline ∉ text) :
    lineEndFrom st.data (st.last - lineStart) lineStart =
      lineStart + text.length := by
  have htake := takeWhile_line hnewline []
  rw [List.append_nil, List.takeWhile_nil, List.append_nil] at htake
  rw [lineEndFrom_eq, hbuffer.text_eq, htake]

theorem GrepBuffer.lineEnd_line
    (hbuffer : GrepBuffer st lineStart (line ++ newline :: rest))
    (hnewline : newline ∉ line) :
    lineEndFrom st.data (st.last - lineStart) lineStart =
      lineStart + line.length := by
  rw [lineEndFrom_eq, hbuffer.text_eq, takeWhile_line hnewline,
    List.takeWhile_cons_of_neg (by simp), List.append_nil]

/-- A terminator is the only byte ever stored past the buffer's end. -/
theorem store_zero_beyond (hbeyond : st.data grepBufSize ≠ newline)
    (addr : Nat) : st.data.store addr 0 grepBufSize ≠ newline := by
  rw [Memory.store]
  split
  · decide
  · exact hbeyond

/-- The state in which an unfinished line has been moved to the front. -/
def GrepState.afterMove (st : GrepState σ) (lineStart : Nat)
    (text : List UInt8) : GrepState σ :=
  { st with
    data := (st.data.store (lineStart + text.length) 0).copyUp 0 lineStart
      (text.length + 1)
    last := st.last - lineStart }

theorem GrepBuffer.holds (hbuffer : GrepBuffer st lineStart text) :
    HoldsString (st.data.store (lineStart + text.length) 0) lineStart
      text := by
  apply holdsString_store
  rw [hbuffer.length_eq, hbuffer.text_eq]

/-- A turn of the inner loop that keeps an unfinished line. -/
theorem searchLines_unfinished (hbuffer : GrepBuffer st lineStart text)
    (hnewline : newline ∉ text) (hfuel : text.length < fuel)
    (hunfinished : st.data (lineStart + text.length) ≠ newline ∧ 0 ≠ cnt ∧
      lineStart ≠ 0) :
    searchLines fuel s fname search.length cnt (turns + 1) lineStart st =
      some (st.afterMove lineStart text) := by
  have hcopy := ece391Strcpy_eq hbuffer.holds hbuffer.nul
    (Nat.pos_of_ne_zero hunfinished.2.2) hfuel
  rw [searchLines]
  simp only [hbuffer.lineEnd_eq hnewline]
  rw [if_pos hunfinished, hcopy]
  rfl

theorem GrepBuffer.afterMove (hbuffer : GrepBuffer st lineStart text)
    (hstart : lineStart ≠ 0) :
    GrepBuffer (st.afterMove lineStart text) 0 text := by
  have hlength := hbuffer.length_eq
  have hcell := @Memory.copyUp_apply _
    (st.data.store (lineStart + text.length) 0) 0 lineStart (text.length + 1)
    (Or.inl (Nat.zero_le lineStart))
  have hlast := hbuffer.last_le
  have hle := hbuffer.start_le
  constructor
  · exact Nat.zero_le _
  · exact Nat.le_trans (Nat.sub_le _ _) hlast
  · change Memory.load _ 0 (st.last - lineStart) = text
    rw [← hlength]
    refine Eq.trans (Memory.load_congr ?_) hbuffer.holds.load_eq
    intro i hi
    change Memory.copyUp _ _ _ _ (0 + i) = _
    rw [hcell, if_pos (by omega), Nat.zero_add, Nat.sub_zero]
  · change Memory.copyUp _ _ _ _ grepBufSize ≠ newline
    rw [hcell, if_neg (by omega)]
    exact store_zero_beyond hbuffer.beyond _
  · exact hbuffer.nul

theorem GrepBuffer.afterLine
    (hbuffer : GrepBuffer st lineStart (line ++ newline :: rest)) :
    GrepBuffer (st.afterLine lineStart search name line)
      (lineStart + line.length + 1) rest := by
  have hlength := hbuffer.length_eq
  have hlast := hbuffer.last_le
  have hle := hbuffer.start_le
  rw [List.length_append, List.length_cons] at hlength
  constructor
  · change lineStart + line.length + 1 ≤ st.last
    omega
  · exact hlast
  · have hrest : st.last - (lineStart + line.length + 1) = rest.length := by
      omega
    change Memory.load _ _ (st.last - _) = rest
    rw [hrest]
    refine Eq.trans (Memory.load_congr ?_) hbuffer.load_line.2.2
    intro i _
    exact Memory.store_of_ne _ _ (by omega)
  · exact store_zero_beyond hbuffer.beyond _
  · intro hzero
    exact hbuffer.nul (by simp [hzero])

/-- A line that fills the buffer is complete. -/
theorem LinesFit.after_full (hfits : LinesFit (text ++ rest))
    (hnewline : newline ∉ text) (hfull : text.length = grepBufSize) :
    EndsLine rest := by
  by_cases hmem : newline ∈ rest
  · obtain ⟨first, more, rfl, hfirst⟩ := List.eq_append_cons_of_mem hmem
    have hline : newline ∉ text ++ first := by
      rw [List.mem_append]
      exact not_or.mpr ⟨hnewline, hfirst⟩
    rw [← List.append_assoc, linesFit_line hline, List.length_append] at hfits
    have hempty : first = [] := List.eq_nil_of_length_eq_zero (by omega)
    exact Or.inr ⟨more, by rw [hempty, List.nil_append]⟩
  · have hline : newline ∉ text ++ rest := by
      rw [List.mem_append]
      exact not_or.mpr ⟨hnewline, hmem⟩
    rw [linesFit_of_not_mem hline, List.length_append] at hfits
    exact Or.inl (List.eq_nil_of_length_eq_zero (by omega))

theorem printedLines_nil (hargs : GrepArguments s fname search name) :
    printedLines (found search) name [] = [] := by
  rw [printedLines_of_not_mem List.not_mem_nil, if_neg]
  simp [found, hargs.search_ne_nil]

/-- A complete line can be searched apart from what follows: a newline then
ends an empty line, in which nothing is found. -/
theorem printedLines_append (hargs : GrepArguments s fname search name)
    (hnewline : newline ∉ text) (hrest : EndsLine rest) :
    printedLines (found search) name (text ++ rest) =
      printedLines (found search) name text ++
        printedLines (found search) name rest := by
  rcases hrest with rfl | ⟨more, rfl⟩
  · rw [List.append_nil, printedLines_nil hargs, List.append_nil]
  · have hempty := @printedLines_line (found search) name []
      List.not_mem_nil more
    rw [List.nil_append, printedLines_nil hargs, List.nil_append] at hempty
    rw [printedLines_line hnewline, hempty]

theorem LinesFit.of_append (hfits : LinesFit (text ++ rest))
    (hnewline : newline ∉ text) (hrest : EndsLine rest) :
    LinesFit rest := by
  rcases hrest with rfl | ⟨more, rfl⟩
  · exact (linesFit_of_not_mem List.not_mem_nil).mpr (Nat.zero_le _)
  · have hmore := ((linesFit_line hnewline).mp hfits).2
    exact (@linesFit_line [] more List.not_mem_nil).mpr
      ⟨Nat.zero_le _, hmore⟩

/-- What the inner loop leaves: an unfinished line at the front of the buffer,
none after the last read, and the rest of the output still to come. -/
structure LeavesUnfinished (search name : List UInt8) (cnt : Nat)
    (output text rest : List UInt8) (st : GrepState σ)
    (unfinished : List UInt8) : Prop where
  buffer : GrepBuffer st 0 unfinished
  short : st.last < grepBufSize
  at_end : cnt = 0 → unfinished = []
  fits : LinesFit (unfinished ++ rest)
  output_eq :
    st.output ++ printedLines (found search) name (unfinished ++ rest) =
      output ++ printedLines (found search) name (text ++ rest)

/-- A line searched and nothing left in the buffer. -/
theorem LeavesUnfinished.of_line {output : List UInt8} {st : GrepState σ}
    (hlast : st.last = 0) (hbeyond : st.data grepBufSize ≠ newline)
    (hfits : LinesFit rest)
    (houtput : st.output ++ printedLines (found search) name rest =
      output ++ printedLines (found search) name (text ++ rest)) :
    LeavesUnfinished search name cnt output text rest st [] where
  buffer :=
    { start_le := Nat.zero_le _
      last_le := hlast ▸ Nat.zero_le _
      text_eq := by
        rw [hlast]
        rfl
      beyond := hbeyond
      nul := List.not_mem_nil }
  short := hlast ▸ (by decide)
  at_end _ := rfl
  fits := hfits
  output_eq := houtput

/-- A line that is searched although the buffer ends with it does end
there. -/
theorem GrepBuffer.boundary (hbuffer : GrepBuffer st lineStart text)
    (hfits : LinesFit (text ++ rest)) (hnewline : newline ∉ text)
    (hfull : st.last < grepBufSize → rest = []) (hcnt : cnt = 0 → rest = [])
    (hcomplete : ¬ (st.data (lineStart + text.length) ≠ newline ∧ 0 ≠ cnt ∧
      lineStart ≠ 0)) :
    EndsLine rest := by
  have hlength := hbuffer.length_eq
  have hlast := hbuffer.last_le
  have hle := hbuffer.start_le
  by_cases hrest : rest = []
  · exact Or.inl hrest
  · have hbuf : st.last = grepBufSize :=
      Nat.le_antisymm hlast (Nat.le_of_not_lt (mt hfull hrest))
    have hend : lineStart + text.length = grepBufSize := by omega
    have hstart : lineStart = 0 := by
      by_contra hstart
      rw [hend] at hcomplete
      exact hcomplete
        ⟨hbuffer.beyond, fun hzero => hrest (hcnt hzero.symm), hstart⟩
    apply hfits.after_full hnewline
    omega

/-- The turn in which no newline is left ends the loop: the line is kept, or it
is complete and searched. -/
theorem searchLines_last (hargs : GrepArguments s fname search name)
    (hname : name.length < fuel) (hfuel : grepBufSize < fuel)
    (hbuffer : GrepBuffer st lineStart text) (hfits : LinesFit (text ++ rest))
    (hfull : st.last < grepBufSize → rest = []) (hcnt : cnt = 0 → rest = [])
    (hnewline : newline ∉ text) :
    ∃ after unfinished,
      searchLines fuel s fname search.length cnt (turns + 1) lineStart st =
        some after ∧
      after.files = st.files ∧
      LeavesUnfinished search name cnt st.output text rest after
        unfinished := by
  have hlength := hbuffer.length_eq
  have hlast := hbuffer.last_le
  have hle := hbuffer.start_le
  by_cases hunfinished : st.data (lineStart + text.length) ≠ newline ∧
      0 ≠ cnt ∧ lineStart ≠ 0
  · have hshort : st.last - lineStart < grepBufSize := by
      have hpos := Nat.pos_of_ne_zero hunfinished.2.2
      omega
    rw [searchLines_unfinished hbuffer hnewline (by omega) hunfinished]
    exact ⟨_, text, rfl, rfl,
      { buffer := hbuffer.afterMove hunfinished.2.2
        short := hshort
        at_end := fun hzero => absurd hzero.symm hunfinished.2.1
        fits := hfits
        output_eq := rfl }⟩
  · have hrest := hbuffer.boundary hfits hnewline hfull hcnt hunfinished
    have hload : st.data.load lineStart text.length = text := by
      rw [hlength, hbuffer.text_eq]
    rw [searchLines_line hargs hload hbuffer.nul hnewline hname (by omega)
      (hbuffer.lineEnd_eq hnewline) hunfinished, if_pos (by omega)]
    refine ⟨_, [], rfl, rfl, .of_line rfl
      (store_zero_beyond hbuffer.beyond _)
      (hfits.of_append hnewline hrest) ?_⟩
    rw [printedLines_append hargs hnewline hrest]
    exact List.append_assoc ..

/-- The inner loop, by induction on its turns: each takes a complete line off
the text until none is left. -/
theorem searchLines_spec (hargs : GrepArguments s fname search name)
    (hname : name.length < fuel) (hfuel : grepBufSize < fuel)
    (hbuffer : GrepBuffer st lineStart text) (hfits : LinesFit (text ++ rest))
    (hfull : st.last < grepBufSize → rest = []) (hcnt : cnt = 0 → rest = [])
    (hturns : text.length < turns) :
    ∃ after unfinished,
      searchLines fuel s fname search.length cnt turns lineStart st =
        some after ∧
      after.files = st.files ∧
      LeavesUnfinished search name cnt st.output text rest after
        unfinished := by
  induction turns generalizing st lineStart text with
  | zero => exact absurd hturns (Nat.not_lt_zero _)
  | succ turns ih =>
      by_cases hmem : newline ∈ text
      · obtain ⟨line, more, rfl, hline⟩ := List.eq_append_cons_of_mem hmem
        obtain ⟨hload, hend, -⟩ := hbuffer.load_line
        have hlength := hbuffer.length_eq
        have hlast := hbuffer.last_le
        have hnext := @GrepBuffer.afterLine σ search name _ _ _ _ hbuffer
        have hnul : 0 ∉ line := fun hzero =>
          hbuffer.nul (List.mem_append_left _ hzero)
        rw [List.length_append, List.length_cons] at hlength hturns
        rw [List.append_assoc, List.cons_append, linesFit_line hline] at hfits
        have houtput :
            (st.output ++ printedLines (found search) name line) ++
              printedLines (found search) name (more ++ rest) =
            st.output ++ printedLines (found search) name
              (line ++ newline :: more ++ rest) := by
          rw [List.append_assoc, List.append_assoc line, List.cons_append,
            printedLines_line hline]
        rw [searchLines_line hargs hload hnul hline hname (by omega)
          (hbuffer.lineEnd_line hline) fun hnot => hnot.1 hend]
        by_cases hdone : st.last ≤ lineStart + line.length + 1
        · obtain rfl : more = [] :=
            List.eq_nil_of_length_eq_zero (by omega)
          rw [if_pos hdone]
          exact ⟨_, [], rfl, rfl,
            .of_line rfl hnext.beyond hfits.2 houtput⟩
        · rw [if_neg hdone]
          obtain ⟨after, unfinished, hrun, hfiles, hleft⟩ :=
            ih hnext hfits.2 hfull (by omega)
          exact ⟨after, unfinished, hrun, hfiles,
            { hleft with output_eq := hleft.output_eq.trans houtput }⟩
      · exact searchLines_last hargs hname hfuel hbuffer hfits hfull hcnt hmem

/-- The calls answer as for a file with these contents: `unread` tells what a
descriptor has still to read, a read returns as much of it as is asked for, and
opening and closing succeed. -/
structure ServesFile (calls : FileCalls σ) (fname : Memory UInt8) (files : σ)
    (contents : List UInt8) (fd : Int) (unread : σ → List UInt8 → Prop) :
    Prop where
  opens : ∃ after, calls.openFile fname files = (some fd, after) ∧
    unread after contents
  reads : ∀ {files rest}, unread files rest → ∀ count, ∃ after,
    calls.read fd count files = (some (rest.take count), after) ∧
    unread after (rest.drop count)
  closes : ∀ {files rest}, unread files rest → (calls.close fd files).1 = true

variable {calls : FileCalls σ} {files : σ} {contents : List UInt8} {fd : Int}
  {unread : σ → List UInt8 → Prop}

/-- A read behind an unfinished line. -/
theorem GrepBuffer.afterRead (hbuffer : GrepBuffer st 0 text)
    (hnul : 0 ∉ text ++ rest) (after : σ) :
    GrepBuffer
      { st with
        files := after
        data := st.data.storeList st.last
          (rest.take (grepBufSize - st.last))
        last := st.last + (rest.take (grepBufSize - st.last)).length }
      0 (text ++ rest.take (grepBufSize - st.last)) := by
  have hlast := hbuffer.last_le
  have htext := hbuffer.text_eq
  have htake := List.length_take_le (grepBufSize - st.last) rest
  have hbytes : 0 ∉ text ++ rest.take (grepBufSize - st.last) := by
    intro hzero
    apply hnul
    rw [List.mem_append] at hzero ⊢
    exact hzero.imp_right List.mem_of_mem_take
  generalize rest.take (grepBufSize - st.last) = bytes at htake hbytes ⊢
  constructor
  · exact Nat.zero_le _
  · change st.last + bytes.length ≤ grepBufSize
    omega
  · change (st.data.storeList st.last bytes).load 0
      (st.last + bytes.length) = text ++ bytes
    have hkept : (st.data.storeList st.last bytes).load 0 st.last =
        st.data.load 0 st.last := by
      apply Memory.load_congr
      intro i hi
      exact Memory.storeList_of_outside _ (Or.inl (by omega))
    rw [Memory.load_add, hkept, Nat.zero_add, Memory.load_storeList]
    exact congrArg (· ++ bytes) htext
  · change st.data.storeList st.last bytes grepBufSize ≠ newline
    rw [Memory.storeList_of_outside _ (Or.inr (by omega))]
    exact hbuffer.beyond
  · exact hbytes

/-- One read and the search of what is then in the buffer. -/
theorem searchLines_afterRead (hargs : GrepArguments s fname search name)
    (hname : name.length < fuel) (hfuel : grepBufSize < fuel)
    (hbuffer : GrepBuffer st 0 text) (hshort : st.last < grepBufSize)
    (hnul : 0 ∉ text ++ rest) (hfits : LinesFit (text ++ rest))
    (next : σ) {bytes : List UInt8}
    (hbytes : rest.take (grepBufSize - st.last) = bytes) :
    ∃ after unfinished,
      searchLines fuel s fname search.length bytes.length fuel 0
        { st with
          files := next
          data := st.data.storeList st.last bytes
          last := st.last + bytes.length } = some after ∧
      after.files = next ∧
      LeavesUnfinished search name bytes.length st.output (text ++ bytes)
        (rest.drop (grepBufSize - st.last)) after unfinished := by
  have hread := hbuffer.afterRead hnul next
  have htake : bytes.length = min (grepBufSize - st.last) rest.length := by
    rw [← hbytes, List.length_take]
  have hempty (hall : rest.length ≤ grepBufSize - st.last) :
      rest.drop (grepBufSize - st.last) = [] :=
    List.drop_eq_nil_of_le hall
  rw [hbytes] at hread
  apply searchLines_spec hargs hname hfuel hread
  · rwa [← hbytes, List.append_assoc, List.take_append_drop]
  · intro hless
    change st.last + bytes.length < grepBufSize at hless
    exact hempty (by omega)
  · intro hzero
    exact hempty (by omega)
  · rw [hread.length_eq]
    exact Nat.lt_of_le_of_lt hread.last_le hfuel

theorem readLoop_spec (hargs : GrepArguments s fname search name)
    (hname : name.length < fuel) (hfuel : grepBufSize < fuel)
    (hserves : ServesFile calls fname files contents fd unread)
    (hunread : unread st.files rest) (hbuffer : GrepBuffer st 0 text)
    (hshort : st.last < grepBufSize) (hnul : 0 ∉ text ++ rest)
    (hfits : LinesFit (text ++ rest)) (hturns : rest.length < turns) :
    ∃ after, readLoop fuel s fname search.length calls fd turns st =
        some (true, after) ∧
      (calls.close fd after.files).1 = true ∧
      after.output =
        st.output ++ printedLines (found search) name (text ++ rest) := by
  induction turns generalizing st text rest with
  | zero => exact absurd hturns (Nat.not_lt_zero _)
  | succ turns ih =>
      obtain ⟨next, hread, hunread⟩ :=
        hserves.reads hunread (grepBufSize - st.last)
      obtain ⟨after, unfinished, hrun, rfl, hleft⟩ :=
        searchLines_afterRead hargs hname hfuel hbuffer hshort hnul hfits next
          rfl
      have houtput := hleft.output_eq
      rw [List.append_assoc text, List.take_append_drop] at houtput
      have hlength : (rest.take (grepBufSize - st.last)).length =
          min (grepBufSize - st.last) rest.length := List.length_take
      rw [readLoop, hread]
      simp only [hrun, Option.bind_eq_bind, Option.bind_some]
      by_cases hend : 0 = (rest.take (grepBufSize - st.last)).length
      · have hrest : rest.drop (grepBufSize - st.last) = [] :=
          List.drop_eq_nil_of_le (by omega)
        rw [hleft.at_end hend.symm, hrest, List.append_nil,
          printedLines_nil hargs, List.append_nil] at houtput
        rw [if_pos hend]
        exact ⟨after, rfl, hserves.closes hunread, houtput⟩
      · have hnul' : 0 ∉ unfinished ++ rest.drop (grepBufSize - st.last) := by
          rw [List.mem_append] at hnul ⊢
          rintro (hmem | hmem)
          · exact hleft.buffer.nul hmem
          · exact hnul (Or.inr (List.mem_of_mem_drop hmem))
        -- Something was read, so less is left.
        have hless : (rest.drop (grepBufSize - st.last)).length < turns := by
          rw [List.length_drop]
          omega
        obtain ⟨last, hloop, hclose, hprinted⟩ := ih hunread hleft.buffer
          hleft.short hnul' hleft.fits hless
        rw [if_neg hend]
        exact ⟨last, hloop, hclose, hprinted.trans houtput⟩

/-- What `do_one_file` returns and prints. -/
theorem doOneFile_eq {data : Memory UInt8}
    (hargs : GrepArguments s fname search name)
    (hserves : ServesFile calls fname files contents fd unread)
    (hbeyond : data grepBufSize ≠ newline) (hnul : 0 ∉ contents)
    (hfits : LinesFit contents) (hsearch : search.length < fuel)
    (hname : name.length < fuel) (hfuel : grepBufSize < fuel)
    (hcontents : contents.length < fuel) :
    ∃ after, doOneFile fuel s fname calls files data = some (0, after) ∧
      after.output = printedLines (found search) name contents := by
  obtain ⟨opened, hopen, hunread⟩ := hserves.opens
  have hbuffer : GrepBuffer (⟨opened, data, 0, []⟩ : GrepState σ) 0 [] :=
    { start_le := Nat.zero_le _
      last_le := Nat.zero_le _
      text_eq := rfl
      beyond := hbeyond
      nul := List.not_mem_nil }
  obtain ⟨after, hloop, hclose, houtput⟩ := readLoop_spec hargs hname hfuel
    hserves hunread hbuffer (Nat.succ_pos _) hnul hfits hcontents
  refine ⟨{ after with files := (calls.close fd after.files).2 }, ?_,
    houtput⟩
  rw [doOneFile, strlenFrom_eq hargs.search_holds hargs.search_nul hsearch]
  simp only [Option.bind_eq_bind, Option.bind_some, hopen, hloop]
  cases hanswer : calls.close fd after.files with
  | mk closed last =>
      rw [hanswer] at hclose
      subst hclose
      rfl

/-- `do_one_file` returns 0 and prints, in order and once each, the lines that
contain the search string. -/
def PrintsMatches (calls : FileCalls σ) (files : σ)
    (s fname data : Memory UInt8) (search name contents : List UInt8) : Prop :=
  ∃ enough, ∀ fuel ≥ enough, ∃ after,
    doOneFile fuel s fname calls files data = some (0, after) ∧
    after.output =
      printedLines (fun line => decide (search <:+: line)) name contents

/-- The search string begins with a byte that is negative as a `char`, and is
in some line. -/
def MissesMatch (search contents : List UInt8) : Prop :=
  0x80 ≤ search.headD 0 ∧ ∃ line ∈ textLines contents, search <:+: line

theorem printedLines_found (hmisses : ¬ MissesMatch search contents) :
    printedLines (found search) name contents =
      printedLines (fun line => decide (search <:+: line)) name contents := by
  have hfilter : (textLines contents).filter (found search) =
      (textLines contents).filter fun line => decide (search <:+: line) := by
    apply List.filter_congr
    intro line hline
    rw [found]
    apply decide_eq_decide.mpr
    apply and_iff_right_of_imp
    intro hinfix
    by_contra hhigh
    exact hmisses ⟨UInt8.not_lt.mp hhigh, line, hline, hinfix⟩
  rw [printedLines, hfilter, printedLines]

theorem printedLines_of_misses (hmisses : MissesMatch search contents) :
    printedLines (found search) name contents = [] ∧
      printedLines (fun line => decide (search <:+: line)) name contents ≠
        [] := by
  obtain ⟨hhigh, line, hline, hinfix⟩ := hmisses
  constructor
  · have hnone : (textLines contents).filter (found search) = [] := by
      rw [List.filter_eq_nil_iff]
      intro other _ hfound
      exact UInt8.not_lt.mpr hhigh (of_decide_eq_true hfound).1
    rw [printedLines, hnone, List.flatMap_nil]
  · intro hnone
    have hmem : line ∈ (textLines contents).filter fun line =>
        decide (search <:+: line) :=
      List.mem_filter.mpr ⟨hline, decide_eq_true hinfix⟩
    have hprinted := List.flatMap_eq_nil_iff.mp hnone line hmem
    rw [printedLine] at hprinted
    simp [literal] at hprinted

theorem not_printsMatches {data : Memory UInt8}
    (hargs : GrepArguments s fname search name)
    (hserves : ServesFile calls fname files contents fd unread)
    (hbeyond : data grepBufSize ≠ newline) (hnul : 0 ∉ contents)
    (hfits : LinesFit contents) (hmisses : MissesMatch search contents) :
    ¬ PrintsMatches calls files s fname data search name contents := by
  rintro ⟨enough, hprints⟩
  obtain ⟨fuel, hfuel⟩ : ∃ fuel, enough + search.length + name.length +
      grepBufSize + contents.length < fuel := ⟨_, Nat.lt_succ_self _⟩
  obtain ⟨after, hrun, houtput⟩ := @doOneFile_eq _ _ _ _ _ fuel _ _ _ _ _ _
    hargs hserves hbeyond hnul hfits (by omega) (by omega) (by omega)
    (by omega)
  obtain ⟨other, hother, hmatches⟩ := hprints fuel (by omega)
  have hboth := @printedLines_of_misses search name contents hmisses
  rw [hrun] at hother
  cases hother
  exact hboth.2 (hmatches.symm.trans (houtput.trans hboth.1))

/-- `grep` prints exactly the matching lines of a file unless its search
string begins with a byte above 0x7F and occurs: `s[0] == data[check]` compares
a `char` with a `uint8_t`. -/
theorem grep_prints_matches_iff {data : Memory UInt8}
    (hargs : GrepArguments s fname search name)
    (hserves : ServesFile calls fname files contents fd unread)
    (hbeyond : data grepBufSize ≠ newline) (hnul : 0 ∉ contents)
    (hfits : LinesFit contents) :
    PrintsMatches calls files s fname data search name contents ↔
      ¬ MissesMatch search contents := by
  constructor
  · intro hprints hmisses
    exact not_printsMatches hargs hserves hbeyond hnul hfits hmisses hprints
  · intro hmisses
    refine ⟨search.length + name.length + grepBufSize + contents.length + 1,
      ?_⟩
    intro fuel hfuel
    rw [← printedLines_found hmisses]
    exact doOneFile_eq hargs hserves hbeyond hnul hfits (by omega) (by omega)
      (by omega) (by omega)

end Loops

/-- A string in a memory of its own. -/
def stringMemory (bytes : List UInt8) : Memory UInt8 :=
  Memory.storeList (fun _ => 0) 0 (bytes ++ [0])

/-- A file system with one file in it, whose state is what is unread. -/
def listCalls (contents : List UInt8) : FileCalls (List UInt8) where
  openFile _ _ := (some 2, contents)
  read _ count rest := (some (rest.take count), rest.drop count)
  close _ rest := (true, rest)

theorem listCalls_serves (contents : List UInt8) (fname : Memory UInt8) :
    ServesFile (listCalls contents) fname [] contents 2 Eq where
  opens := ⟨contents, rfl, rfl⟩
  reads := by
    rintro files rest rfl count
    exact ⟨files.drop count, rfl, rfl⟩
  closes _ := rfl

theorem stringMemory_arguments {search name : List UInt8} (hnul : 0 ∉ search)
    (hne : search ≠ []) (hname : 0 ∉ name) :
    GrepArguments (stringMemory search) (stringMemory name) search name where
  search_holds := holdsString_storeList _ 0 search
  search_nul := hnul
  search_ne_nil := hne
  name_holds := holdsString_storeList _ 0 name
  name_nul := hname

/-- `"be"` is in the second line of `"abc\nobey"`. -/
theorem plainFile_printsMatches :
    PrintsMatches (listCalls [97, 98, 99, 10, 111, 98, 101, 121]) []
      (stringMemory [98, 101]) (stringMemory [102]) (fun _ => 0) [98, 101] [102]
      [97, 98, 99, 10, 111, 98, 101, 121] := by
  apply (grep_prints_matches_iff
    (stringMemory_arguments (by simp) (by simp) (by simp))
    (listCalls_serves _ _) (by decide) (by simp) (by decide)).mpr
  intro hmisses
  exact absurd hmisses.1 (by decide)

/-- A file that consists of one byte above 0x7F and a newline, searched for
that byte. -/
theorem accented_not_printed :
    (doOneFile 8 (stringMemory [0xE9]) (stringMemory [102])
        (listCalls [0xE9, 10]) [] (fun _ => 0)).map
        (fun answer => (answer.1, answer.2.output)) = some (0, []) ∧
    textLines [0xE9, 10] = [[0xE9], []] ∧
    ¬ PrintsMatches (listCalls [0xE9, 10]) [] (stringMemory [0xE9])
      (stringMemory [102]) (fun _ => 0) [0xE9] [102] [0xE9, 10] := by
  refine ⟨by decide, by decide, ?_⟩
  apply not_printsMatches
    (stringMemory_arguments (by simp) (by simp) (by simp))
    (listCalls_serves _ _) (by decide) (by simp) (by decide)
  exact ⟨by decide, [0xE9], by decide, List.infix_rfl⟩

end PsychOS
