/-
The line discipline.  Typing ahead, erasing and reading may be interleaved in
any way; what the reads of a terminal return is the sequence of lines an ideal
line editor completes from the accepted keystrokes.
-/
import PsychOS.Lib.Run
import PsychOS.TerminalInput

namespace PsychOS

/-- An ideal line editor: the lines completed so far and the one being
typed. -/
structure LineEditor where
  lines : List (List UInt8)
  current : List UInt8
deriving Repr, DecidableEq

/-- Backspace deletes the last surviving byte of the unfinished line, newline
completes it. -/
def LineEditor.type (editor : LineEditor) (ch : UInt8) : LineEditor :=
  if ch = charBackspace then
    { editor with current := editor.current.dropLast }
  else if ch = charNewline then
    ⟨editor.lines ++ [editor.current ++ [charNewline]], []⟩
  else { editor with current := editor.current ++ [ch] }

def editKeys (keys : List UInt8) : LineEditor :=
  keys.foldl LineEditor.type ⟨[], []⟩

def completedLines (keys : List UInt8) : List (List UInt8) :=
  (editKeys keys).lines

def unfinishedLine (keys : List UInt8) : List UInt8 :=
  (editKeys keys).current

theorem editKeys_concat (keys : List UInt8) (ch : UInt8) :
    editKeys (keys ++ [ch]) = (editKeys keys).type ch := by
  simp [editKeys]

/-- What can happen to one terminal: a key, or the completion of a read. -/
inductive LineEvent where
  | key (ch : UInt8)
  | read (nbytes : Int)
deriving Repr, DecidableEq

/-- The driver together with what has been observed of it: the keystrokes for
which `keyboard_putc` returned 1, and what the completed reads returned. -/
structure LineLog where
  tty : Tty
  accepted : List UInt8
  returned : List (List UInt8)

def LineLog.start (layout : Layout) (tty : Tty) (terminal : Nat) : LineLog :=
  ⟨resetTerminal layout tty terminal, [], []⟩

def lineStep (terminal : Nat) : StepFn LineLog LineEvent
  | log, .key ch =>
      let (tty, ret) := keyboardPutc log.tty terminal ch
      some { log with
        tty := tty
        accepted := if ret = 1 then log.accepted ++ [ch] else log.accepted }
  | log, .read nbytes =>
      (terminalRead log.tty terminal nbytes).map fun (bytes, tty) =>
        { log with tty := tty, returned := log.returned ++ [bytes] }

/-- A line and its newline. -/
def IsLine (line : List UInt8) : Prop :=
  ∃ body, line = body ++ [charNewline] ∧ charNewline ∉ body

/-- The driver holds the unread lines followed by the unfinished one. -/
structure LineInv (layout : Layout) (terminal : Nat) (log : LineLog)
    (unread : List (List UInt8)) : Prop where
  ready : log.tty.InputReady layout terminal
  lines_eq : completedLines log.accepted = log.returned ++ unread
  unread_lines : ∀ line ∈ unread, IsLine line
  current_line : charNewline ∉ unfinishedLine log.accepted
  pending_eq : log.tty.pending terminal =
    unread.flatten ++ unfinishedLine log.accepted
  counter_eq : log.tty.newLineReady terminal = unread.length
  erased : ∀ front, front ++ [charBackspace] <+: log.accepted →
    unfinishedLine front ≠ []

section Steps

variable {layout : Layout} {terminal : Nat} {log : LineLog}
  {unread : List (List UInt8)}

theorem length_le_flatten_length (hlines : ∀ line ∈ unread, IsLine line) :
    unread.length ≤ unread.flatten.length := by
  induction unread with
  | nil => simp
  | cons line rest ih =>
      obtain ⟨body, rfl, -⟩ := hlines line List.mem_cons_self
      have hrest := ih fun other hother =>
        hlines other (List.mem_cons_of_mem _ hother)
      simp only [List.length_cons, List.flatten_cons, List.length_append,
        List.length_nil]
      omega

/-- The counter never exceeds the capacity of the ring. -/
theorem LineInv.unread_length_le (hinv : LineInv layout terminal log unread) :
    unread.length ≤ (log.tty.pending terminal).length := by
  have hle := length_le_flatten_length hinv.unread_lines
  rw [hinv.pending_eq, List.length_append]
  omega

/-- If the last pending byte is not a newline, it belongs to the unfinished
line. -/
theorem LineInv.current_ne_nil (hinv : LineInv layout terminal log unread)
    {last : UInt8} (hlast : (log.tty.pending terminal).getLast? = some last)
    (hnl : last ≠ charNewline) : unfinishedLine log.accepted ≠ [] := by
  intro hnil
  rw [hinv.pending_eq, hnil, List.append_nil] at hlast
  rcases List.eq_nil_or_concat unread with hempty | ⟨front, line, hconcat⟩
  · simp [hempty] at hlast
  · have hmem : line ∈ unread := by simp [hconcat]
    obtain ⟨body, rfl, -⟩ := hinv.unread_lines line hmem
    rw [hconcat] at hlast
    have hend : (front.concat (body ++ [charNewline])).flatten.getLast? =
        some charNewline := by simp [List.concat_eq_append]
    exact hnl (Option.some.inj (hlast.symm.trans hend))

/-- A refused key changes nothing that is observed. -/
theorem LineInv.refuse (hinv : LineInv layout terminal log unread)
    {ch : UInt8} {next : Tty} {ret : Nat}
    (hspec : KeySpec layout log.tty terminal ch next ret)
    (hnone : keyEffect (log.tty.pending terminal) ch = none) :
    LineInv layout terminal { log with tty := next } unread where
  ready := hspec.ready
  lines_eq := hinv.lines_eq
  unread_lines := hinv.unread_lines
  current_line := hinv.current_line
  pending_eq := by
    have hpending := hspec.pending_eq
    rw [hnone] at hpending
    exact hpending.trans hinv.pending_eq
  counter_eq := by
    have hcounter := hspec.newLineReady_eq
    rw [hnone] at hcounter
    simpa [hinv.counter_eq] using hcounter
  erased := hinv.erased

/-- Extending the accepted keys keeps the erasure clause, if a new backspace
finds something to erase. -/
theorem LineInv.erased_concat (hinv : LineInv layout terminal log unread)
    {ch : UInt8}
    (hch : ch = charBackspace → unfinishedLine log.accepted ≠ []) :
    ∀ front, front ++ [charBackspace] <+: log.accepted ++ [ch] →
      unfinishedLine front ≠ [] := by
  intro front hprefix
  rcases List.prefix_concat_iff.mp hprefix with heq | hold
  · obtain ⟨hfront, hback⟩ := List.append_inj' heq rfl
    rw [hfront]
    exact hch (List.cons.inj hback).1.symm
  · exact hinv.erased front hold

theorem LineInv.backspace (hinv : LineInv layout terminal log unread)
    {next : Tty} {ret : Nat}
    (hspec : KeySpec layout log.tty terminal charBackspace next ret)
    {last : UInt8} (hlast : (log.tty.pending terminal).getLast? = some last)
    (hnl : last ≠ charNewline) :
    LineInv layout terminal
      { log with tty := next, accepted := log.accepted ++ [charBackspace] }
      unread := by
  have hcurrent := hinv.current_ne_nil hlast hnl
  have heffect := keyEffect_backspace hlast hnl
  have hedit : editKeys (log.accepted ++ [charBackspace]) =
      ⟨completedLines log.accepted, (unfinishedLine log.accepted).dropLast⟩ :=
    editKeys_concat log.accepted charBackspace
  refine ⟨hspec.ready, ?_, hinv.unread_lines, ?_, ?_, ?_, ?_⟩
  · simpa only [completedLines, hedit] using hinv.lines_eq
  · simp only [unfinishedLine, hedit]
    exact fun hmem => hinv.current_line (List.dropLast_subset _ hmem)
  · rw [unfinishedLine, hedit, hspec.pending_eq, heffect, hinv.pending_eq,
      Option.getD_some, List.dropLast_append_of_ne_nil hcurrent]
  · have hne : charBackspace ≠ charNewline := by decide
    simpa [hinv.counter_eq, hne] using hspec.newLineReady_eq
  · exact hinv.erased_concat fun _ => hcurrent

theorem LineInv.newline (hinv : LineInv layout terminal log unread)
    {next : Tty} {ret : Nat}
    (hspec : KeySpec layout log.tty terminal charNewline next ret)
    (hroom : (log.tty.pending terminal).length < keyboardBufferSize) :
    LineInv layout terminal
      { log with tty := next, accepted := log.accepted ++ [charNewline] }
      (unread ++ [unfinishedLine log.accepted ++ [charNewline]]) := by
  have heffect := keyEffect_newline hroom
  have hedit : editKeys (log.accepted ++ [charNewline]) =
      ⟨completedLines log.accepted ++
        [unfinishedLine log.accepted ++ [charNewline]], []⟩ :=
    editKeys_concat log.accepted charNewline
  refine ⟨hspec.ready, ?_, ?_, ?_, ?_, ?_, ?_⟩
  · rw [completedLines, hedit]
    change completedLines log.accepted ++ _ = _
    rw [hinv.lines_eq, List.append_assoc]
  · intro line hline
    rcases List.mem_append.mp hline with hold | hnew
    · exact hinv.unread_lines line hold
    · exact ⟨_, List.mem_singleton.mp hnew, hinv.current_line⟩
  · simp [unfinishedLine, hedit]
  · rw [hspec.pending_eq, heffect, hinv.pending_eq]
    simp [unfinishedLine, hedit]
  · have hcount := hinv.unread_length_le
    have hsmall : unread.length + 1 < 256 := by
      simp only [keyboardBufferSize] at hroom
      omega
    have hcounter := hspec.newLineReady_eq
    rw [heffect, hinv.counter_eq] at hcounter
    simpa [Nat.mod_eq_of_lt hsmall] using hcounter
  · exact hinv.erased_concat fun heq => absurd heq (by decide)

theorem LineInv.printable (hinv : LineInv layout terminal log unread)
    {ch : UInt8} {next : Tty} {ret : Nat}
    (hspec : KeySpec layout log.tty terminal ch next ret)
    (hback : ch ≠ charBackspace) (hnl : ch ≠ charNewline) (hzero : ch ≠ 0)
    (hroom : (log.tty.pending terminal).length < keyboardBufferSize - 1) :
    LineInv layout terminal
      { log with tty := next, accepted := log.accepted ++ [ch] } unread := by
  have heffect := keyEffect_printable hback hnl hzero hroom
  have hedit : editKeys (log.accepted ++ [ch]) =
      ⟨completedLines log.accepted, unfinishedLine log.accepted ++ [ch]⟩ := by
    rw [editKeys_concat]
    simp only [LineEditor.type, hback, hnl, ↓reduceIte]
    rfl
  refine ⟨hspec.ready, ?_, hinv.unread_lines, ?_, ?_, ?_, ?_⟩
  · simpa only [completedLines, hedit] using hinv.lines_eq
  · simp only [unfinishedLine, hedit]
    intro hmem
    rcases List.mem_append.mp hmem with hold | hnew
    · exact hinv.current_line hold
    · exact hnl (List.mem_singleton.mp hnew).symm
  · rw [unfinishedLine, hedit, hspec.pending_eq, heffect, hinv.pending_eq,
      Option.getD_some, List.append_assoc]
  · simpa [hinv.counter_eq, hnl] using hspec.newLineReady_eq
  · exact hinv.erased_concat fun heq => absurd heq hback

/-- A read of at least a buffer's size takes exactly the oldest line. -/
theorem LineInv.read (hinv : LineInv layout terminal log unread)
    {nbytes : Int} (hlo : (keyboardBufferSize : Int) ≤ nbytes)
    (hhi : nbytes < 2 ^ 31) {bytes : List UInt8} {next : Tty}
    (hread : terminalRead log.tty terminal nbytes = some (bytes, next)) :
    ∃ rest, LineInv layout terminal
      { log with tty := next, returned := log.returned ++ [bytes] } rest := by
  obtain ⟨hcounter, hready, rfl, hpending, hcount⟩ :=
    terminalRead_spec hinv.ready hread
  have hle := hinv.unread_length_le
  have hbound := hinv.ready.pending_length_le
  rw [hinv.counter_eq] at hcounter hcount
  cases unread with
  | nil => simp at hcounter
  | cons line rest =>
      obtain ⟨body, rfl, hbody⟩ := hinv.unread_lines line List.mem_cons_self
      have hsplit : log.tty.pending terminal = body ++ charNewline ::
          (rest.flatten ++ unfinishedLine log.accepted) := by
        rw [hinv.pending_eq]
        simp
      have hlen : lineLength (log.tty.pending terminal) = body.length + 1 := by
        rw [hsplit, lineLength_append_newline hbody]
      have hfits : lineLength (log.tty.pending terminal) ≤ toUint32 nbytes := by
        have hline := lineLength_le_length (log.tty.pending terminal)
        rw [toUint32_of_nonneg (by omega) (by omega)]
        omega
      rw [Nat.min_eq_left hfits, hlen] at hpending ⊢
      have hfront : (log.tty.pending terminal).take (body.length + 1) =
          body ++ [charNewline] := by
        rw [hsplit, List.append_cons, ← List.length_concat (a := charNewline),
          List.concat_eq_append, List.take_left]
      refine ⟨rest, hready, ?_, ?_, hinv.current_line, ?_, ?_, hinv.erased⟩
      · rw [hinv.lines_eq, hfront]
        simp
      · intro other hother
        exact hinv.unread_lines other (List.mem_cons_of_mem _ hother)
      · rw [hpending, hsplit]
        simp [List.drop_append]
      · simp only [List.length_cons] at hcount hle
        simp only [keyboardBufferSize] at hbound
        rw [hcount]
        omega

theorem lineStep_key (ch : UInt8) :
    lineStep terminal log (.key ch) =
      some { log with
        tty := (keyboardPutc log.tty terminal ch).1
        accepted := if (keyboardPutc log.tty terminal ch).2 = 1 then
          log.accepted ++ [ch] else log.accepted } := rfl

/-- One key, accepted or refused. -/
theorem LineInv.key (hinv : LineInv layout terminal log unread) {ch : UInt8}
    (hzero : ch ≠ 0) {next : LineLog}
    (hstep : lineStep terminal log (.key ch) = some next) :
    ∃ unread', LineInv layout terminal next unread' := by
  have hspec := keyboardPutc_spec hinv.ready ch
  have hret := hspec.ret_eq
  rw [lineStep_key] at hstep
  obtain rfl := Option.some.inj hstep
  by_cases hsome : (keyEffect (log.tty.pending terminal) ch).isSome
  · rw [if_pos hsome] at hret
    rw [if_pos hret]
    rcases keyEffect_accepted hzero hsome with
      ⟨rfl, last, hlast, hnl⟩ | ⟨rfl, hroom⟩ | ⟨hback, hnl, hroom⟩
    · exact ⟨unread, hinv.backspace hspec hlast hnl⟩
    · exact ⟨_, hinv.newline hspec hroom⟩
    · exact ⟨unread, hinv.printable hspec hback hnl hzero hroom⟩
  · have hnone : keyEffect (log.tty.pending terminal) ch = none :=
      Option.not_isSome_iff_eq_none.mp hsome
    rw [if_neg hsome] at hret
    rw [if_neg (by rw [hret]; decide)]
    exact ⟨unread, hinv.refuse hspec hnone⟩

end Steps

/-- The events the discipline is promised for: keys other than NUL, and reads
that ask for at least a whole buffer. -/
def LineEvent.Allowed : LineEvent → Prop
  | .key ch => ch ≠ 0
  | .read nbytes => (keyboardBufferSize : Int) ≤ nbytes ∧ nbytes < 2 ^ 31

theorem lineInv_start (layout : Layout) (tty : Tty) (terminal : Nat) :
    LineInv layout terminal (LineLog.start layout tty terminal) [] where
  ready := resetTerminal_ready layout tty terminal
  lines_eq := rfl
  unread_lines := by simp
  current_line := by simp [LineLog.start, unfinishedLine, editKeys]
  pending_eq := resetTerminal_pending layout tty terminal
  counter_eq := resetTerminal_newLineReady layout tty terminal
  erased := by simp [LineLog.start]

theorem lineStep_inv {layout : Layout} {terminal : Nat} (log : LineLog)
    (event : LineEvent) (next : LineLog)
    (hinv : ∃ unread, LineInv layout terminal log unread)
    (hallowed : event.Allowed)
    (hstep : lineStep terminal log event = some next) :
    ∃ unread, LineInv layout terminal next unread := by
  obtain ⟨unread, hinv⟩ := hinv
  cases event with
  | key ch => exact hinv.key hallowed hstep
  | read nbytes =>
      obtain ⟨⟨bytes, tty⟩, hread, rfl⟩ := Option.map_eq_some_iff.mp hstep
      exact hinv.read hallowed.1 hallowed.2 hread

/-- The line discipline.  In every run of keys and whole-buffer reads that
starts from `reset_terminal`, the completed reads have returned the first
completed lines in order, the counter is the number of completed lines not yet
read, the ring holds those lines followed by the unfinished one, and every
accepted backspace found a byte of the unfinished line to delete. -/
theorem reads_return_completed_lines (layout : Layout) (tty : Tty)
    (terminal : Nat) (events : List LineEvent) (log : LineLog)
    (hallowed : ∀ event ∈ events, event.Allowed)
    (hrun : StepFn.run (lineStep terminal)
      (LineLog.start layout tty terminal) events = some log) :
    ∃ unread, completedLines log.accepted = log.returned ++ unread ∧
      log.tty.newLineReady terminal = unread.length ∧
      log.tty.pending terminal =
        unread.flatten ++ unfinishedLine log.accepted ∧
      ∀ front, front ++ [charBackspace] <+: log.accepted →
        unfinishedLine front ≠ [] := by
  obtain ⟨unread, hinv⟩ := StepFn.run_invariant_on lineStep_inv
    ⟨[], lineInv_start layout tty terminal⟩ hallowed hrun
  exact ⟨unread, hinv.lines_eq, hinv.counter_eq, hinv.pending_eq,
    hinv.erased⟩

/-- Typing `h`, backspace, `i`, Enter, `!` and reading 128 bytes. -/
def typedAhead : List LineEvent :=
  [.key 104, .key 8, .key 105, .key 10, .key 33, .read 128]

/-- The read returns the corrected line and leaves the typed-ahead byte. -/
theorem typedAhead_returns_line :
    ∃ log, StepFn.run (lineStep 0) (LineLog.start sampleLayout .zeroed 0)
        typedAhead = some log ∧
      log.returned = [[105, 10]] ∧
      ∃ unread, completedLines log.accepted = log.returned ++ unread ∧
        log.tty.newLineReady 0 = unread.length ∧
        log.tty.pending 0 = unread.flatten ++ unfinishedLine log.accepted ∧
        ∀ front, front ++ [charBackspace] <+: log.accepted →
          unfinishedLine front ≠ [] := by
  have hreturned : (StepFn.run (lineStep 0)
      (LineLog.start sampleLayout .zeroed 0) typedAhead).map
        LineLog.returned = some [[105, 10]] := by decide
  obtain ⟨log, hrun, hlines⟩ := Option.map_eq_some_iff.mp hreturned
  have hallowed : ∀ event ∈ typedAhead, event.Allowed := by
    simp [typedAhead, LineEvent.Allowed]
  exact ⟨log, hrun, hlines, reads_return_completed_lines sampleLayout
    .zeroed 0 typedAhead log hallowed hrun⟩

end PsychOS
