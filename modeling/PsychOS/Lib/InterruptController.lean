/-
Two 8259A interrupt controllers as a PC has them: the output of the slave is
line 2 of the master, by the wiring and whatever the cascade words say.  A
request waits until the processor accepts it, and is in service from then on
until its end is signalled; meanwhile it keeps the lines from its own on
waiting.
-/
import Mathlib.Logic.Function.Basic

namespace PsychOS

/-- The words a controller expects after the first one of an
initialisation. -/
inductive InitWord where
  | vectors
  | cascade
  | mode
  deriving DecidableEq

/-- One controller.  `cascade` is the word that names the lines with slaves. -/
structure Pic where
  masked : BitVec 8
  requested : Nat → Bool
  inService : Nat → Bool
  vectors : BitVec 8
  cascade : BitVec 8
  awaiting : List InitWord

namespace Pic

/-- A byte for the command port: the first word of an initialisation, which
starts the controller again with all lines open, or the end of the interrupt on
a line.  Other commands are left out. -/
def writeCommand (pic : Pic) (byte : BitVec 8) : Pic :=
  if byte.getLsbD 4 then
    { pic with
      masked := 0
      requested := fun _ => false
      inService := fun _ => false
      awaiting := .vectors :: ((if byte.getLsbD 1 then [] else [.cascade]) ++
        if byte.getLsbD 0 then [.mode] else []) }
  else if byte &&& 0xF8 = 0x60 then
    { pic with
      inService := Function.update pic.inService (byte &&& 7).toNat false }
  else pic

/-- A byte for the data port: the next word of the initialisation, or the mask
outside of one. -/
def writeData (pic : Pic) (byte : BitVec 8) : Pic :=
  match pic.awaiting with
  | [] => { pic with masked := byte }
  | .vectors :: rest => { pic with vectors := byte &&& 0xF8, awaiting := rest }
  | .cascade :: rest => { pic with cascade := byte, awaiting := rest }
  | .mode :: rest => { pic with awaiting := rest }

/-- A device raises its line. -/
def request (pic : Pic) (line : Nat) : Pic :=
  { pic with requested := Function.update pic.requested line true }

/-- A request that can be passed on: the line is open, and neither it nor one
before it is in service. -/
def Ready (pic : Pic) (line : Nat) : Bool :=
  pic.requested line && !pic.masked.getLsbD line &&
    (List.range (line + 1)).all fun other => !pic.inService other

/-- The request the controller passes on. -/
def next (pic : Pic) : Option Nat := (List.range 8).find? pic.Ready

def accept (pic : Pic) (line : Nat) : Pic :=
  { pic with
    requested := Function.update pic.requested line false
    inService := Function.update pic.inService line true }

variable {pic : Pic} {line other : Nat}

/-- What is in service keeps itself and the lines behind it waiting. -/
theorem inService_of_next (hnext : pic.next = some line)
    (hle : other ≤ line) : pic.inService other = false := by
  have hready := List.find?_some hnext
  simp only [Ready, Bool.and_eq_true, List.all_eq_true,
    Bool.not_eq_true'] at hready
  exact hready.2 other (List.mem_range.mpr (Nat.lt_succ_of_le hle))

theorem lt_of_next (hnext : pic.next = some line) : line < 8 :=
  List.mem_range.mp (List.mem_of_find?_eq_some hnext)

/-- A whole initialisation with a cascade and a mode word leaves nothing of the
state before it. -/
theorem initialise_eq (pic : Pic) (vectors cascade mode : BitVec 8) :
    (((pic.writeCommand 0x11).writeData vectors).writeData cascade).writeData
        mode =
      ⟨0, fun _ => false, fun _ => false, vectors &&& 0xF8, cascade, []⟩ := by
  have hfirst : (0x11 : BitVec 8).getLsbD 4 = true := by decide
  have hcascade : (0x11 : BitVec 8).getLsbD 1 = false := by decide
  have hmode : (0x11 : BitVec 8).getLsbD 0 = true := by decide
  rw [writeCommand, hfirst, hcascade, hmode]
  rfl

/-- What an initialisation and the mask decide. -/
def setup (pic : Pic) : BitVec 8 × BitVec 8 × BitVec 8 × List InitWord :=
  (pic.masked, pic.vectors, pic.cascade, pic.awaiting)

/-- The end of an interrupt, on the side of the controller. -/
def finish (pic : Pic) (line : Nat) : Pic :=
  { pic with inService := Function.update pic.inService line false }

theorem setup_eq_iff {mask vectors cascade : BitVec 8}
    {words : List InitWord} :
    pic.setup = (mask, vectors, cascade, words) ↔
      pic.masked = mask ∧ pic.vectors = vectors ∧ pic.cascade = cascade ∧
        pic.awaiting = words := by
  simp only [setup, Prod.mk.injEq]

theorem setup_writeData {mask vectors cascade : BitVec 8}
    (hsetup : pic.setup = (mask, vectors, cascade, [])) (byte : BitVec 8) :
    (pic.writeData byte).setup = (byte, vectors, cascade, []) := by
  obtain ⟨-, rfl, rfl, hawaiting⟩ := setup_eq_iff.mp hsetup
  simp only [writeData, hawaiting, setup]

theorem inService_writeData (byte : BitVec 8) :
    (pic.writeData byte).inService = pic.inService := by
  unfold writeData
  split <;> rfl

theorem inService_accept_of (hservice : pic.inService other = true) :
    (pic.accept line).inService other = true := by
  by_cases hline : other = line
  · rw [hline]
    exact Function.update_self ..
  · exact (Function.update_of_ne hline ..).trans hservice

theorem inService_finish_of_ne (hne : other ≠ line) :
    (pic.finish line).inService other = pic.inService other :=
  Function.update_of_ne hne ..

/-- Accepted and ended, an interrupt leaves the others in service. -/
theorem inService_accept_end (hfree : pic.inService line = false) :
    ((pic.accept line).finish line).inService = pic.inService := by
  rw [finish, accept, Function.update_idem, ← hfree, Function.update_eq_self]

end Pic

structure Pics where
  master : Pic
  slave : Pic

namespace Pics

/-- The master with its line 2 as the slave drives it. -/
def wired (pics : Pics) : Pic :=
  { pics.master with
    requested := Function.update pics.master.requested 2
      pics.slave.next.isSome }

/-- The processor accepts an interrupt: its number, counted through both
controllers. -/
def accept (pics : Pics) : Option (Nat × Pics) :=
  pics.wired.next.bind fun line =>
    if line = 2 then
      pics.slave.next.map fun below =>
        (8 + below, ⟨pics.master.accept 2, pics.slave.accept below⟩)
    else some (line, ⟨pics.master.accept line, pics.slave⟩)

variable {pics after : Pics} {irq : Nat}

/-- The vector the processor gets with an interrupt. -/
def vector (pics : Pics) (irq : Nat) : BitVec 8 :=
  if irq < 8 then pics.master.vectors ||| BitVec.ofNat 8 irq
  else pics.slave.vectors ||| BitVec.ofNat 8 (irq - 8)

/-- The line of the master an interrupt comes in on. -/
def masterLine (irq : Nat) : Nat := if irq < 8 then irq else 2

/-- What accepting an interrupt can be: nothing from its line of the master on
down to the first was in service, and nothing of its own line. -/
theorem accept_cases (haccept : pics.accept = some (irq, after)) :
    (∀ other ≤ masterLine irq, pics.master.inService other = false) ∧
      ((irq < 8 ∧ after = ⟨pics.master.accept irq, pics.slave⟩) ∨
        ∃ line, line < 8 ∧ irq = 8 + line ∧
          pics.slave.inService line = false ∧
          after = ⟨pics.master.accept 2, pics.slave.accept line⟩) := by
  obtain ⟨line, hline, hrest⟩ := Option.bind_eq_some_iff.mp haccept
  have hfree (other : Nat) (hle : other ≤ line) :
      pics.master.inService other = false := by
    have hwired := Pic.inService_of_next hline hle
    exact hwired
  by_cases htwo : line = 2
  · subst htwo
    rw [if_pos rfl] at hrest
    obtain ⟨below, hbelow, heq⟩ := Option.map_eq_some_iff.mp hrest
    obtain ⟨rfl, rfl⟩ := Prod.mk.inj heq
    have hmaster : masterLine (8 + below) = 2 := if_neg (by omega)
    rw [hmaster]
    exact ⟨hfree, Or.inr ⟨below, Pic.lt_of_next hbelow, rfl,
      Pic.inService_of_next hbelow (Nat.le_refl below), rfl⟩⟩
  · rw [if_neg htwo] at hrest
    obtain ⟨rfl, rfl⟩ := Prod.mk.inj (Option.some.inj hrest)
    have hlt := Pic.lt_of_next hline
    have hmaster : masterLine line = line := if_pos hlt
    rw [hmaster]
    exact ⟨hfree, Or.inl ⟨hlt, rfl⟩⟩

end Pics

end PsychOS
