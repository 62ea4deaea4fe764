import WashingtonDC.ByteMemory
import Mathlib.Data.UInt
import Mathlib.Tactic.IntervalCases

/-!
# The flash memory

`flash_mem.c`: bytes written to the flash memory are commands after an unlock, which is an AA at one
address and a 55 at another, with any other writes before each of the two. The contents are described
here by the history of writes alone. A command is the write right after an unlock; a command to
program a byte takes one more write, and a command to erase a sector has to follow a command 80.

An error of the source is `none`. The file from which the contents are loaded, and reads, are left
out.
-/
namespace FlashMem

open ByteMemory Option Function List

abbrev addrFlashFirst : UInt32 := 0x00200000

abbrev addrFlashLast : UInt32 := 0x0021ffff

inductive FlashState
  | aa | s55 | cmd | write | erase
deriving DecidableEq

structure Write where
  addr : UInt32
  val : UInt8
deriving DecidableEq

def Write.offs (w : Write) : Nat := (w.addr - addrFlashFirst).toNat

/-- `FLASH_ADDR_AA`. -/
def unlockAa : Write := ⟨0x00205555, 0xaa⟩

/-- `FLASH_ADDR_55`. -/
def unlock55 : Write := ⟨0x00202aaa, 0x55⟩

abbrev cmdErase : UInt8 := 0x30

abbrev cmdPreErase : UInt8 := 0x80

abbrev cmdWrite : UInt8 := 0xa0

/-- `FLASH_SECTOR_SIZE`. -/
abbrev sectorSize : Nat := 16384

structure Flash where
  state : FlashState
  eraseUnlocked : Bool
  contents : Memory

namespace Flash

variable (mem : Flash) (w : Write)

/-- `FLASH_SECTOR_MASK` clears the lower bits of the offset. -/
def doErase : Flash :=
  let sector := (w.addr - addrFlashFirst) &&& 0xffffc000
  { mem with contents := fill mem.contents sector.toNat sectorSize 0xff }

def doWriteCmd : Flash :=
  { mem with
    contents := update mem.contents w.offs (mem.contents w.offs &&& w.val)
    state := .aa }

def inputCmd : Option Flash :=
  if w.val = cmdErase then
    if mem.eraseUnlocked then some { mem.doErase w with state := .aa, eraseUnlocked := false }
    else none
  else if w.val = cmdPreErase then
    if mem.eraseUnlocked then none else some { mem with state := .aa, eraseUnlocked := true }
  else if w.val = cmdWrite then
    if mem.eraseUnlocked then none else some { mem with state := .write }
  else if mem.eraseUnlocked then none
  else some { mem with state := .aa }

def inputByte : Option Flash :=
  match mem.state with
  | .aa => some (if w = unlockAa then { mem with state := .s55 } else mem)
  | .s55 => some (if w = unlock55 then { mem with state := .cmd } else mem)
  | .cmd => mem.inputCmd w
  | .write => some (mem.doWriteCmd w)
  | .erase => none

/-- `flash_mem_write_8`. -/
def write8 : Option Flash :=
  if w.addr > addrFlashLast ∨ w.addr < addrFlashFirst then none else mem.inputByte w

def run (mem : Flash) (ws : List Write) : Option Flash := ws.foldlM write8 mem

end Flash

/-! ## Histories -/

def Unlock (since : List Write) : Prop :=
  ∃ garbage garbage', unlockAa ∉ garbage ∧ unlock55 ∉ garbage' ∧
    since = garbage ++ unlockAa :: (garbage' ++ [unlock55])

/-- A history that ends with a command and what belongs to it, and the command. Between two commands
there is a whole unlock. -/
inductive Commands : List Write → Option UInt8 → Prop
  | start : Commands [] none
  | command {ws prev since} (c : Write) : Commands ws prev → Unlock since → c.val ≠ cmdWrite →
      Commands (ws ++ since ++ [c]) (some c.val)
  | program {ws prev since} (c data : Write) : Commands ws prev → Unlock since →
      c.val = cmdWrite → Commands (ws ++ since ++ [c] ++ [data]) (some cmdWrite)

/-- The last write of a history is an unlocked command to program a byte. -/
def Programs (ws : List Write) : Prop :=
  ∃ before prev since c, Commands before prev ∧ Unlock since ∧ c.val = cmdWrite ∧
    ws = before ++ since ++ [c]

/-- After a history, the write is an unlocked command to erase, and the command before was 80. -/
def Erases (ws : List Write) (w : Write) : Prop :=
  ∃ before since, Commands before (some cmdPreErase) ∧ Unlock since ∧ w.val = cmdErase ∧
    ws = before ++ since

/-! ## What the state says about the history -/

variable {mem mem' : Flash} {ws : List Write} {w : Write}

theorem write8_eq_some (h : mem.write8 w = some mem') :
    mem.inputByte w = some mem' ∧ w.addr ≤ addrFlashLast ∧ addrFlashFirst ≤ w.addr := by
  unfold Flash.write8 at h
  split at h
  · cases h
  · rename_i hin
    rw [not_or, UInt32.not_lt, UInt32.not_lt] at hin
    exact ⟨h, hin⟩

theorem run_append {ws' : List Write} :
    mem.run (ws ++ ws') = (mem.run ws).bind fun mem => mem.run ws' :=
  foldlM_append

theorem run_singleton : mem.run [w] = mem.write8 w := by
  simp [Flash.run]

theorem run_garbage {u : Write} (waits : mem.state = .aa ∧ u = unlockAa ∨
    mem.state = .s55 ∧ u = unlock55) (absent : u ∉ ws) (h : mem.run ws = some mem') :
    mem' = mem := by
  induction ws with
  | nil => exact (Option.some.inj h).symm
  | cons w ws ih =>
    obtain ⟨hne, habsent⟩ := not_or.mp (mt mem_cons.mpr absent)
    obtain ⟨mid, hstep, hrest⟩ := bind_eq_some_iff.mp h
    obtain rfl : mem = mid := by
      have hbyte := (write8_eq_some hstep).1
      rcases waits with ⟨hstate, rfl⟩ | ⟨hstate, rfl⟩
      · simpa [Flash.inputByte, hstate, Ne.symm hne] using hbyte
      · simpa [Flash.inputByte, hstate, Ne.symm hne] using hbyte
    exact ih habsent hrest

theorem run_unlock (unlock : Unlock ws) (waits : mem.state = .aa) (h : mem.run ws = some mem') :
    mem' = { mem with state := .cmd } := by
  obtain ⟨garbage, garbage', habsent, habsent', rfl⟩ := unlock
  rw [run_append] at h
  obtain ⟨mid, hgarbage, h⟩ := bind_eq_some_iff.mp h
  rw [run_garbage (.inl ⟨waits, rfl⟩) habsent hgarbage] at h
  obtain ⟨mid', hfirst, h⟩ := bind_eq_some_iff.mp h
  have hfirst' := (write8_eq_some hfirst).1
  obtain rfl : { mem with state := .s55 } = mid' := by simpa [Flash.inputByte, waits] using hfirst'
  change Flash.run _ (garbage' ++ [unlock55]) = _ at h
  rw [run_append] at h
  obtain ⟨mid'', hgarbage', h⟩ := bind_eq_some_iff.mp h
  rw [run_garbage (.inr ⟨rfl, rfl⟩) habsent' hgarbage', run_singleton] at h
  have hsecond := (write8_eq_some h).1
  simpa [Flash.inputByte, eq_comm] using hsecond

theorem inputCmd_cases (h : mem.inputCmd w = some mem') :
    (w.val = cmdErase ∧ mem.eraseUnlocked = true ∧
      mem' = { mem.doErase w with state := .aa, eraseUnlocked := false }) ∨
    (w.val = cmdWrite ∧ mem.eraseUnlocked = false ∧ mem' = { mem with state := .write }) ∨
    (w.val ≠ cmdErase ∧ w.val ≠ cmdWrite ∧ mem.eraseUnlocked = false ∧
      mem' = { mem with state := .aa, eraseUnlocked := decide (w.val = cmdPreErase) }) := by
  unfold Flash.inputCmd at h
  split_ifs at h with hErase hUnlocked hPre hUnlocked hWrite hUnlocked hUnlocked <;> cases h
  · exact .inl ⟨hErase, hUnlocked, rfl⟩
  · refine .inr (.inr ⟨hErase, ?_, by simpa using hUnlocked, by simp [hPre]⟩)
    rw [hPre]
    decide
  · exact .inr (.inl ⟨hWrite, by simpa using hUnlocked, rfl⟩)
  · have hUnlocked' : mem.eraseUnlocked = false := by simpa using hUnlocked
    refine .inr (.inr ⟨hErase, hWrite, hUnlocked', ?_⟩)
    simp [hPre, hUnlocked']

/-- Before an unlock the flag tells whether the last command was 80. -/
structure Idle (mem : Flash) (prev : Option UInt8) : Prop where
  state : mem.state = .aa
  unlocked : mem.eraseUnlocked = decide (prev = some cmdPreErase)

variable {start : Flash} {prev : Option UInt8}

theorem Commands.idle (fresh : Idle start none) (commands : Commands ws prev)
    (h : start.run ws = some mem) : Idle mem prev := by
  induction commands generalizing mem with
  | start =>
    cases h
    exact fresh
  | command c _ unlock hc ih =>
    rw [run_append, run_append, bind_assoc] at h
    obtain ⟨before, hbefore, h⟩ := bind_eq_some_iff.mp h
    obtain ⟨open', hopen, h⟩ := bind_eq_some_iff.mp h
    obtain rfl := run_unlock unlock (ih hbefore).state hopen
    rw [run_singleton] at h
    rcases inputCmd_cases (write8_eq_some h).1 with ⟨hval, -, rfl⟩ | ⟨hval, -, -⟩ | ⟨-, -, -, rfl⟩
    · exact ⟨rfl, by rw [hval]; rfl⟩
    · exact absurd hval hc
    · exact ⟨rfl, by simp⟩
  | program c data _ unlock hc ih =>
    rw [run_append, run_append, run_append] at h
    obtain ⟨programmed, hprogrammed, h⟩ := bind_eq_some_iff.mp h
    obtain ⟨open', hopen, hcmd⟩ := bind_eq_some_iff.mp hprogrammed
    obtain ⟨before, hbefore, hopen⟩ := bind_eq_some_iff.mp hopen
    obtain rfl := run_unlock unlock (ih hbefore).state hopen
    rw [run_singleton] at h hcmd
    rcases inputCmd_cases (write8_eq_some hcmd).1 with ⟨hval, -, -⟩ | ⟨-, hlocked, rfl⟩ | ⟨-, hval, -⟩
    · exact absurd (hc.symm.trans hval) (by decide)
    · obtain rfl := Option.some.inj (write8_eq_some h).1
      exact ⟨rfl, hlocked.trans (by decide)⟩
    · exact absurd hc hval

/-- Every history that has been accepted ends in one of four ways. -/
inductive Tracks : Flash → List Write → Prop
  | aa {mem before prev garbage} (commands : Commands before prev) (absent : unlockAa ∉ garbage)
      (state : mem.state = .aa) : Tracks mem (before ++ garbage)
  | s55 {mem before prev garbage garbage'} (commands : Commands before prev)
      (absent : unlockAa ∉ garbage) (absent' : unlock55 ∉ garbage') (state : mem.state = .s55) :
      Tracks mem (before ++ (garbage ++ unlockAa :: garbage'))
  | cmd {mem before prev since} (commands : Commands before prev) (unlock : Unlock since)
      (state : mem.state = .cmd) : Tracks mem (before ++ since)
  | write {mem before prev since c} (commands : Commands before prev) (unlock : Unlock since)
      (program : c.val = cmdWrite) (state : mem.state = .write) :
      Tracks mem (before ++ since ++ [c])

theorem Commands.tracks (commands : Commands ws prev) (state : mem.state = .aa) :
    Tracks mem ws := by
  have h := Tracks.aa commands not_mem_nil state
  rwa [append_nil] at h

theorem Tracks.step (tracks : Tracks mem ws) (h : mem.write8 w = some mem') :
    Tracks mem' (ws ++ [w]) := by
  have hbyte := (write8_eq_some h).1
  cases tracks with
  | aa commands absent state =>
    simp only [Flash.inputByte, state, Option.some.injEq] at hbyte
    by_cases hw : w = unlockAa
    · subst hw
      rw [if_pos rfl] at hbyte
      rw [append_assoc]
      exact .s55 commands absent not_mem_nil (hbyte ▸ rfl)
    · rw [if_neg hw] at hbyte
      rw [append_assoc]
      exact .aa commands (by simp [absent, Ne.symm hw]) (hbyte ▸ state)
  | s55 commands absent absent' state =>
    simp only [Flash.inputByte, state, Option.some.injEq] at hbyte
    rw [append_assoc, append_assoc, cons_append]
    by_cases hw : w = unlock55
    · subst hw
      rw [if_pos rfl] at hbyte
      exact .cmd commands ⟨_, _, absent, absent', rfl⟩ (hbyte ▸ rfl)
    · rw [if_neg hw] at hbyte
      exact .s55 commands absent (by simp [absent', Ne.symm hw]) (hbyte ▸ state)
  | cmd commands unlock state =>
    simp only [Flash.inputByte, state] at hbyte
    rcases inputCmd_cases hbyte with ⟨hval, -, rfl⟩ | ⟨hval, -, rfl⟩ | ⟨-, hval, -, rfl⟩
    · exact (Commands.command w commands unlock (hval ▸ by decide)).tracks rfl
    · exact .write commands unlock hval rfl
    · exact (Commands.command w commands unlock hval).tracks rfl
  | write commands unlock program state =>
    simp only [Flash.inputByte, state, Option.some.injEq] at hbyte
    exact (Commands.program _ w commands unlock program).tracks (hbyte ▸ rfl)

section
variable (fresh : Idle start none)
include fresh

theorem tracks_run (h : start.run ws = some mem) : Tracks mem ws := by
  induction ws using reverseRecOn generalizing mem with
  | nil =>
    cases h
    exact Commands.start.tracks fresh.state
  | append_singleton ws w ih =>
    rw [run_append] at h
    obtain ⟨mid, hmid, hstep⟩ := bind_eq_some_iff.mp h
    rw [run_singleton] at hstep
    exact (ih hmid).step hstep

theorem Programs.state (programs : Programs ws) (h : start.run ws = some mem) :
    mem.state = .write := by
  obtain ⟨before, prev, since, c, commands, unlock, hc, rfl⟩ := programs
  rw [run_append, run_append, bind_assoc] at h
  obtain ⟨mid, hmid, h⟩ := bind_eq_some_iff.mp h
  obtain ⟨open', hopen, h⟩ := bind_eq_some_iff.mp h
  obtain rfl := run_unlock unlock (commands.idle fresh hmid).state hopen
  rw [run_singleton] at h
  rcases inputCmd_cases (write8_eq_some h).1 with ⟨hval, -, -⟩ | ⟨-, -, rfl⟩ | ⟨-, hval, -⟩
  · exact absurd (hc.symm.trans hval) (by decide)
  · rfl
  · exact absurd hc hval

theorem erases_iff (h : start.run ws = some mem) :
    Erases ws w ↔ mem.state = .cmd ∧ mem.eraseUnlocked = true ∧ w.val = cmdErase := by
  have hopened : ∀ {before since prev}, Commands before prev → Unlock since →
      ws = before ++ since → mem.state = .cmd ∧
        mem.eraseUnlocked = decide (prev = some cmdPreErase) := by
    rintro before since prev commands unlock rfl
    rw [run_append] at h
    obtain ⟨mid, hmid, hopen⟩ := bind_eq_some_iff.mp h
    obtain rfl := run_unlock unlock (commands.idle fresh hmid).state hopen
    exact ⟨rfl, (commands.idle fresh hmid).unlocked⟩
  constructor
  · rintro ⟨before, since, commands, unlock, hval, rfl⟩
    obtain ⟨hstate, hunlocked⟩ := hopened commands unlock rfl
    exact ⟨hstate, hunlocked.trans (by decide), hval⟩
  · rintro ⟨hstate, hunlocked, hval⟩
    cases tracks_run fresh h with
    | @cmd before prev since commands unlock state =>
      have hprev := (hopened commands unlock rfl).2
      rw [hunlocked, eq_comm, decide_eq_true_iff] at hprev
      exact ⟨before, since, hprev ▸ commands, unlock, hval, rfl⟩
    | aa _ _ state => exact absurd (state.symm.trans hstate) (by decide)
    | s55 _ _ _ state | write _ _ _ state => exact absurd (state.symm.trans hstate) (by decide)

theorem programs_iff (h : start.run ws = some mem) : Programs ws ↔ mem.state = .write := by
  refine ⟨fun programs => programs.state fresh h, fun hstate => ?_⟩
  cases tracks_run fresh h with
  | write commands unlock program _ => exact ⟨_, _, _, _, commands, unlock, program, rfl⟩
  | aa _ _ state | cmd _ _ state => exact absurd (state.symm.trans hstate) (by decide)
  | s55 _ _ _ state => exact absurd (state.symm.trans hstate) (by decide)

end

/-! ## What a write changes -/

theorem sector_eq (w : Write) :
    ((w.addr - addrFlashFirst) &&& (0xffffc000 : UInt32)).toNat =
      sectorSize * (w.offs / sectorSize) := by
  have hmask : ∀ x : UInt32, x &&& (0xffffc000 : UInt32) = (x >>> 14) <<< 14 := by
    intro x
    apply UInt32.toBitVec_inj.mp
    apply BitVec.eq_of_getLsbD_eq
    intro i hi
    simp only [UInt32.toBitVec_and, UInt32.toBitVec_shiftLeft, UInt32.toBitVec_shiftRight]
    interval_cases i <;> simp
  have hlt := (w.addr - addrFlashFirst).toNat_lt
  rw [hmask, UInt32.toNat_shiftLeft, UInt32.toNat_shiftRight]
  simp only [Write.offs, sectorSize, UInt32.reduceToNat, Nat.reduceMod, Nat.shiftLeft_eq,
    Nat.shiftRight_eq_div_pow]
  omega

/-- What one write does to the contents after a history. -/
structure Changes (ws : List Write) (w : Write) (old new : Memory) : Prop where
  programs : Programs ws → new = update old w.offs (old w.offs &&& w.val)
  erases : Erases ws w → new = fill old (sectorSize * (w.offs / sectorSize)) sectorSize 0xff
  otherwise : ¬Programs ws → ¬Erases ws w → new = old
  place : ∀ o, new o ≠ old o → Programs ws ∧ o = w.offs ∨
    Erases ws w ∧ o / sectorSize = w.offs / sectorSize
  bits : ∀ o k, (old o).toBitVec.getLsbD k = false → (new o).toBitVec.getLsbD k = true → Erases ws w

theorem changes_of {old new : Memory}
    (programs : Programs ws → new = update old w.offs (old w.offs &&& w.val))
    (erases : Erases ws w → new = fill old (sectorSize * (w.offs / sectorSize)) sectorSize 0xff)
    (otherwise : ¬Programs ws → ¬Erases ws w → new = old) : Changes ws w old new := by
  refine ⟨programs, erases, otherwise, fun o hne => ?_, fun o k hzero hone => ?_⟩
  · by_cases herase : Erases ws w
    · refine .inr ⟨herase, ?_⟩
      by_contra hout
      refine hne ?_
      rw [erases herase]
      unfold sectorSize at hout ⊢
      exact fill_outside _ (by omega)
    · by_cases hprogram : Programs ws
      · refine .inl ⟨hprogram, ?_⟩
        by_contra hout
        exact hne (by rw [programs hprogram, update_of_ne hout])
      · exact absurd (congrFun (otherwise hprogram herase) o) hne
  · by_contra herase
    by_cases hprogram : Programs ws
    · rw [programs hprogram, update_apply] at hone
      split at hone
      · rename_i heq
        simp [← heq, hzero] at hone
      · simp [hzero] at hone
    · simp [otherwise hprogram herase, hzero] at hone

/-- After any writes that are accepted, one more that is accepted changes the contents in no other
way than by a command that was unlocked. -/
theorem write8_changes {start : Flash} (fresh : start.state = .aa ∧ start.eraseUnlocked = false)
    (ran : start.run ws = some mem) (accepted : mem.write8 w = some mem') :
    w.offs < 0x20000 ∧ Changes ws w mem.contents mem'.contents := by
  have hidle : Idle start none := ⟨fresh.1, fresh.2.trans (by decide)⟩
  obtain ⟨hbyte, hlast, hfirst⟩ := write8_eq_some accepted
  refine ⟨?_, changes_of (fun programs => ?_) (fun erases => ?_) fun noProgram noErase => ?_⟩
  · rw [Write.offs, UInt32.toNat_sub_of_le _ _ hfirst]
    have hlast' : w.addr.toNat ≤ 0x21ffff := hlast
    change w.addr.toNat - 0x200000 < _
    omega
  · simp only [Flash.inputByte, (programs_iff hidle ran).mp programs, Option.some.injEq] at hbyte
    exact hbyte ▸ rfl
  · obtain ⟨hstate, hunlocked, hval⟩ := (erases_iff hidle ran).mp erases
    simp only [Flash.inputByte, hstate, Flash.inputCmd, hval, hunlocked, if_true,
      Option.some.injEq] at hbyte
    rw [← hbyte, ← sector_eq]
    rfl
  · rw [programs_iff hidle ran] at noProgram
    rw [erases_iff hidle ran] at noErase
    cases hstate : mem.state with
    | aa | s55 =>
      simp only [Flash.inputByte, hstate, Option.some.injEq] at hbyte
      rw [← hbyte]
      split <;> rfl
    | cmd =>
      simp only [Flash.inputByte, hstate] at hbyte
      rcases inputCmd_cases hbyte with ⟨hval, hunlocked, -⟩ | ⟨-, -, rfl⟩ | ⟨-, -, -, rfl⟩
      · exact absurd ⟨hstate, hunlocked, hval⟩ noErase
      · rfl
      · rfl
    | write => exact absurd hstate noProgram
    | erase => simp [Flash.inputByte, hstate] at hbyte

def programmed : List Write := [⟨0x00200000, 0xaa⟩, unlockAa, unlock55, ⟨0x00205555, 0xa0⟩]

theorem write8_changes_programmed :
    let start : Flash := ⟨.aa, false, fun _ => 0xf0⟩
    ∃ mem mem' : Flash, start.run programmed = some mem ∧
      mem.write8 ⟨0x00200010, 0x3c⟩ = some mem' ∧
      Changes programmed ⟨0x00200010, 0x3c⟩ mem.contents mem'.contents ∧
      mem'.contents 0x10 = 0x30 := by
  refine ⟨_, _, rfl, rfl, (@write8_changes _ _ _ _ ⟨.aa, false, fun _ => 0xf0⟩ ⟨rfl, rfl⟩ rfl rfl).2,
    by decide⟩

end FlashMem
