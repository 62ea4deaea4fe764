import WashingtonDC.Sh4.Cpu
import WashingtonDC.WordMask

/-!
# The interrupt controller of the SH4

Which interrupt is chosen, what a change of the status register does, and what entering an
exception or an interrupt does to the processor. Priorities among sources of the same level are
as the source has them; nothing is said about the order the hardware manual gives.
-/
namespace Sh4

open Option

variable {ω : Type}

/-! ## The choice -/

section
variable (reg : Nat → UInt32) (intc : Intc)

/-- A source that is asserted with a priority above `SR.IMASK`: the IRL bus, or a line. -/
inductive Eligible : IrqMeta → Prop
  | bus {irq : IrqMeta} (isIrl : irq.isIrl = true) (bus : irlBus reg = true)
      (asserted : intc.irlVal ≠ 15) (prio : imask reg < irlPrio intc.irlVal)
      (code : irq.code = irlCode intc.irlVal) : Eligible irq
  | line {irq : IrqMeta} (isLine : irq.isIrl = false) (inRange : irq.line ≤ lastLine reg)
      (asserted : intc.irqLines irq.line ≠ 0) (prio : imask reg < irqPrio reg irq.line)
      (code : irq.code = intc.irqLines irq.line) : Eligible irq

variable {reg intc}

variable {best : Option (Nat × Nat)} {lines : List Nat} {line : Nat}

theorem foldl_betterLine_some {prio : Nat}
    (h : lines.foldl (intc.betterLine reg) best = some (prio, line)) :
    best = some (prio, line) ∨
      line ∈ lines ∧ intc.irqLines line ≠ 0 ∧ imask reg < irqPrio reg line := by
  induction lines generalizing best with
  | nil => exact .inl h
  | cons l lines ih =>
    rw [List.foldl_cons] at h
    rcases ih h with hbest | ⟨hmem, hrest⟩
    · unfold Intc.betterLine at hbest
      split at hbest
      · rename_i hl
        cases hbest
        exact .inr ⟨by simp, hl.2.1, hl.1⟩
      · exact .inl hbest
    · exact .inr ⟨List.mem_cons_of_mem l hmem, hrest⟩

theorem foldl_betterLine_none (h : lines.foldl (intc.betterLine reg) best = none) :
    best = none ∧ ∀ line ∈ lines, intc.irqLines line ≠ 0 → ¬imask reg < irqPrio reg line := by
  induction lines generalizing best with
  | nil => exact ⟨h, by simp⟩
  | cons l lines ih =>
    obtain ⟨hbest, hrest⟩ := ih h
    unfold Intc.betterLine at hbest
    split at hbest
    · cases hbest
    · rename_i hl
      subst hbest
      refine ⟨rfl, ?_⟩
      simp only [List.forall_mem_cons]
      exact ⟨fun asserted prio => hl ⟨prio, asserted, rfl⟩, hrest⟩

theorem bestLine_some {prio : Nat} (h : intc.bestLine reg = some (prio, line)) :
    line ≤ lastLine reg ∧ intc.irqLines line ≠ 0 ∧ imask reg < irqPrio reg line := by
  rcases foldl_betterLine_some h with h | ⟨hmem, hrest⟩
  · cases h
  · exact ⟨by have := List.mem_range.mp hmem; omega, hrest⟩

theorem bestLine_none (h : intc.bestLine reg = none) (le : line ≤ lastLine reg)
    (asserted : intc.irqLines line ≠ 0) : ¬imask reg < irqPrio reg line :=
  (foldl_betterLine_none h).2 line (List.mem_range.mpr (by omega)) asserted

theorem getNextIrqLine_some {irq : IrqMeta} (h : intc.getNextIrqLine reg = some irq) :
    isBlocked reg = false ∧ Eligible reg intc irq := by
  unfold Intc.getNextIrqLine at h
  split at h
  · cases h
  rename_i hblocked
  refine ⟨by simpa using hblocked, ?_⟩
  split at h
  · rename_i hbus
    cases h
    exact .bus rfl hbus.1 hbus.2.1 hbus.2.2.2 rfl
  · obtain ⟨⟨prio, line⟩, hbest, rfl⟩ := map_eq_some_iff.mp h
    obtain ⟨hle, hasserted, hprio⟩ := bestLine_some hbest
    exact .line rfl hle hasserted hprio rfl

theorem getNextIrqLine_none (h : intc.getNextIrqLine reg = none) (unblocked : isBlocked reg = false)
    (irq : IrqMeta) : ¬Eligible reg intc irq := by
  unfold Intc.getNextIrqLine at h
  rw [if_neg (by simp [unblocked])] at h
  split at h
  · cases h
  rename_i hbus
  have hbest : intc.bestLine reg = none := map_eq_none_iff.mp h
  rintro (⟨-, bus, asserted, prio, -⟩ | ⟨-, le, asserted, prio, -⟩)
  · exact hbus ⟨bus, asserted, by rw [hbest]; rfl, prio⟩
  · exact bestLine_none hbest le asserted prio

end

/-! ## The registers that the choice depends on -/

structure SameInputs (reg reg' : Nat → UInt32) : Prop where
  sr : reg' regSr &&& intcSrBits = reg regSr &&& intcSrBits
  intc : ∀ i, regIcr ≤ i → i ≤ regIpra + 3 → reg' i = reg i

namespace SameInputs

variable {reg reg' reg'' : Nat → UInt32}

theorem refl (reg : Nat → UInt32) : SameInputs reg reg := ⟨rfl, fun _ _ _ => rfl⟩

theorem symm (same : SameInputs reg reg') : SameInputs reg' reg :=
  ⟨same.sr.symm, fun i lo hi => (same.intc i lo hi).symm⟩

theorem trans (first : SameInputs reg reg') (second : SameInputs reg' reg'') :
    SameInputs reg reg'' :=
  ⟨second.sr.trans first.sr, fun i lo hi => (second.intc i lo hi).trans (first.intc i lo hi)⟩

section
variable (same : SameInputs reg reg')
include same

theorem srBits {mask : UInt32} (inside : intcSrBits &&& mask = mask) :
    reg' regSr &&& mask = reg regSr &&& mask := by
  rw [← inside, ← UInt32.and_assoc, same.sr, UInt32.and_assoc]

theorem isBlocked : isBlocked reg' = isBlocked reg := by
  unfold Sh4.isBlocked
  rw [same.srBits rfl]

theorem imask : imask reg' = imask reg := by
  unfold Sh4.imask
  rw [same.srBits rfl]

theorem irlBus : irlBus reg' = irlBus reg := by
  unfold Sh4.irlBus
  rw [same.intc regIcr (by decide) (by decide)]

theorem lastLine : lastLine reg' = lastLine reg := by
  unfold Sh4.lastLine
  rw [same.irlBus]

theorem irqPrio {line : Nat} (le : line ≤ Sh4.lastLine reg) :
    irqPrio reg' line = irqPrio reg line := by
  have hline : line ≤ irqIrl0 := by
    unfold Sh4.lastLine at le
    split at le <;> simp only [irqGpio, irqIrl0] at le ⊢ <;> omega
  unfold Sh4.irqPrio
  rw [same.intc _ (by simp only [regIcr, regIpra]; omega)
    (by simp only [regIpra, irqIrl0] at hline ⊢; omega)]

theorem eligible {intc : Intc} {irq : IrqMeta} (h : Eligible reg intc irq) :
    Eligible reg' intc irq := by
  cases h with
  | bus isIrl bus asserted prio code =>
    exact .bus isIrl (same.irlBus.trans bus) asserted (same.imask ▸ prio) code
  | line isLine le asserted prio code =>
    refine .line isLine (same.lastLine ▸ le) asserted ?_ code
    rw [same.imask, same.irqPrio le]
    exact prio

end

end SameInputs

/-! ## Frames -/

/-- Only registers and the two flags of the refresh event may differ. -/
structure Frame (c c' : Cpu ω) : Prop where
  delayedBranch : c'.delayedBranch = c.delayedBranch
  delayedBranchAddr : c'.delayedBranchAddr = c.delayedBranchAddr
  execState : c'.execState = c.execState
  intc : c'.intc = c.intc
  refreshRunning : c'.refreshRunning = c.refreshRunning
  world : c'.world = c.world
  entered : c'.entered = c.entered

theorem Frame.refl (c : Cpu ω) : Frame c c := ⟨rfl, rfl, rfl, rfl, rfl, rfl, rfl⟩

theorem Frame.trans {c c' c'' : Cpu ω} (first : Frame c c') (second : Frame c' c'') :
    Frame c c'' :=
  ⟨second.1.trans first.1, second.2.trans first.2, second.3.trans first.3,
    second.4.trans first.4, second.5.trans first.5, second.6.trans first.6,
    second.7.trans first.7⟩

/-- The flags of the refresh event are as before, or the event was scheduled. -/
inductive Defers (c c' : Cpu ω) : Prop
  | kept (flag : c'.refreshScheduled = c.refreshScheduled)
      (queued : c'.refreshQueued = c.refreshQueued) : Defers c c'
  | scheduled (was : c.refreshScheduled = false) (free : c.refreshQueued = false)
      (flag : c'.refreshScheduled = true) (queued : c'.refreshQueued = true) : Defers c c'

theorem Defers.after {c b c' : Cpu ω} (defers : Defers b c')
    (flag : b.refreshScheduled = c.refreshScheduled) (queued : b.refreshQueued = c.refreshQueued) :
    Defers c c' := by
  cases defers with
  | kept flag' queued' => exact .kept (flag'.trans flag) (queued'.trans queued)
  | scheduled was free flag' queued' =>
    exact .scheduled (flag ▸ was) (queued ▸ free) flag' queued'

namespace Cpu

variable {c c' : Cpu ω}

theorem write_reg (c : Cpu ω) (i : Nat) (v : UInt32) (j : Nat) :
    (c.write i v).reg j = if j = i then v else c.reg j := by
  simp [write, Function.update_apply]

theorem write_frame (c : Cpu ω) (i : Nat) (v : UInt32) : Frame c (c.write i v) :=
  ⟨rfl, rfl, rfl, rfl, rfl, rfl, rfl⟩

theorem bankSwitchMaybe_frame (c : Cpu ω) (oldSr newSr : UInt32) :
    Frame c (c.bankSwitchMaybe oldSr newSr) := by
  unfold bankSwitchMaybe
  split <;> exact ⟨rfl, rfl, rfl, rfl, rfl, rfl, rfl⟩

theorem bankSwitchMaybe_flags (c : Cpu ω) (oldSr newSr : UInt32) :
    (c.bankSwitchMaybe oldSr newSr).refreshScheduled = c.refreshScheduled ∧
      (c.bankSwitchMaybe oldSr newSr).refreshQueued = c.refreshQueued := by
  unfold bankSwitchMaybe
  split <;> exact ⟨rfl, rfl⟩

theorem bankSwitchMaybe_reg (c : Cpu ω) (oldSr newSr : UInt32) {i : Nat} (high : 24 ≤ i) :
    (c.bankSwitchMaybe oldSr newSr).reg i = c.reg i := by
  unfold bankSwitchMaybe bankSwitch
  split
  · dsimp only
    rw [if_neg (by omega), if_neg (by omega)]
  · rfl

theorem refreshIntcDeferred_some (h : c.refreshIntcDeferred = some c') :
    Frame c c' ∧ Defers c c' ∧ c'.reg = c.reg ∧ c'.refreshScheduled = true := by
  unfold refreshIntcDeferred schedRefresh at h
  split at h
  · rename_i hflag
    split at h
    · cases h
    · rename_i hfree
      cases h
      exact ⟨⟨rfl, rfl, rfl, rfl, rfl, rfl, rfl⟩,
        .scheduled (by simpa using hflag) (by simpa using hfree) rfl rfl, rfl, rfl⟩
  · rename_i hflag
    cases h
    exact ⟨Frame.refl c, .kept rfl rfl, rfl, by simpa using hflag⟩

/-- What `setSr` leaves behind. -/
structure SetsSr (c : Cpu ω) (v : UInt32) (c' : Cpu ω) : Prop where
  frame : Frame c c'
  defers : Defers c c'
  reg : c'.reg = ((c.write regSr v).bankSwitchMaybe c.sr v).reg
  changed : c.sr &&& intcSrBits ≠ v &&& intcSrBits → c'.refreshScheduled = true

variable {code v : UInt32}

theorem setSr_some (h : c.setSr v = some c') : SetsSr c v c' := by
  have hsr : (c.write regSr v).sr = v := by simp [sr, write_reg]
  unfold setSr onSrChange at h
  rw [hsr] at h
  obtain ⟨c1, hrefresh, h⟩ := bind_eq_some_iff.mp h
  have hc : c1 = c' := by
    split at h
    · cases h
    · exact Option.some.inj h
  subst hc
  have hframe := (c.write regSr v).bankSwitchMaybe_frame c.sr v
  obtain ⟨hflag, hqueued⟩ := (c.write regSr v).bankSwitchMaybe_flags c.sr v
  unfold refreshIfChanged at hrefresh
  split at hrefresh
  · obtain ⟨hf, hdefers, hreg, hset⟩ := refreshIntcDeferred_some hrefresh
    exact ⟨(write_frame c _ _).trans (hframe.trans hf), hdefers.after hflag hqueued, hreg,
      fun _ => hset⟩
  · rename_i hsame
    cases hrefresh
    exact ⟨(write_frame c _ _).trans hframe, .kept hflag hqueued, rfl, fun hne => absurd hne hsame⟩

theorem SetsSr.sr (set : SetsSr c v c') : c'.reg regSr = v := by
  rw [set.reg, bankSwitchMaybe_reg _ _ _ (by decide), write_reg, if_pos rfl]

theorem SetsSr.reg_high (set : SetsSr c v c') {i : Nat} (high : 24 ≤ i) (ne : i ≠ regSr) :
    c'.reg i = c.reg i := by
  rw [set.reg, bankSwitchMaybe_reg _ _ _ high, write_reg, if_neg ne]

/-! ## Entering exceptions -/

theorem handlerSr_blocked (sr : UInt32) : handlerSr sr &&& srBlMask = srBlMask := by
  unfold handlerSr
  rw [WordMask.clear_and_of_disjoint _ (by decide)]
  exact WordMask.set_and_of_subset _ (by decide)

/-- What entering an exception leaves behind. -/
structure Enters (c : Cpu ω) (code : UInt32) (c' : Cpu ω) : Prop where
  frame : Frame c c'
  defers : Defers c c'
  blocked : isBlocked c'.reg = true
  spc : c'.reg regSpc = c.pc
  vector : ∃ offset, (code, offset) ∈ excpMeta ∧ c'.pc = vectorAddr (c.reg regVbr) offset code

theorem enterException_some (h : c.enterException code = some c') :
    ∃ offset c1, (code, offset) ∈ excpMeta ∧ SetsSr c.saved (handlerSr c.sr) c1 ∧
      c' = c1.write regPc (vectorAddr (c.reg regVbr) offset code) := by
  obtain ⟨⟨code', offset⟩, hfind, h⟩ := bind_eq_some_iff.mp h
  obtain ⟨c1, hset, h⟩ := bind_eq_some_iff.mp h
  cases h
  have hcode : code' = code := by simpa using List.find?_some hfind
  subst hcode
  have hset := setSr_some hset
  have hvbr : c1.reg regVbr = c.reg regVbr := by
    rw [hset.reg_high (by decide) (by decide)]
    simp [saved, write_reg]
  rw [hvbr]
  exact ⟨offset, c1, List.mem_of_find?_eq_some hfind, hset, rfl⟩

theorem enters_of_some (h : c.enterException code = some c') : Enters c code c' := by
  obtain ⟨offset, c1, hmem, hset, rfl⟩ := enterException_some h
  refine ⟨?_, ?_, ?_, ?_, offset, hmem, ?_⟩
  · obtain ⟨h1, h2, h3, h4, h5, h6, h7⟩ := hset.frame
    exact ⟨h1, h2, h3, h4, h5, h6, h7⟩
  · cases hset.defers with
    | kept flag queued => exact .kept flag queued
    | scheduled was free flag queued => exact .scheduled was free flag queued
  · have hsr : (c1.write regPc (vectorAddr (c.reg regVbr) offset code)).reg regSr =
        handlerSr c.sr := by
      rw [write_reg, if_neg (by decide), hset.sr]
    simp only [isBlocked, hsr, handlerSr_blocked]
    decide
  · rw [write_reg, if_neg (by decide), hset.reg_high (by decide) (by decide)]
    simp [saved, write_reg]
  · simp [pc, write_reg]

/-! ## Entering interrupts -/

def served (c : Cpu ω) (irq : IrqMeta) : Cpu ω :=
  { c.acknowledge irq with
    intc := { (c.acknowledge irq).intc with isIrqPending := false }, execState := .norm }

theorem acknowledge_reg (c : Cpu ω) (irq : IrqMeta) : (c.acknowledge irq).reg = c.reg := by
  unfold acknowledge
  split <;> rfl

theorem refreshIntcFuel_blocked (n : Nat) (blocked : isBlocked c.reg = true) :
    refreshIntcFuel (n + 1) c = some { c with intc.isIrqPending := false } := by
  have hnext : c.intc.getNextIrqLine c.reg = none := by simp [Intc.getNextIrqLine, blocked]
  simp [refreshIntcFuel, updatePending, hnext, checkInterrupts, checkInterruptsNoDelayBranchCheck]

theorem enterIrqFromMeta_eq (c : Cpu ω) (n : Nat) :
    c.enterIrqFromMeta (refreshIntcFuel (n + 1)) =
      c.enterPendingIrq.map (served · c.intc.pendingIrq) := by
  unfold enterIrqFromMeta
  cases henter : c.enterPendingIrq with
  | none => rfl
  | some c1 =>
    have hblocked : isBlocked (c1.acknowledge c.intc.pendingIrq).reg = true := by
      rw [acknowledge_reg]
      exact (enters_of_some henter).blocked
    simp only [bind_eq_bind, bind_some, refreshIntcFuel_blocked n hblocked]
    rfl

/-- A nested refresh enters no interrupt. -/
theorem refreshIntcFuel_eq (n : Nat) :
    refreshIntcFuel (n + 2) c =
      c.updatePending.checkInterrupts fun c => some { c with intc.isIrqPending := false } := by
  unfold refreshIntcFuel checkInterrupts checkInterruptsNoDelayBranchCheck
  rw [enterIrqFromMeta_eq, enterIrqFromMeta]
  cases c.updatePending.enterPendingIrq <;> rfl

/-- What entering the pending interrupt leaves behind. -/
structure EntersIrq (c c' : Cpu ω) : Prop where
  pending : c.intc.isIrqPending = true
  delayedBranch : c'.delayedBranch = c.delayedBranch
  delayedBranchAddr : c'.delayedBranchAddr = c.delayedBranchAddr
  idle : c'.intc.isIrqPending = false
  refreshRunning : c'.refreshRunning = c.refreshRunning
  defers : Defers c c'
  blocked : isBlocked c'.reg = true
  spc : c'.reg regSpc = c.pc
  vector : ∃ offset, (c.intc.pendingIrq.code, offset) ∈ excpMeta ∧
    c'.pc = vectorAddr (c.reg regVbr) offset c.intc.pendingIrq.code
  entered : c'.entered =
    ⟨c.intc.pendingIrq.code, some c.intc.pendingIrq, c.reg, c.intc⟩ :: c.entered

theorem checkInterruptsNoDelayBranchCheck_some {n : Nat}
    (h : c.checkInterruptsNoDelayBranchCheck (refreshIntcFuel (n + 1)) = some c') :
    c.intc.isIrqPending = false ∧ c' = c ∨ EntersIrq c c' := by
  unfold checkInterruptsNoDelayBranchCheck at h
  split at h
  · rename_i hpending
    rw [enterIrqFromMeta_eq, map_map] at h
    obtain ⟨c1, henter, rfl⟩ := map_eq_some_iff.mp h
    have henters := enters_of_some henter
    right
    have hack : (c1.acknowledge c.intc.pendingIrq).delayedBranch = c1.delayedBranch ∧
        (c1.acknowledge c.intc.pendingIrq).delayedBranchAddr = c1.delayedBranchAddr ∧
        (c1.acknowledge c.intc.pendingIrq).refreshRunning = c1.refreshRunning ∧
        (c1.acknowledge c.intc.pendingIrq).entered = c1.entered ∧
        (c1.acknowledge c.intc.pendingIrq).refreshScheduled = c1.refreshScheduled ∧
        (c1.acknowledge c.intc.pendingIrq).refreshQueued = c1.refreshQueued := by
      unfold acknowledge
      split <;> exact ⟨rfl, rfl, rfl, rfl, rfl, rfl⟩
    obtain ⟨h1, h0, h2, h3, h4, h5⟩ := hack
    have hreg := c1.acknowledge_reg c.intc.pendingIrq
    refine ⟨hpending, h1.trans henters.frame.delayedBranch,
      h0.trans henters.frame.delayedBranchAddr, rfl,
      h2.trans henters.frame.refreshRunning, ?_, ?_, ?_, ?_, h3.trans henters.frame.entered⟩
    · cases henters.defers with
      | kept flag queued => exact .kept (h4.trans flag) (h5.trans queued)
      | scheduled was free flag queued => exact .scheduled was free (h4.trans flag) (h5.trans queued)
    · exact (congrArg isBlocked hreg).trans henters.blocked
    · refine (congrFun hreg regSpc).trans (henters.spc.trans ?_)
      simp [pc, write_reg, record]
    · obtain ⟨offset, hmem, hpc⟩ := henters.vector
      refine ⟨offset, hmem, (congrFun hreg regPc).trans (hpc.trans ?_)⟩
      simp [write_reg, record]
  · rename_i hpending
    cases h
    exact .inl ⟨by simpa using hpending, rfl⟩

/-- What a refresh does: nothing is eligible, or the interrupt has to wait for the end of a delay
slot, or it is entered. -/
inductive Refreshes (c c' : Cpu ω) : Prop
  | idle (next : c.intc.getNextIrqLine c.reg = none)
      (eq : c' = { c with intc.isIrqPending := false }) : Refreshes c c'
  | waits {irq : IrqMeta} (next : c.intc.getNextIrqLine c.reg = some irq)
      (slot : c.delayedBranch = true)
      (eq : c' = c.pend irq) : Refreshes c c'
  | enters {irq : IrqMeta} (next : c.intc.getNextIrqLine c.reg = some irq)
      (noSlot : c.delayedBranch = false)
      (enters : EntersIrq (c.pend irq) c') : Refreshes c c'

theorem refreshIntc_some (h : c.refreshIntc = some c') : Refreshes c c' := by
  have h : c.updatePending.checkInterrupts (refreshIntcFuel 1) = some c' := h
  cases hnext : c.intc.getNextIrqLine c.reg with
  | none =>
    rw [show c.updatePending = { c with intc.isIrqPending := false } by
      simp only [updatePending, hnext]] at h
    refine .idle hnext ?_
    unfold checkInterrupts at h
    split at h
    · rcases checkInterruptsNoDelayBranchCheck_some h with ⟨-, rfl⟩ | henters
      · rfl
      · exact absurd henters.pending (by simp)
    · cases h
      rfl
  | some irq =>
    rw [show c.updatePending = c.pend irq by simp only [updatePending, hnext]] at h
    unfold checkInterrupts at h
    split at h
    · rename_i hslot
      refine .enters hnext (by simpa [pend] using hslot) ?_
      rcases checkInterruptsNoDelayBranchCheck_some h with ⟨hidle, -⟩ | henters
      · exact absurd hidle (by simp [pend])
      · exact henters
    · rename_i hslot
      cases h
      exact .waits hnext (by simpa [pend] using hslot) rfl

end Cpu

end Sh4
