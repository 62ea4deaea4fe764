import WashingtonDC.Sh4.Steps

/-!
# Pending interrupts of the SH4

No eligible interrupt is forgotten, whatever instructions, device events and register writes are
interleaved. An interrupt that was found eligible is entered while it still is, except at the end
of a delay slot whose instruction changed the interrupt mask or the priorities.
-/
namespace Sh4

open Relation Lockstep Option Cpu Bool

variable {ω : Type}

/-! ## No interrupt is forgotten -/

/-- The bookkeeping of the refresh event, and the interrupts it stands for. -/
structure Remembers (c : Cpu ω) : Prop where
  eligible : isBlocked c.reg = false → ∀ irq, Eligible c.reg c.intc irq →
    c.intc.isIrqPending = true ∨ c.refreshScheduled = true
  flag : c.refreshScheduled = (c.refreshQueued || c.refreshRunning)
  single : c.refreshQueued = true → c.refreshRunning = false

section
variable {c c' : Cpu ω}

variable {irq : IrqMeta}

theorem Eligible.of_lines {reg : Nat → UInt32} {intc intc' : Intc}
    (lines : intc'.irqLines = intc.irqLines) (h : Eligible reg intc' irq) :
    Eligible reg intc irq := by
  have hval : intc'.irlVal = intc.irlVal := by simp only [Intc.irlVal, lines]
  cases h with
  | bus isIrl bus asserted prio code =>
    exact .bus isIrl bus (hval ▸ asserted) (hval ▸ prio) (hval ▸ code)
  | line isLine inRange asserted prio code =>
    exact .line isLine inRange (lines ▸ asserted) prio (lines ▸ code)

theorem Eligible.pend (h : Eligible c.reg c.intc irq) : Eligible c.reg (c.pend irq).intc irq :=
  h.of_lines (show c.intc.irqLines = (c.pend irq).intc.irqLines from rfl)

theorem Remembers.flags (rem : Remembers c) (defers : Defers c c')
    (running : c'.refreshRunning = c.refreshRunning) :
    c'.refreshScheduled = (c'.refreshQueued || c'.refreshRunning) ∧
      (c'.refreshQueued = true → c'.refreshRunning = false) := by
  cases defers with
  | kept flag queued =>
    rw [flag, queued, running]
    exact ⟨rem.flag, rem.single⟩
  | scheduled was free flag queued =>
    have hrunning : c.refreshRunning = false := by
      have hflag := rem.flag
      rw [was, free] at hflag
      simpa using hflag.symm
    rw [flag, queued, running, hrunning]
    exact ⟨rfl, fun _ => rfl⟩

theorem eligible_of_refresh (h : c.refreshIntc = some c') (unblocked : isBlocked c'.reg = false)
    (eligible : Eligible c'.reg c'.intc irq) : c'.intc.isIrqPending = true := by
  cases refreshIntc_some h with
  | idle next eq =>
    subst eq
    have hlines : ({ c.intc with isIrqPending := false } : Intc).irqLines = c.intc.irqLines := rfl
    exact absurd (eligible.of_lines hlines) (getNextIrqLine_none next unblocked irq)
  | waits next slot eq =>
    subst eq
    rfl
  | enters next noSlot enters =>
    rw [enters.blocked] at unblocked
    cases unblocked

theorem defers_of_refresh (h : c.refreshIntc = some c') :
    Defers c c' ∧ c'.refreshRunning = c.refreshRunning := by
  cases refreshIntc_some h with
  | idle next eq | waits next slot eq =>
    subst eq
    exact ⟨.kept rfl rfl, rfl⟩
  | enters next noSlot enters => exact ⟨enters.defers.after rfl rfl, enters.refreshRunning⟩

section
variable (rem : Remembers c)
include rem

theorem Remembers.refresh {b : Cpu ω} (flag : b.refreshScheduled = c.refreshScheduled)
    (queued : b.refreshQueued = c.refreshQueued) (running : b.refreshRunning = c.refreshRunning)
    (h : b.refreshIntc = some c') :
    Remembers c' := by
  obtain ⟨hdefers, hrunning⟩ := defers_of_refresh h
  obtain ⟨hflag, hsingle⟩ := rem.flags (hdefers.after flag queued) (hrunning.trans running)
  exact ⟨fun unblocked irq eligible => .inl (eligible_of_refresh h unblocked eligible), hflag, hsingle⟩

theorem Remembers.irl {val : UInt32} (h : c.setIrlInterrupt val = some c') : Remembers c' :=
  rem.refresh (b := c.setIrlLines val) rfl rfl rfl h

theorem Remembers.blocked (blocked : isBlocked c'.reg = true) (defers : Defers c c')
    (running : c'.refreshRunning = c.refreshRunning) : Remembers c' := by
  obtain ⟨hflag, hsingle⟩ := rem.flags defers running
  refine ⟨fun unblocked => ?_, hflag, hsingle⟩
  rw [blocked] at unblocked
  cases unblocked

theorem Remembers.inputs (intc : c'.intc = c.intc) (defers : Defers c c')
    (running : c'.refreshRunning = c.refreshRunning)
    (inputs : SameInputs c.reg c'.reg ∨ c'.refreshScheduled = true) : Remembers c' := by
  obtain ⟨hflag, hsingle⟩ := rem.flags defers running
  refine ⟨fun unblocked irq eligible => ?_, hflag, hsingle⟩
  rcases inputs with same | scheduled
  · rw [intc] at eligible ⊢
    rw [same.isBlocked] at unblocked
    rcases rem.eligible unblocked irq (same.symm.eligible eligible) with pending | scheduled
    · exact .inl pending
    · right
      cases defers with
      | kept flag queued => exact flag.trans scheduled
      | scheduled was free flag queued => exact flag
  · exact .inr scheduled

theorem Remembers.calm (calm : Calm c c') : Remembers c' :=
  rem.inputs calm.intc (.kept calm.refreshScheduled calm.refreshQueued) calm.refreshRunning
    (.inl calm.inputs)

theorem Remembers.setSr {v : UInt32} (set : SetsSr c v c') : Remembers c' := by
  refine rem.inputs set.frame.intc set.defers set.frame.refreshRunning ?_
  by_cases hsame : c.sr &&& intcSrBits = v &&& intcSrBits
  · exact .inl (set.sameInputs hsame)
  · exact .inr (set.changed hsame)

theorem Remembers.intcReg {i : Nat} {v : UInt32} (h : (c.write i v).refreshIntcDeferred = some c') :
    Remembers c' := by
  obtain ⟨hframe, hdefers, -, hflag⟩ := refreshIntcDeferred_some h
  exact rem.inputs hframe.intc (hdefers.after rfl rfl) hframe.refreshRunning (.inr hflag)

theorem Remembers.excp {code : UInt32} (h : c.setException code = some c') : Remembers c' := by
  have henters := enters_of_some h
  exact rem.blocked henters.blocked (henters.defers.after rfl rfl) henters.frame.refreshRunning

variable {loud : Bool} {addr : UInt32} {inst : UInt16} {env : Env ω}

theorem Remembers.prim (step : Prim loud c c') : Remembers c' := by
  cases step with
  | calm calm => exact rem.calm calm
  | irl val set => exact rem.irl set
  | setSr v isLoud set => exact rem.setSr set
  | intcReg isLoud i v set => exact rem.intcReg set
  | excp isLoud code set => exact rem.excp set

theorem Remembers.prims (steps : ReflTransGen (Prim loud) c c') : Remembers c' := by
  induction steps with
  | refl => exact rem
  | tail _ step ih => exact ih.prim step

theorem Remembers.branches (step : Branches c addr c') : Remembers c' :=
  rem.inputs step.intc step.defers step.refreshRunning step.inputs

theorem Remembers.finishInst {slot : Bool} (h : c.finishInst inst slot addr = some c') :
    Remembers c' := by
  have hadv := rem.calm (Calm.advance c inst)
  unfold Cpu.finishInst at h
  split at h
  · have hpc := hadv.calm (Calm.write (c.advance inst) addr (i := regPc) (by decide) (.inl (by decide)))
    have hslot : Remembers { (c.advance inst).write regPc addr with delayedBranch := false } :=
      ⟨hpc.eligible, hpc.flag, hpc.single⟩
    rcases checkInterruptsNoDelayBranchCheck_some (n := 1) h with ⟨-, rfl⟩ | enters
    · exact hslot
    · exact hslot.blocked enters.blocked enters.defers enters.refreshRunning
  · cases h
    exact hadv

theorem Remembers.doExecInst (h : c.doExecInst env inst = some c') : Remembers c' := by
  simp only [Cpu.doExecInst] at h
  split at h
  · obtain ⟨c1, hrun, hfinish⟩ := bind_eq_some_iff.mp h
    rcases OpFunc.run_some hrun with ⟨addr, -, hbranch⟩ | ⟨-, hsteps⟩
    · exact (rem.branches hbranch).finishInst hfinish
    · exact (rem.prims hsteps).finishInst hfinish
  · exact rem.excp h

theorem Remembers.act {a : Action} (h : c.act env a = some c') : Remembers c' := by
  unfold Cpu.act at h
  split at h
  · exact rem.doExecInst h
  · rename_i line code _
    exact rem.refresh (b := c.setLine line code) rfl rfl rfl h
  · exact rem.irl h
  · split at h
    · rename_i hqueued
      cases h
      refine ⟨rem.eligible, ?_, nofun⟩
      exact rem.flag.trans (by simp [hqueued])
    · cases h
  · rename_i hrunning
    obtain ⟨c2, hc2, rfl⟩ := map_eq_some_iff.mp h
    obtain ⟨c1, hrefresh, rfl⟩ := map_eq_some_iff.mp hc2
    obtain ⟨hdefers, hrun⟩ := defers_of_refresh hrefresh
    have hflags := (rem.flags hdefers hrun).2
    have hfree : c1.refreshQueued = false := by
      cases hq : c1.refreshQueued with
      | false => rfl
      | true => rw [hrun, hrunning] at hflags; exact absurd (hflags hq) (by simp)
    have hpending : isBlocked c1.reg = false → ∀ irq, Eligible c1.reg c1.intc irq →
        c1.intc.isIrqPending = true :=
      fun unblocked irq eligible => eligible_of_refresh hrefresh unblocked eligible
    exact ⟨fun unblocked irq eligible => .inl (hpending unblocked irq eligible), by simp [hfree],
      fun _ => rfl⟩
  · cases h

end

end

/-- What can happen to the interrupt controller: an action, a write to one of the registers, or a
new value of the status register from the debugger. -/
inductive Op
  | act (a : Action)
  | effect (e : Effect)
  | setSr (val : UInt32)

def Cpu.doOp (env : Env ω) (c : Cpu ω) : Op → Option (Cpu ω)
  | .act a => c.act env a
  | .effect e => if c.refreshRunning then none else c.apply e
  | .setSr val => if c.refreshRunning then none else c.setIndividualReg regSr val

theorem Remembers.doOp {env : Env ω} {c c' : Cpu ω} {op : Op} (rem : Remembers c)
    (h : c.doOp env op = some c') : Remembers c' := by
  cases op with
  | act a => exact rem.act h
  | effect e =>
    simp only [Cpu.doOp] at h
    split at h
    · cases h
    · have step : Prim true _ _ := Prim.apply (.inr rfl) h
      exact rem.prim step
  | setSr val =>
    simp only [Cpu.doOp] at h
    split at h
    · cases h
    · exact rem.setSr (setSr_some h)

/-- The state after a reset: interrupts are blocked and no refresh is scheduled. -/
structure Cpu.IsReset (c : Cpu ω) : Prop where
  blocked : isBlocked c.reg = true
  notScheduled : c.refreshScheduled = false
  notQueued : c.refreshQueued = false
  notRunning : c.refreshRunning = false

/-- From a reset on, in every interleaving: an eligible interrupt is pending, or a refresh is in
the event list or being handled, and the flag says whether it is one of the two. -/
theorem no_interrupt_forgotten (env : Env ω) (c₀ c : Cpu ω) (reset : c₀.IsReset) (ops : List Op)
    (reached : ops.foldlM (Cpu.doOp env) c₀ = some c) :
    (isBlocked c.reg = false → (∃ irq, Eligible c.reg c.intc irq) →
      c.intc.isIrqPending = true ∨ c.refreshQueued = true ∨ c.refreshRunning = true) ∧
      (c.refreshScheduled = true ↔ c.refreshQueued = true ∨ c.refreshRunning = true) := by
  have hstart : Remembers c₀ := by
    refine ⟨fun unblocked => ?_, ?_, ?_⟩
    · rw [reset.blocked] at unblocked
      cases unblocked
    · rw [reset.notScheduled, reset.notQueued, reset.notRunning]
      rfl
    · exact fun _ => reset.notRunning
  have hrem : Remembers c := foldlM_invariant (fun _ h rem => rem.doOp h) reached hstart
  constructor
  · rintro unblocked ⟨irq, eligible⟩
    refine (hrem.eligible unblocked irq eligible).imp_right fun hflag => ?_
    rwa [hrem.flag, or_eq_true] at hflag
  · rw [hrem.flag, or_eq_true]

/-- R0 is a status register with interrupts unblocked, R1 one with interrupts blocked, and line 3
has priority 15. -/
def unblockingCpu : Cpu Unit :=
  resetCpu fun i =>
    if i = 0 then 0x60000000 else if i = 1 then 0x700000f0 else if i = regIpra then 0xf000 else 0

/-- LDC R0,SR unblocks interrupts and a refresh runs; RTS takes a branch, and in its delay slot
line 3 is asserted. -/
def assertInSlot : List Action :=
  [.inst 0x400e, .popRefresh, .runRefresh, .inst 0x000b, .setInterrupt 3 0x400]

/-- Line 3 is asserted with priority 15, interrupts are not blocked and the mask is zero. -/
def Cpu.line3Asserted (c : Cpu ω) : Bool :=
  !isBlocked c.reg && c.intc.irqLines 3 != 0 && lastLine c.reg == 11 && imask c.reg == 0 &&
    irqPrio c.reg 3 == 15

theorem Cpu.line3Asserted_eligible {c : Cpu ω} (h : c.line3Asserted = true) :
    isBlocked c.reg = false ∧ ∃ irq, Eligible c.reg c.intc irq := by
  simp only [line3Asserted, and_eq_true, not_eq_true', bne_iff_ne, beq_iff_eq] at h
  obtain ⟨⟨⟨⟨hopen, hasserted⟩, hlast⟩, hmask⟩, hprio⟩ := h
  refine ⟨hopen, ⟨false, c.intc.irqLines 3, 3⟩, ?_⟩
  exact .line rfl (by simp [hlast]) hasserted (by simp [hmask, hprio]) rfl

theorem assertInSlot_remembered :
    ∃ c, (assertInSlot.map Op.act).foldlM (Cpu.doOp bareEnv) unblockingCpu = some c ∧
      c.line3Asserted = true ∧
      (c.intc.isIrqPending = true ∨ c.refreshQueued = true ∨ c.refreshRunning = true) := by
  have hrun : ((assertInSlot.map Op.act).foldlM (Cpu.doOp bareEnv) unblockingCpu).any
      Cpu.line3Asserted = true := by
    decide +kernel
  obtain ⟨c, hc, h⟩ := (any_eq_true _ _).mp hrun
  obtain ⟨hopen, heligible⟩ := line3Asserted_eligible h
  have hforgotten := no_interrupt_forgotten bareEnv unblockingCpu c ⟨by decide, rfl, rfl, rfl⟩ _ hc
  exact ⟨c, hc, h, hforgotten.1 hopen heligible⟩

/-- Line 3 is asserted while interrupts are blocked, LDC R0,SR unblocks them and schedules a
refresh. When the refresh has been taken from the event list, the interrupt is not pending yet. -/
theorem popped_refresh_not_in_list :
    ∃ c, [Op.act (.setInterrupt 3 0x400), .act (.inst 0x400e), .act .popRefresh].foldlM
        (Cpu.doOp bareEnv) unblockingCpu = some c ∧
      isBlocked c.reg = false ∧ (∃ irq, Eligible c.reg c.intc irq) ∧
      c.intc.isIrqPending = false ∧ c.refreshQueued = false := by
  have hrun : ([Op.act (.setInterrupt 3 0x400), .act (.inst 0x400e), .act .popRefresh].foldlM
      (Cpu.doOp bareEnv) unblockingCpu).any
      (fun c => c.line3Asserted && !c.intc.isIrqPending && !c.refreshQueued) = true := by
    decide +kernel
  obtain ⟨c, hc, h⟩ := (any_eq_true _ _).mp hrun
  simp only [and_eq_true, not_eq_true'] at h
  obtain ⟨hopen, heligible⟩ := line3Asserted_eligible h.1.1
  exact ⟨c, hc, hopen, heligible, h.1.2, h.2⟩

/-! ## Interrupts are entered while they are eligible -/

/-- Interrupts were not blocked when the entry was made, and the source was eligible. -/
def Entry.Proper (e : Entry) : Prop :=
  ∀ irq, e.irq = some irq → isBlocked e.reg = false ∧ Eligible e.reg e.intc irq

def Cpu.Current (c : Cpu ω) : Prop :=
  c.intc.isIrqPending = true → isBlocked c.reg = false ∧ Eligible c.reg c.intc c.intc.pendingIrq

section
variable {c c' : Cpu ω}

/-- An entry is added to the history, if at all, in a proper state. -/
def Logs (c c' : Cpu ω) : Prop :=
  (∀ e ∈ c.entered, e.Proper) → ∀ e ∈ c'.entered, e.Proper

theorem Logs.same (same : c'.entered = c.entered) : Logs c c' := by
  intro h
  rw [same]
  exact h

theorem Logs.trans {c'' : Cpu ω} (first : Logs c c') (second : Logs c' c'') : Logs c c'' :=
  second ∘ first

theorem Logs.entersIrq (enters : EntersIrq c c')
    (proper : isBlocked c.reg = false ∧ Eligible c.reg c.intc c.intc.pendingIrq) :
    Logs c c' := by
  intro h
  rw [enters.entered, List.forall_mem_cons]
  refine ⟨?_, h⟩
  rintro irq hirq
  cases hirq
  exact proper

theorem Logs.excp {code : UInt32} (h : c.setException code = some c') : Logs c c' := by
  have henters := enters_of_some h
  intro hall
  rw [henters.frame.entered]
  exact List.forall_mem_cons.mpr ⟨nofun, hall⟩

theorem refresh_prompt (h : c.refreshIntc = some c') :
    Logs c c' ∧ c'.Current ∧ c'.delayedBranch = c.delayedBranch ∧
      (c'.intc.isIrqPending = true → c.delayedBranch = true) := by
  cases refreshIntc_some h with
  | idle next eq =>
    subst eq
    exact ⟨.same rfl, nofun, rfl, nofun⟩
  | waits next slot eq =>
    subst eq
    obtain ⟨unblocked, eligible⟩ := getNextIrqLine_some next
    exact ⟨.same rfl, fun _ => ⟨unblocked, eligible.pend⟩, rfl, fun _ => slot⟩
  | enters next noSlot enters =>
    obtain ⟨unblocked, eligible⟩ := getNextIrqLine_some next
    refine ⟨Logs.entersIrq (c := c.pend _) enters ⟨unblocked, eligible.pend⟩, ?_,
      enters.delayedBranch, ?_⟩
    · intro pending
      rw [enters.idle] at pending
      cases pending
    · intro pending
      rw [enters.idle] at pending
      cases pending

variable {loud : Bool}

theorem Prim.outside (step : Prim loud c c') (noSlot : c.delayedBranch = false)
    (idle : c.intc.isIrqPending = false) :
    Logs c c' ∧ c'.delayedBranch = false ∧ c'.intc.isIrqPending = false := by
  cases step with
  | calm calm =>
    exact ⟨.same calm.entered, calm.delayedBranch.trans noSlot, by rw [calm.intc]; exact idle⟩
  | irl val set =>
    obtain ⟨hlogs, -, hslot, hpending⟩ := refresh_prompt (c := c.setIrlLines val) set
    refine ⟨hlogs, hslot.trans noSlot, ?_⟩
    by_contra hne
    have hslot : c.delayedBranch = true := hpending (by simpa using hne)
    rw [noSlot] at hslot
    cases hslot
  | setSr v isLoud set =>
    exact ⟨.same set.frame.entered, set.frame.delayedBranch.trans noSlot,
      by rw [set.frame.intc]; exact idle⟩
  | intcReg isLoud i v set =>
    obtain ⟨hframe, -, -, -⟩ := refreshIntcDeferred_some set
    exact ⟨.same hframe.entered, hframe.delayedBranch.trans noSlot,
      by rw [hframe.intc]; exact idle⟩
  | excp isLoud code set =>
    have hframe := (enters_of_some set).frame
    exact ⟨.excp set, hframe.delayedBranch.trans noSlot, by rw [hframe.intc]; exact idle⟩

theorem prims_outside (steps : ReflTransGen (Prim loud) c c') (noSlot : c.delayedBranch = false)
    (idle : c.intc.isIrqPending = false) :
    Logs c c' ∧ c'.delayedBranch = false ∧ c'.intc.isIrqPending = false := by
  induction steps with
  | refl => exact ⟨.same rfl, noSlot, idle⟩
  | tail _ step ih =>
    obtain ⟨hlogs, hslot, hidle⟩ := ih
    obtain ⟨hlogs', hrest⟩ := step.outside hslot hidle
    exact ⟨hlogs.trans hlogs', hrest⟩

theorem Prim.inSlot (step : Prim loud c c') (slot : c.delayedBranch = true) :
    Logs c c' ∧ c'.delayedBranch = true ∧ (loud = false → c.Current → c'.Current) := by
  cases step with
  | calm calm =>
    refine ⟨.same calm.entered, calm.delayedBranch.trans slot, fun _ current pending => ?_⟩
    rw [calm.intc] at pending ⊢
    obtain ⟨unblocked, eligible⟩ := current pending
    exact ⟨calm.inputs.isBlocked.trans unblocked, calm.inputs.eligible eligible⟩
  | irl val set =>
    obtain ⟨hlogs, hcurrent, hslot, -⟩ := refresh_prompt (c := c.setIrlLines val) set
    exact ⟨hlogs, hslot.trans slot, fun _ _ => hcurrent⟩
  | setSr v isLoud set =>
    refine ⟨.same set.frame.entered, set.frame.delayedBranch.trans slot, ?_⟩
    intro hquiet current pending
    have hsame : c.sameIntcBits v = true := isLoud.resolve_right (by rw [hquiet]; decide)
    have hinputs := set.sameInputs (beq_iff_eq.mp hsame)
    rw [set.frame.intc] at pending ⊢
    obtain ⟨unblocked, eligible⟩ := current pending
    exact ⟨hinputs.isBlocked.trans unblocked, hinputs.eligible eligible⟩
  | intcReg isLoud i v set =>
    obtain ⟨hframe, -, -, -⟩ := refreshIntcDeferred_some set
    refine ⟨.same hframe.entered, hframe.delayedBranch.trans slot, fun hquiet => ?_⟩
    rw [isLoud] at hquiet
    cases hquiet
  | excp isLoud code set =>
    refine ⟨.excp set, (enters_of_some set).frame.delayedBranch.trans slot, fun hquiet => ?_⟩
    rw [isLoud] at hquiet
    cases hquiet

theorem prims_inSlot (steps : ReflTransGen (Prim loud) c c') (slot : c.delayedBranch = true) :
    Logs c c' ∧ c'.delayedBranch = true ∧ (loud = false → c.Current → c'.Current) := by
  induction steps with
  | refl => exact ⟨.same rfl, slot, fun _ => id⟩
  | tail _ step ih =>
    obtain ⟨hlogs, hslot, hcurrent⟩ := ih
    obtain ⟨hlogs', hslot', hcurrent'⟩ := step.inSlot hslot
    exact ⟨hlogs.trans hlogs', hslot', fun quiet => hcurrent' quiet ∘ hcurrent quiet⟩

end

/-! ### Instructions -/

/-- The invariant: what is pending waits for the end of a delay slot and can be entered. -/
structure Prompt (c : Cpu ω) : Prop where
  current : c.Current
  slot : c.intc.isIrqPending = true → c.delayedBranch = true
  entered : ∀ e ∈ c.entered, e.Proper

/-- An instruction in a delay slot that leaves an interrupt pending must not have changed `SR.BL` or
`SR.IMASK` or written a register of the interrupt controller, and it must be allowed there. -/
def Happened.settled (env : Env ω) (h : Happened ω) : Bool :=
  match h.action with
  | .inst word =>
    let op := sh4DecodeInst word
    !h.before.delayedBranch ||
      if op.pcRelative then !h.before.intc.isIrqPending
      else (op.func.run env word h.before).all fun c =>
        !c.intc.isIrqPending || op.func.quiet env word h.before
  | _ => true

section
variable {env : Env ω} {c c' : Cpu ω}

theorem Prompt.calm (prompt : Prompt c) (calm : Calm c c') : Prompt c' := by
  refine ⟨fun pending => ?_, fun pending => ?_, by rw [calm.entered]; exact prompt.entered⟩
  · rw [calm.intc] at pending ⊢
    obtain ⟨unblocked, eligible⟩ := prompt.current pending
    exact ⟨calm.inputs.isBlocked.trans unblocked, calm.inputs.eligible eligible⟩
  · rw [calm.intc] at pending
    exact calm.delayedBranch.trans (prompt.slot pending)

theorem Prompt.of_idle (idle : c.intc.isIrqPending = false) (entered : ∀ e ∈ c.entered, e.Proper) :
    Prompt c := by
  refine ⟨fun pending => ?_, fun pending => ?_, entered⟩
  · rw [idle] at pending
    cases pending
  · rw [idle] at pending
    cases pending

variable {word : UInt16}

theorem Prompt.runOutside {f : OpFunc} (prompt : Prompt c) (noSlot : c.delayedBranch = false)
    (h : f.run env word c = some c') :
    c'.intc.isIrqPending = false ∧ ∀ e ∈ c'.entered, e.Proper := by
  have hidle : c.intc.isIrqPending = false := by
    by_contra hne
    have hslot := prompt.slot (by simpa using hne)
    rw [noSlot] at hslot
    cases hslot
  rcases OpFunc.run_some h with ⟨addr, -, hbranch⟩ | ⟨-, hsteps⟩
  · exact ⟨by rw [hbranch.intc]; exact hidle, by rw [hbranch.entered]; exact prompt.entered⟩
  · obtain ⟨hlogs, -, hidle'⟩ := prims_outside hsteps noSlot hidle
    exact ⟨hidle', hlogs prompt.entered⟩

theorem Prompt.runInSlot (prompt : Prompt c) (slot : c.delayedBranch = true)
    (allowed : (sh4DecodeInst word).pcRelative = false)
    (h : (sh4DecodeInst word).func.run env word c = some c')
    (quiet : c'.intc.isIrqPending = true → (sh4DecodeInst word).func.quiet env word c = true) :
    c'.Current ∧ ∀ e ∈ c'.entered, e.Proper := by
  rcases OpFunc.run_some h with ⟨addr, htarget, -⟩ | ⟨-, hsteps⟩
  · rw [target_none allowed] at htarget
    cases htarget
  · obtain ⟨hlogs, -, hcurrent⟩ := prims_inSlot hsteps slot
    refine ⟨fun pending => ?_, hlogs prompt.entered⟩
    exact hcurrent (by rw [quiet pending]; rfl) prompt.current pending

theorem Prompt.finishOutside {addr : UInt32} (idle : c.intc.isIrqPending = false)
    (entered : ∀ e ∈ c.entered, e.Proper) (h : c.finishInst word false addr = some c') :
    Prompt c' := by
  have h : some (c.advance word) = some c' := h
  cases h
  exact (Prompt.of_idle idle entered).calm (Calm.advance c word)

theorem Prompt.finishInSlot {addr : UInt32} (current : c.Current)
    (entered : ∀ e ∈ c.entered, e.Proper) (h : c.finishInst word true addr = some c') :
    Prompt c' := by
  have hcalm : Calm c ((c.advance word).write regPc addr) :=
    (Calm.advance c word).trans (Calm.write _ addr (by decide) (.inl (by decide)))
  rcases checkInterruptsNoDelayBranchCheck_some (n := 1) h with ⟨hidle, rfl⟩ | enters
  · refine Prompt.of_idle hidle ?_
    exact fun e he => entered e (hcalm.entered ▸ he)
  · refine Prompt.of_idle enters.idle (Logs.entersIrq enters ?_ ?_)
    · have hpending : c.intc.isIrqPending = true := by
        rw [← hcalm.intc]
        exact enters.pending
      obtain ⟨unblocked, eligible⟩ := current hpending
      refine ⟨hcalm.inputs.isBlocked.trans unblocked, ?_⟩
      rw [show Cpu.intc { (c.advance word).write regPc addr with delayedBranch := false } = c.intc
        from hcalm.intc]
      exact hcalm.inputs.eligible eligible
    · exact fun e he => entered e (hcalm.entered ▸ he)

theorem Prompt.doExecInst (prompt : Prompt c)
    (settled : Happened.settled env ⟨.inst word, c, c'⟩ = true)
    (h : c.doExecInst env word = some c') : Prompt c' := by
  simp only [Happened.settled] at settled
  simp only [Cpu.doExecInst] at h
  split at h
  · rename_i hlegal
    obtain ⟨c1, hrun, hfinish⟩ := bind_eq_some_iff.mp h
    cases hslot : c.delayedBranch with
    | false =>
      obtain ⟨hidle, hentered⟩ := prompt.runOutside hslot hrun
      rw [hslot] at hfinish
      exact .finishOutside hidle hentered hfinish
    | true =>
      have hallowed : (sh4DecodeInst word).pcRelative = false := by simpa [hslot] using hlegal
      have hquiet : c1.intc.isIrqPending = true →
          (sh4DecodeInst word).func.quiet env word c = true := by
        intro pending
        simpa [hslot, hallowed, hrun, pending] using settled
      obtain ⟨hcurrent, hentered⟩ := prompt.runInSlot hslot hallowed hrun hquiet
      rw [hslot] at hfinish
      exact .finishInSlot hcurrent hentered hfinish
  · rename_i hillegal
    simp only [not_eq_true, not_eq_false', and_eq_true] at hillegal
    have hidle : c.intc.isIrqPending = false := by simpa [hillegal.1, hillegal.2] using settled
    refine .of_idle ?_ (Logs.excp h prompt.entered)
    rw [(enters_of_some h).frame.intc]
    exact hidle

theorem Prompt.refresh {b : Cpu ω} (prompt : Prompt c) (entered : b.entered = c.entered)
    (h : b.refreshIntc = some c') : Prompt c' := by
  obtain ⟨hlogs, hcurrent, hslot, hpending⟩ := refresh_prompt h
  exact ⟨hcurrent, fun pending => hslot.trans (hpending pending),
    hlogs (by rw [entered]; exact prompt.entered)⟩

theorem Prompt.act {a : Action} (prompt : Prompt c) (settled : Happened.settled env ⟨a, c, c'⟩ = true)
    (h : c.act env a = some c') : Prompt c' := by
  unfold Cpu.act at h
  split at h
  · exact prompt.doExecInst settled h
  · rename_i line code _
    exact prompt.refresh (b := c.setLine line code) rfl h
  · rename_i val _
    exact prompt.refresh (b := c.setIrlLines val) rfl h
  · split at h
    · cases h
      exact ⟨prompt.current, prompt.slot, prompt.entered⟩
    · cases h
  · obtain ⟨c2, hc2, rfl⟩ := map_eq_some_iff.mp h
    obtain ⟨c1, hrefresh, rfl⟩ := map_eq_some_iff.mp hc2
    have hprompt := prompt.refresh rfl hrefresh
    exact ⟨hprompt.current, hprompt.slot, hprompt.entered⟩
  · cases h

end

/-- In every run that starts with nothing pending, interrupts are entered only with `SR.BL` clear
and from a source that is asserted above `SR.IMASK`, provided no instruction in a delay slot
changes the interrupt mask or the priorities under a pending interrupt. -/
theorem interrupts_entered_eligible (env : Env ω) (c₀ c : Cpu ω) (as : List Action)
    (trace : List (Happened ω)) (idle : c₀.intc.isIrqPending = false)
    (noHistory : c₀.entered = []) (reached : run (Cpu.step env) c₀ as = (trace, some c))
    (settled : ∀ h ∈ trace, h.settled env = true) : ∀ e ∈ c.entered, e.Proper := by
  have hstart : Prompt c₀ := .of_idle idle (by simp [noHistory])
  have hprompt : Prompt c := by
    refine run_invariant ?_ reached settled hstart
    intro s a o s' hstep hsettled hprompt
    obtain ⟨c', hact, hpair⟩ := map_eq_some_iff.mp hstep
    cases hpair
    exact hprompt.act hsettled hact
  exact hprompt.entered

/-- LDC R1,SR in the delay slot blocks interrupts, and the pending one is entered all the same. -/
theorem slot_blocks_pending :
    ∃ c, (run (Cpu.step bareEnv) unblockingCpu (assertInSlot ++ [.inst 0x410e])).2 = some c ∧
      ∃ e ∈ c.entered, ¬e.Proper := by
  have hrun : (run (Cpu.step bareEnv) unblockingCpu (assertInSlot ++ [.inst 0x410e])).2.any
      (fun c => c.entered.any fun e => e.irq.isSome && isBlocked e.reg) = true := by
    decide +kernel
  obtain ⟨c, hc, h⟩ := (any_eq_true _ _).mp hrun
  obtain ⟨e, he, h⟩ := List.any_eq_true.mp h
  rw [and_eq_true] at h
  obtain ⟨irq, hirq⟩ := isSome_iff_exists.mp h.1
  refine ⟨c, hc, e, he, fun proper => ?_⟩
  rw [(proper irq hirq).1] at h
  cases h.2

/-- With NOP in the delay slot the interrupt is entered as it should be. -/
theorem slot_nop_enters_pending :
    ∃ c, (run (Cpu.step bareEnv) unblockingCpu (assertInSlot ++ [.inst 0x0009])).2 = some c ∧
      c.entered.length = 1 ∧ ∀ e ∈ c.entered, e.Proper := by
  have hrun : (run (Cpu.step bareEnv) unblockingCpu (assertInSlot ++ [.inst 0x0009])).2.any
      (fun c => c.entered.length == 1) = true := by
    decide +kernel
  obtain ⟨c, hc, h⟩ := (any_eq_true _ _).mp hrun
  refine ⟨c, hc, by simpa using h, ?_⟩
  exact interrupts_entered_eligible bareEnv unblockingCpu c _ _ rfl rfl (Prod.ext rfl hc)
    (by decide +kernel)

end Sh4
