import WashingtonDC.Arm7.Steps

/-!
# Entering and leaving ARM7 exceptions

Which exception the next fetch enters, and what is left of the interrupted state when the handler
returns at once. The exceptions of the source are reset, FIQ and SWI. Nothing is said about the
instructions of a longer handler.
-/
namespace Arm7

open Lockstep Option Cpu Bool

variable {σ : Type}

/-- What entering an exception needs: the new mode, the registers it saves to, the vector and the
flags that remain. -/
structure Entry where
  mode : Mode
  spsr : Nat
  r14 : Nat
  vector : UInt32
  excp : Excp

namespace Core

variable (c : Core σ)

/-- No reset is pending, the FIQ line is asserted and FIQs are not masked. -/
def fiqDue : Bool := !c.excp.reset && c.fiqLine && c.cpsr &&& fMask == 0

def excpEntry : Option Entry :=
  if !c.excpDirty then none
  else if c.excp.reset then
    some ⟨.svc, regSpsrSvc, regR14Svc, 0, { c.excp with reset := false }⟩
  else if c.fiqLine && c.cpsr &&& fMask == 0 then
    some ⟨.fiq, regSpsrFiq, regR14Fiq, 0x1c, c.excp⟩
  else if c.excp.swi then
    some ⟨.svc, regSpsrSvc, regR14Svc, 0, { c.excp with swi := false }⟩
  else none

def enter (e : Entry) (pcNext : UInt32) : Core σ :=
  { c.enterExcp e.mode e.spsr e.r14 e.vector pcNext with excp := e.excp, excpDirty := false }

theorem checkExcp_eq (pcNext : UInt32) :
    c.checkExcp pcNext =
      match c.excpEntry with
      | none => { c with excpDirty := false }
      | some e => c.enter e pcNext := by
  unfold checkExcp excpEntry
  cases hdirty : c.excpDirty with
  | false =>
    obtain ⟨reg, excp, enabled, fiqLine, excpDirty, pipelineFull, mem⟩ := c
    cases hdirty
    rfl
  | true =>
    simp only [if_true, Bool.not_true, false_eq_true, if_false]
    cases hreset : c.excp.reset with
    | true => rfl
    | false =>
      cases hfiq : (c.fiqLine && c.cpsr &&& fMask == 0) with
      | true => rfl
      | false =>
        cases hswi : c.excp.swi with
        | true => rfl
        | false => rfl

theorem excpEntry_fiq (due : c.fiqDue = true) (dirty : c.excpDirty = true) :
    c.excpEntry = some ⟨.fiq, regSpsrFiq, regR14Fiq, 0x1c, c.excp⟩ := by
  simp only [fiqDue, and_eq_true, not_eq_true'] at due
  simp [excpEntry, dirty, due.1.1, due.1.2, due.2]

end Core

/-! ## When an FIQ is taken -/

namespace Cpu

variable (p : Cpu σ)

/-- The fetch enters the FIQ exception: it goes on at the vector in FIQ mode, with the status
register and the return address saved. -/
structure EntersFiq : Prop where
  cpsr : p.checkExcp.cpsr = (p.cpsr &&& ~~~mMask) ||| Mode.fiq.bits ||| iMask ||| fMask
  spsr : p.checkExcp.reg regSpsrFiq = p.cpsr
  r14 : p.checkExcp.reg regR14Fiq = p.pcNext + 4
  pc : p.checkExcp.pcNext = 0x1c

end Cpu

theorem enterExcp_masks (cpsr mode : UInt32) :
    ((cpsr &&& ~~~mMask) ||| mode ||| iMask ||| fMask) &&& fMask = fMask :=
  WordMask.set_and_of_subset _ rfl

theorem fiq_taken_iff_excpDirty (p : Cpu σ) (due : p.fiqDue = true) :
    p.EntersFiq ↔ p.excpDirty = true := by
  constructor
  · intro enters
    by_contra hclean
    -- Without the flag the status register keeps its F bit clear.
    have hsame : p.checkExcp.cpsr = p.cpsr := by
      simp [Cpu.checkExcp, Core.checkExcp, hclean]
    have hmask := enterExcp_masks p.cpsr Mode.fiq.bits
    rw [← enters.cpsr, hsame] at hmask
    simp only [Core.fiqDue, and_eq_true, beq_iff_eq] at due
    rw [due.2] at hmask
    cases hmask
  · intro dirty
    have hcheck : p.checkExcp.toCore =
        p.toCore.enter ⟨.fiq, regSpsrFiq, regR14Fiq, 0x1c, p.excp⟩ p.pcNext := by
      simp only [Cpu.checkExcp]
      rw [Core.checkExcp_eq, Core.excpEntry_fiq _ due dirty]
    constructor
    · rw [hcheck]; rfl
    · rw [hcheck]; rfl
    · rw [hcheck]; rfl
    · unfold Cpu.pcNext
      rw [hcheck]
      rfl

/-- The dirty flag after an event. A fetch clears it, and after that only SWI sets it. -/
def dirtyAfter (dirty : Bool) : Event σ → Bool
  | .line .setFiq _ => true
  | .line .clearFiq _ => dirty
  | .line (.reset val) enabled => dirty || !enabled && val
  | .inst e => e.isSwi

theorem Core.call_excpDirty (c : Core σ) (l : LineCall) :
    (c.call l).excpDirty = dirtyAfter c.excpDirty (.line l c.enabled : Event σ) := by
  cases l with
  | setFiq => rfl
  | clearFiq => rfl
  | reset val =>
    simp only [Core.call, Core.reset, dirtyAfter]
    split
    · rename_i hval
      simp [hval]
    · rename_i hval
      simp [hval]

theorem Cpu.checkExcp_excpDirty (p : Cpu σ) : p.checkExcp.excpDirty = false := by
  simp only [Cpu.checkExcp, Core.checkExcp_eq]
  split <;> rfl

theorem Cpu.refill_excpDirty {p q : Cpu σ} {k : Nat} (h : p.refill = some (k, q)) :
    q.excpDirty = p.excpDirty := by
  unfold refill at h
  split at h
  · cases h
    rfl
  · obtain ⟨w0, -, h⟩ := bind_eq_some_iff.mp h
    obtain ⟨w1, -, h⟩ := bind_eq_some_iff.mp h
    cases h
    rfl

theorem Cpu.fetchInst_some {p q : Cpu σ} {d : DecodedInst} (h : p.fetchInst = some (d, q)) :
    q.excpDirty = false ∧ ∃ d', decode d.inst = some d' ∧ d = { d' with cycles := d.cycles } := by
  obtain ⟨⟨k, r⟩, hrefill, h⟩ := bind_eq_some_iff.mp h
  obtain ⟨w, -, h⟩ := bind_eq_some_iff.mp h
  obtain ⟨d', hd, h⟩ := bind_eq_some_iff.mp h
  cases h
  refine ⟨(refill_excpDirty hrefill).trans p.checkExcp_excpDirty, d', ?_, rfl⟩
  exact (congrArg decode (decode_inst hd)).trans hd

theorem Cpu.step_excpDirty {aica : AicaSys σ} {p p' : Cpu σ} {a : Action} {o : Event σ}
    (h : p.step aica a = some (o, p')) : p'.excpDirty = dirtyAfter p.excpDirty o := by
  cases a with
  | line call =>
    cases h
    exact p.toCore.call_excpDirty call
  | inst =>
    obtain ⟨⟨d, q⟩, hfetch, h⟩ := bind_eq_some_iff.mp h
    obtain ⟨c, hexec, h⟩ := bind_eq_some_iff.mp h
    cases h
    obtain ⟨hclean, d', hd, hcycles⟩ := fetchInst_some hfetch
    have hswi : d'.executesSwi q.toCore = d.executesSwi q.toCore := by
      rw [hcycles]
      rfl
    simp only [dirtyAfter, Executed.isSwi, hd, any_some, hswi]
    rw [exec_excpDirty hexec, hclean, Bool.false_or]

/-- In every run, a fetch that finds the FIQ line asserted and unmasked enters the exception
exactly if one of these happened since the last fetch began: the line was asserted, the core was
started, or the last instruction was an SWI. Clearing the F bit is not among them. -/
theorem run_takes_fiq_iff (aica : AicaSys σ) (p q : Cpu σ) (as : List Action)
    (trace : List (Event σ)) (reached : run (step aica) p as = (trace, some q))
    (due : q.fiqDue = true) : q.EntersFiq ↔ trace.foldl dirtyAfter p.excpDirty = true := by
  rw [fiq_taken_iff_excpDirty q due]
  rw [run_foldl (f := fun q : Cpu σ => q.excpDirty) (P := fun _ => True)
    (fun h _ => step_excpDirty h) reached fun _ _ => trivial]

def unmaskProgram : Cpu Unit := bootCpu (fun i => if i = 0 then 0x13 else 0) [0xe129f000]

/-- The FIQ line is asserted while FIQs are masked, then MSR clears the F bit; the next fetch does
not enter the exception. -/
theorem unmasked_fiq_not_taken :
    ∃ q, (run (step noAica) unmaskProgram [.line .setFiq, .inst]).2 = some q ∧
      q.fiqDue = true ∧ ¬q.EntersFiq := by
  have hrun : (run (step noAica) unmaskProgram [.line .setFiq, .inst]).2.any
      (fun q => q.fiqDue && q.checkExcp.pcNext != 0x1c) = true := by decide +kernel
  obtain ⟨q, hq, h⟩ := (any_eq_true _ _).mp hrun
  simp only [and_eq_true, bne_iff_ne] at h
  exact ⟨q, hq, h.1, fun enters => h.2 enters.pc⟩

/-- The same line with FIQs unmasked from the start. -/
theorem raised_fiq_taken :
    ∃ q, (run (step noAica) unmaskProgram [.inst, .line .setFiq]).2 = some q ∧
      q.fiqDue = true ∧ q.EntersFiq := by
  have hrun : (run (step noAica) unmaskProgram [.inst, .line .setFiq]).2.any
      (fun q => q.fiqDue) = true := by decide +kernel
  obtain ⟨q, hq, due⟩ := (any_eq_true _ _).mp hrun
  have hraised : (run (step noAica) unmaskProgram [.inst, .line .setFiq]).1.foldl
      dirtyAfter false = true := by decide +kernel
  refine ⟨q, hq, due, ?_⟩
  exact (run_takes_fiq_iff noAica unmaskProgram q _ _ (Prod.ext rfl hq) due).mpr hraised

/-! ## Returning at once -/

/-- The exceptions with a documented return instruction. -/
inductive Handled
  | fiq | swi
deriving DecidableEq

namespace Handled

variable (kind : Handled)

def entry (excp : Excp) : Entry :=
  match kind with
  | .fiq => ⟨.fiq, regSpsrFiq, regR14Fiq, 0x1c, excp⟩
  | .swi => ⟨.svc, regSpsrSvc, regR14Svc, 0, { excp with swi := false }⟩

def returnInst : UInt32 :=
  match kind with
  | .fiq => 0xe25ef004
  | .swi => 0xe1b0f00e

def without (p : Cpu σ) : Cpu σ :=
  match kind with
  | .fiq => { p with fiqLine := false }
  | .swi => { p with excp := { p.excp with swi := false } }

end Handled

/-- The state `p` is restored in `q`: the status register, all registers of all modes except R15
and the link register of the handler, and what is executed next. The link register is left out even
if `p` is in the mode of the handler, where it is lost. -/
structure Restored (kind : Handled) (p q : Cpu σ) : Prop where
  cpsr : q.cpsr = p.cpsr
  reg : ∀ i < regCpsr, i ≠ regPc → i ≠ (kind.entry p.excp).r14 → q.reg i = p.reg i
  next : q.checkExcp.pcNext = (kind.without p).checkExcp.pcNext
  nextStatus : q.checkExcp.cpsr = (kind.without p).checkExcp.cpsr

def Core.handler (c : Core σ) (e : Entry) (pcNext : UInt32) : Core σ :=
  { (c.enter e pcNext).write regPc (e.vector + 8) with pipelineFull := true }

theorem Core.handler_reg (c : Core σ) (e : Entry) (pcNext : UInt32) (i : Nat) :
    (c.handler e pcNext).reg i =
      if i = regPc then e.vector + 8
      else if i = regCpsr then (c.cpsr &&& ~~~mMask) ||| e.mode.bits ||| iMask ||| fMask
      else if i = e.r14 then pcNext + 4
      else if i = e.spsr then c.cpsr
      else c.reg i := by
  simp only [handler, enter, enterExcp, resetPipeline, write_reg]
  split
  · rfl
  split
  · rfl
  split
  · rfl
  · rfl

section
variable {p : Cpu σ} {e : Entry}

theorem Cpu.checkExcp_enter (entry : p.excpEntry = some e) :
    p.checkExcp = { p with toCore := p.toCore.enter e p.pcNext } := by
  simp only [Cpu.checkExcp, Core.checkExcp_eq, entry]

theorem Cpu.checkExcp_none (entry : p.excpEntry = none) :
    p.checkExcp = { p with excpDirty := false } := by
  simp only [Cpu.checkExcp, Core.checkExcp_eq, entry]

theorem Cpu.fetchInst_enter {w0 w1 w2 : UInt32} {d : DecodedInst}
    (entry : p.excpEntry = some e) (h1 : doFetchInst p.mem e.vector = some w1)
    (h0 : doFetchInst p.mem (e.vector + 4) = some w0)
    (h2 : doFetchInst p.mem (e.vector + 8) = some w2) (hd : decode w1 = some d) :
    p.fetchInst = some ({ d with cycles := d.cycles + 2 },
      ⟨p.toCore.handler e p.pcNext, w2, e.vector + 8, w0, e.vector + 4⟩) := by
  have hpc : (p.toCore.enter e p.pcNext).pc = e.vector := by
    simp [Core.enter, Core.enterExcp, Core.resetPipeline, Core.pc, Core.write_reg]
  have hrefill : p.checkExcp.refill =
      some (2, ⟨p.toCore.handler e p.pcNext, w0, e.vector + 4, w1, e.vector⟩) := by
    rw [checkExcp_enter entry]
    unfold refill
    rw [if_neg (by simp [Core.enter, Core.enterExcp, Core.resetPipeline])]
    simp only [hpc]
    rw [show (p.toCore.enter e p.pcNext).mem = p.mem from rfl, h0, h1]
    rfl
  have hnext : (p.toCore.handler e p.pcNext).pc = e.vector + 8 := by
    simp [Core.pc, Core.handler_reg]
  unfold fetchInst
  simp only [hrefill, bind_eq_bind, bind_some, hnext]
  rw [show (p.toCore.handler e p.pcNext).mem = p.mem from rfl, h2]
  simp only [bind_some, hd]

end

theorem instData_return (op : DataOp) {inst a b : UInt32} {carry : Bool} {spsr : Nat} {c : Core σ}
    (s : bit inst 20 = true) (rd : regField inst 12 = 15) (writes : op.kind.writeResult = true)
    (operands : dataOperands inst c = some (a, b, carry)) (saved : c.spsrIdx = some spsr) :
    instData op inst c = (modeOf (c.reg spsr)).map fun _ =>
      ((c.write regCpsr (c.reg spsr)).write regPc (op.eval a b carry).1).resetPipeline := by
  have hmode : ∀ mode : Mode, mode.genReg 15 = regPc := by
    intro mode
    cases mode <;> rfl
  have hcpsr : (c.write regCpsr (c.reg spsr)).cpsr = c.reg spsr := by
    simp [Core.cpsr, Core.write_reg]
  unfold instData
  rw [operands]
  simp only [bind_eq_bind, bind_some, dataStatus, s, rd, saved, dataResult, writes,
    Core.set, Core.genReg]
  simp [hcpsr, hmode, Function.comp_def]

theorem modeOf_bits (mode : Mode) : modeOf mode.bits = some mode := by
  cases mode <;> decide

namespace Handled

variable (kind : Handled)

def op : DataOp :=
  match kind with
  | .fiq => .sub
  | .swi => .mov

/-- Where the return instruction jumps. The entry saved `pcNext + 4` for both exceptions. -/
def returnAddr (pcNext : UInt32) : UInt32 :=
  match kind with
  | .fiq => pcNext
  | .swi => pcNext + 4

theorem sFlag : bit kind.returnInst 20 = true := by
  cases kind <;> decide

theorem rd : regField kind.returnInst 12 = 15 := by
  cases kind <;> decide

theorem writes : kind.op.kind.writeResult = true := by
  cases kind <;> rfl

theorem fetches (mem : Mem σ) (excp : Excp) (offs : UInt32) (small : offs = 4 ∨ offs = 8) :
    ∃ w, doFetchInst mem ((kind.entry excp).vector + offs) = some w := by
  have hlow : (kind.entry excp).vector + offs ≤ 0x7fffff ∧
      (((kind.entry excp).vector + offs) &&& 0x1fffff).toNat + 3 < waveMemLen := by
    rcases small with rfl | rfl <;> cases kind <;> simp only [entry] <;> decide
  rw [doFetchInst, if_pos hlow.1, waveMemRead32, if_pos hlow.2]
  exact ⟨_, rfl⟩

variable (c : Core σ) (excp : Excp) (pcNext : UInt32)

theorem decode_returnInst : decode kind.returnInst = some ⟨.al, .data kind.op, kind.returnInst, 3⟩ := by
  cases kind <;> decide

theorem handler_mode :
    modeOf (c.handler (kind.entry excp) pcNext).cpsr = some (kind.entry excp).mode := by
  have hbits : ∀ x mode : UInt32, ((x &&& ~~~mMask) ||| mode ||| iMask ||| fMask) &&& mMask =
      (mode &&& mMask) := by
    intro x mode
    rw [WordMask.set_and_of_disjoint _ (by decide), WordMask.set_and_of_disjoint _ (by decide),
      WordMask.or_and, WordMask.clear_and_self, UInt32.zero_or]
  have hcpsr : (c.handler (kind.entry excp) pcNext).cpsr =
      (c.cpsr &&& ~~~mMask) ||| (kind.entry excp).mode.bits ||| iMask ||| fMask := by
    simp [Core.cpsr, Core.handler_reg]
  rw [hcpsr, ← modeOf_bits (kind.entry excp).mode]
  simp only [modeOf, hbits]

theorem handler_get (n : Nat) :
    (c.handler (kind.entry excp) pcNext).get n =
      some ((c.handler (kind.entry excp) pcNext).reg ((kind.entry excp).mode.genReg n)) := by
  simp only [Core.get, Core.genReg, handler_mode, map_some]

theorem handler_r14 :
    (c.handler (kind.entry excp) pcNext).get 14 = some (pcNext + 4) := by
  rw [handler_get, Core.handler_reg]
  cases kind <;> rfl

theorem handler_spsr :
    (c.handler (kind.entry excp) pcNext).spsrIdx = some (kind.entry excp).spsr ∧
      (c.handler (kind.entry excp) pcNext).reg (kind.entry excp).spsr = c.cpsr := by
  rw [Core.spsrIdx, handler_mode, Core.handler_reg]
  cases kind <;> exact ⟨rfl, rfl⟩

theorem handler_operands :
    ∃ a b carry, dataOperands kind.returnInst (c.handler (kind.entry excp) pcNext) =
        some (a, b, carry) ∧ (kind.op.eval a b carry).1 = kind.returnAddr pcNext := by
  have hr14 := kind.handler_r14 c excp pcNext
  cases kind with
  | fiq =>
    have hoperands : dataOperands fiq.returnInst (c.handler (fiq.entry excp) pcNext) =
        some (pcNext + 4, 4, (c.handler (fiq.entry excp) pcNext).cpsr &&& cMask != 0) := by
      simp only [dataOperands]
      rw [show regField fiq.returnInst 16 = 14 by decide, hr14]
      rfl
    refine ⟨_, _, _, hoperands, ?_⟩
    simp only [op, DataOp.eval, DataOp.eval.arith, IntMath.subFlags_false, returnAddr]
    rw [UInt32.add_sub_cancel]
  | swi =>
    have hoperands : dataOperands swi.returnInst (c.handler (swi.entry excp) pcNext) =
        some ((c.handler (swi.entry excp) pcNext).reg ((swi.entry excp).mode.genReg 0),
          (pcNext + 4) <<< 0, (c.handler (swi.entry excp) pcNext).cpsr &&& cMask != 0) := by
      simp only [dataOperands, decodeShift]
      rw [show regField swi.returnInst 0 = 14 by decide, hr14, handler_get]
      rfl
    refine ⟨_, _, _, hoperands, ?_⟩
    simp [op, DataOp.eval, DataOp.eval.logic, returnAddr]

end Handled

section
variable (aica : AicaSys σ) (kind : Handled) (p : Cpu σ)

def Cpu.returned : Core σ :=
  (((p.toCore.handler (kind.entry p.excp) p.pcNext).write regCpsr p.cpsr).write regPc
    (kind.returnAddr p.pcNext)).resetPipeline

theorem runInst_return (enters : p.excpEntry = some (kind.entry p.excp))
    (returns : doFetchInst p.mem (kind.entry p.excp).vector = some kind.returnInst) :
    ∃ w0 pc0 w1 pc1, p.runInst aica =
      (modeOf p.cpsr).map fun _ => ⟨p.returned kind, w0, pc0, w1, pc1⟩ := by
  obtain ⟨w0, h0⟩ := kind.fetches p.mem p.excp 4 (.inl rfl)
  obtain ⟨w2, h2⟩ := kind.fetches p.mem p.excp 8 (.inr rfl)
  have hfetch := fetchInst_enter enters returns h0 h2 kind.decode_returnInst
  obtain ⟨a, b, carry, hoperands, haddr⟩ := kind.handler_operands p.toCore p.excp p.pcNext
  obtain ⟨hsaved, hspsr⟩ := kind.handler_spsr p.toCore p.excp p.pcNext
  have hexec := instData_return kind.op kind.sFlag kind.rd kind.writes hoperands hsaved
  rw [hspsr, haddr] at hexec
  refine ⟨w2, (kind.entry p.excp).vector + 8, w0, (kind.entry p.excp).vector + 4, ?_⟩
  unfold runInst
  rw [hfetch]
  simp only [bind_eq_bind, bind_some, exec, Op.run, Cond.holds]
  rw [if_pos trivial, hexec]
  cases modeOf p.cpsr with
  | none => rfl
  | some mode => rfl

variable {kind p} {q : Cpu σ}

theorem returned_reg (back : q.toCore = p.returned kind) {i : Nat} (low : i < regCpsr)
    (notPc : i ≠ regPc) (notLink : i ≠ (kind.entry p.excp).r14) : q.reg i = p.reg i := by
  have hspsr : i ≠ (kind.entry p.excp).spsr := by
    simp only [regCpsr] at low
    cases kind <;> simp only [Handled.entry, regSpsrFiq, regSpsrSvc] <;> omega
  rw [back, returned, Core.resetPipeline]
  simp [Core.write_reg, Core.handler_reg, notPc, low.ne, notLink, hspsr]

theorem returned_next (back : q.toCore = p.returned kind) :
    q.cpsr = p.cpsr ∧ q.checkExcp.cpsr = p.cpsr ∧
      q.checkExcp.pcNext = kind.returnAddr p.pcNext := by
  have hclean : q.excpDirty = false := by rw [back]; rfl
  have hempty : q.pipelineFull = false := by rw [back]; rfl
  have hcheck : q.checkExcp = q := by
    simp [Cpu.checkExcp, Core.checkExcp, hclean]
  have hcpsr : q.cpsr = p.cpsr := by
    rw [back]
    simp [returned, Core.resetPipeline, Core.cpsr, Core.write_reg]
  have hpc : q.pc = kind.returnAddr p.pcNext := by
    rw [back]
    simp [returned, Core.resetPipeline, Core.pc, Core.write_reg]
  rw [hcheck, Cpu.pcNext, hempty]
  exact ⟨hcpsr, hcpsr, hpc⟩

theorem fiq_entered (enters : p.excpEntry = some (Handled.fiq.entry p.excp)) :
    p.excpDirty = true ∧ p.excp.reset = false ∧ p.cpsr &&& fMask = 0 := by
  unfold Core.excpEntry at enters
  split at enters
  · cases enters
  split at enters
  · cases enters
  split at enters
  · simp_all
  split at enters <;> cases enters

theorem swi_entered (enters : p.excpEntry = some (Handled.swi.entry p.excp)) :
    p.excpDirty = true ∧ p.excp.reset = false ∧
      (p.fiqLine && p.cpsr &&& fMask == 0) = false := by
  unfold Core.excpEntry at enters
  split at enters
  · cases enters
  split at enters
  · rename_i hreset
    have hexcp := congrArg (fun e => e.map fun e => e.excp.reset) enters
    simp [Handled.entry, hreset] at hexcp
  split at enters
  · cases enters
  · simp_all

theorem without_fiq (enters : p.excpEntry = some (Handled.fiq.entry p.excp)) :
    (Handled.fiq.without p).checkExcp.cpsr = p.cpsr ∧
      (Handled.fiq.without p).checkExcp.pcNext = p.pcNext ↔ p.excp.swi = false := by
  obtain ⟨hdirty, hreset, hmask⟩ := fiq_entered enters
  cases hswi : p.excp.swi with
  | false =>
    have hentry : (Handled.fiq.without p).excpEntry = none := by
      simp [Handled.without, Core.excpEntry, hdirty, hreset, hswi]
    rw [checkExcp_none hentry]
    exact ⟨fun _ => rfl, fun _ => ⟨rfl, rfl⟩⟩
  | true =>
    have hentry : (Handled.fiq.without p).excpEntry = some (Handled.swi.entry p.excp) := by
      simp [Handled.without, Core.excpEntry, hdirty, hreset, hswi, Handled.entry]
    rw [checkExcp_enter hentry]
    refine ⟨fun h => ?_, nofun⟩
    -- The entry would have set the F bit, which is clear.
    have hset := enterExcp_masks p.cpsr Mode.svc.bits
    rw [show (p.cpsr &&& ~~~mMask) ||| Mode.svc.bits ||| iMask ||| fMask = p.cpsr from h.1,
      hmask] at hset
    cases hset

theorem without_swi (enters : p.excpEntry = some (Handled.swi.entry p.excp)) :
    (Handled.swi.without p).checkExcp.pcNext = p.pcNext := by
  obtain ⟨hdirty, hreset, hfiq⟩ := swi_entered enters
  have hentry : (Handled.swi.without p).excpEntry = none := by
    have hmasked : ((Handled.swi.without p).fiqLine &&
        (Handled.swi.without p).cpsr &&& fMask == 0) = false := hfiq
    simp only [Core.excpEntry, hmasked]
    simp [Handled.without, hdirty, hreset]
  rw [checkExcp_none hentry]
  rfl

end

/-- An exception whose handler consists of the documented return instruction: the interrupted
state is restored and execution goes on where it would have exactly for an FIQ that did not
interrupt the entry of an SWI, in one of the modes of the processor. The return from an SWI skips
an instruction, because the entry saves the same address for every exception. -/
theorem excp_return_restores_iff (aica : AicaSys σ) (kind : Handled) (p : Cpu σ)
    (enters : p.excpEntry = some (kind.entry p.excp))
    (returns : doFetchInst p.mem (kind.entry p.excp).vector = some kind.returnInst) :
    (∃ q, p.runInst aica = some q ∧ Restored kind p q) ↔
      kind = .fiq ∧ (modeOf p.cpsr).isSome = true ∧ p.excp.swi = false := by
  obtain ⟨w0, pc0, w1, pc1, hrun⟩ := runInst_return aica kind p enters returns
  have hback : (⟨p.returned kind, w0, pc0, w1, pc1⟩ : Cpu σ).toCore = p.returned kind := rfl
  obtain ⟨hcpsr, hstatus, hnext⟩ := returned_next hback
  constructor
  · rintro ⟨q, hq, restored⟩
    rw [hrun] at hq
    obtain ⟨mode, hmode, rfl⟩ := map_eq_some_iff.mp hq
    cases kind with
    | fiq =>
      refine ⟨rfl, by rw [hmode]; rfl, (without_fiq enters).mp ⟨?_, ?_⟩⟩
      · exact restored.nextStatus.symm.trans hstatus
      · exact restored.next.symm.trans hnext
    | swi =>
      have hskip : p.pcNext + 4 = p.pcNext :=
        hnext.symm.trans (restored.next.trans (without_swi enters))
      have hzero := UInt32.add_eq_left.mp hskip
      cases hzero
  · rintro ⟨rfl, hmode, hswi⟩
    obtain ⟨mode, hmode⟩ := isSome_iff_exists.mp hmode
    obtain ⟨hpstatus, hpnext⟩ := (without_fiq enters).mpr hswi
    refine ⟨_, by rw [hrun, hmode]; rfl, hcpsr, ?_, hnext.trans hpnext.symm,
      hstatus.trans hpstatus.symm⟩
    intro i low notPc notLink
    exact returned_reg hback low notPc notLink

/-- SWI, a handler at address zero that returns at once, and the state after the SWI. -/
def swiPending : Cpu Unit :=
  { bootCpu (fun _ => 0) [0xe1b0f00e] with excp := ⟨false, true⟩, excpDirty := true }

/-- The return from an SWI does not restore the interrupted state. -/
theorem swi_return_skips :
    swiPending.excpEntry = some (Handled.swi.entry swiPending.excp) ∧
      doFetchInst swiPending.mem 0 = some Handled.swi.returnInst ∧
      ¬∃ q, swiPending.runInst noAica = some q ∧ Restored .swi swiPending q := by
  have hrun : (swiPending.runInst noAica).all (fun q => q.checkExcp.pcNext == 4) = true := by
    decide +kernel
  refine ⟨rfl, by decide +kernel, ?_⟩
  rintro ⟨q, hq, restored⟩
  rw [hq, all_some, beq_iff_eq, restored.next] at hrun
  revert hrun
  decide +kernel

/-- A core in user mode that is interrupted by an FIQ; at the vector is the return. -/
def fiqPending : Cpu Unit :=
  { bootCpu (fun _ => 0) [0, 0, 0, 0, 0, 0, 0, 0xe25ef004] with
    reg := fun i => if i = regCpsr then 0x10 else 0
    fiqLine := true
    excpDirty := true }

theorem fiq_return_restores :
    ∃ q, fiqPending.runInst noAica = some q ∧ Restored .fiq fiqPending q :=
  (excp_return_restores_iff noAica .fiq fiqPending rfl (by decide +kernel)).mpr
    ⟨rfl, by decide, rfl⟩

end Arm7
