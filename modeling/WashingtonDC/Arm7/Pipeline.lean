import WashingtonDC.Arm7.Exceptions

/-!
# The pipeline against a sequential machine

The sequential machine executes the word at an address `a` with R15 reading as `a + 8` and moves
to `a + 4` or to where the instruction jumped. It shares the instruction functions with the core;
the pipeline, and R15 between two instructions, are not part of its state.
-/
namespace Arm7

open Lockstep Option Arm7.Core

variable {σ : Type}

/-! ## The sequential machine -/

structure Sequential (σ : Type) where
  core : Core σ
  addr : UInt32

/-- Where the core goes: to the address `stay` unless it jumped. -/
def Core.target (c : Core σ) (stay : UInt32) : UInt32 := if c.pipelineFull then stay else c.pc

namespace Sequential

variable (s : Sequential σ)

/-- An exception is entered between two instructions; then R15 is set for the next one. -/
def enter : Sequential σ :=
  let c := { s.core with pipelineFull := true }.checkExcp s.addr
  let a := c.target s.addr
  ⟨{ c.write regPc (a + 8) with pipelineFull := true }, a⟩

def step (aica : AicaSys σ) : Action → Option (Event σ × Sequential σ)
  | .line call => some (.line call s.core.enabled, { s with core := s.core.call call })
  | .inst => do
    let word ← doFetchInst s.enter.core.mem s.enter.addr
    let d ← decode word
    let c ← exec aica d s.enter.core
    some (.inst ⟨s.enter.addr, word, s.enter.core, c⟩, ⟨c, c.target (s.enter.addr + 4)⟩)

end Sequential

/-! ## The relation between the two -/

/-- The cores agree except for R15 and the pipeline. -/
structure SameCore (c d : Core σ) : Prop where
  reg : ∀ i, i ≠ regPc → c.reg i = d.reg i
  excp : c.excp = d.excp
  enabled : c.enabled = d.enabled
  fiqLine : c.fiqLine = d.fiqLine
  excpDirty : c.excpDirty = d.excpDirty
  mem : c.mem = d.mem

namespace SameCore

variable {c d : Core σ}

section
variable (same : SameCore c d)
include same

theorem eq (pc : c.pc = d.pc) (full : c.pipelineFull = d.pipelineFull) : c = d := by
  have hreg : c.reg = d.reg := by
    funext i
    by_cases hi : i = regPc
    · subst hi
      exact pc
    · exact same.reg i hi
  obtain ⟨reg, excp, enabled, fiqLine, excpDirty, pipelineFull, mem⟩ := c
  obtain ⟨-, h2, h3, h4, h5, h6⟩ := same
  cases hreg; cases h2; cases h3; cases h4; cases h5; cases h6; cases full
  rfl

theorem write (i : Nat) (v : UInt32) : SameCore (c.write i v) (d.write i v) := by
  refine ⟨?_, same.excp, same.enabled, same.fiqLine, same.excpDirty, same.mem⟩
  intro j hj
  rw [write_reg, write_reg, same.reg j hj]

theorem cpsr : c.cpsr = d.cpsr := same.reg regCpsr (by decide)

theorem call (l : LineCall) : SameCore (c.call l) (d.call l) := by
  obtain ⟨h1, h2, h3, h4, h5, h6⟩ := same
  cases l with
  | setFiq => exact ⟨h1, h2, h3, rfl, rfl, h6⟩
  | clearFiq => exact ⟨h1, h2, h3, rfl, h5, h6⟩
  | reset val =>
    simp only [Core.call, Core.reset, h3]
    split
    · exact ⟨h1, by simp only [h2], rfl, h4, rfl, h6⟩
    · exact ⟨h1, h2, rfl, h4, h5, h6⟩

theorem excpEntry : c.excpEntry = d.excpEntry := by
  simp only [Core.excpEntry, same.excp, same.fiqLine, same.excpDirty, same.cpsr]

theorem enter (e : Entry) (pcNext : UInt32) : SameCore (c.enter e pcNext) (d.enter e pcNext) := by
  have hwrite := (((same.write e.spsr c.cpsr).write e.r14 (pcNext + 4)).write regPc e.vector).write
    regCpsr ((c.cpsr &&& ~~~mMask) ||| e.mode.bits ||| iMask ||| fMask)
  simp only [Core.enter, enterExcp, resetPipeline, ← same.cpsr]
  exact ⟨hwrite.reg, rfl, hwrite.enabled, hwrite.fiqLine, rfl, hwrite.mem⟩

end

end SameCore

/-- The pipeline holds the words at `a` and `a + 4`. -/
structure Cpu.Holds (p : Cpu σ) (a : UInt32) : Prop where
  pc0 : p.pipelinePc0 = a + 4
  inst1 : doFetchInst p.mem a = some p.pipeline1
  inst0 : doFetchInst p.mem (a + 4) = some p.pipeline0

/-- A core whose pipeline, if it is full, holds the next two words with R15 behind them. -/
def Cpu.Coherent (p : Cpu σ) : Prop :=
  p.pipelineFull = true → p.Holds p.pcNext ∧ p.pc = p.pcNext + 8

structure Matches (p : Cpu σ) (s : Sequential σ) : Prop where
  same : SameCore p.toCore s.core
  next : p.pcNext = s.addr
  holds : p.pipelineFull = true → p.Holds s.addr
  -- After an SWI R15 lags behind, until the exception is entered.
  pc : p.pipelineFull = true → p.pc = s.addr + 8 ∨ p.excp.swi = true ∧ p.excpDirty = true

theorem Cpu.Coherent.matches {p : Cpu σ} (coherent : p.Coherent) :
    Matches p ⟨p.toCore, p.pcNext⟩ :=
  ⟨⟨fun _ _ => rfl, rfl, rfl, rfl, rfl, rfl⟩, rfl, fun full => (coherent full).1,
    fun full => .inl (coherent full).2⟩

/-- The two machines after the exceptions have been checked. -/
structure Ready (p : Cpu σ) (s : Sequential σ) : Prop where
  same : SameCore p.toCore s.core
  pc : s.core.pc = s.addr + 8
  full : s.core.pipelineFull = true
  next : p.pcNext = s.addr
  holds : p.pipelineFull = true → p.Holds s.addr ∧ p.pc = s.addr + 8

theorem Core.swi_taken {c : Core σ} (swi : c.excp.swi = true) (dirty : c.excpDirty = true) :
    c.excpEntry ≠ none := by
  simp only [Core.excpEntry, dirty, swi]
  split
  · contradiction
  split
  · simp
  split <;> simp

theorem Matches.ready {p : Cpu σ} {s : Sequential σ} (rel : Matches p s) :
    Ready p.checkExcp s.enter := by
  have hsame : SameCore p.toCore { s.core with pipelineFull := true } :=
    ⟨rel.same.reg, rel.same.excp, rel.same.enabled, rel.same.fiqLine, rel.same.excpDirty,
      rel.same.mem⟩
  have hp := p.toCore.checkExcp_eq p.pcNext
  have hs := checkExcp_eq { s.core with pipelineFull := true } s.addr
  rw [← hsame.excpEntry] at hs
  cases hentry : p.toCore.excpEntry with
  | none =>
    rw [hentry] at hp hs
    have henter : s.enter =
        ⟨{ ({ s.core with excpDirty := false } : Core σ).write regPc (s.addr + 8) with
            pipelineFull := true }, s.addr⟩ := by
      simp only [Sequential.enter, hs, target, if_true]
      rfl
    have hcheck : p.checkExcp = { p with excpDirty := false } := by
      simp only [Cpu.checkExcp, hp]
    rw [henter, hcheck]
    refine ⟨⟨?_, hsame.excp, hsame.enabled, hsame.fiqLine, rfl, hsame.mem⟩, ?_, rfl, rel.next, ?_⟩
    · intro i hi
      simp only [write_reg, hi, if_false]
      exact rel.same.reg i hi
    · simp [Core.pc, write_reg]
    · intro full
      have hpc := (rel.pc full).resolve_right fun h => swi_taken h.1 h.2 hentry
      exact ⟨⟨(rel.holds full).pc0, (rel.holds full).inst1, (rel.holds full).inst0⟩, hpc⟩
  | some e =>
    rw [hentry] at hp hs
    rw [rel.next] at hp
    have hboth := hsame.enter e s.addr
    have hvec : (Core.enter { s.core with pipelineFull := true } e s.addr).pc = e.vector := by
      simp [Core.enter, enterExcp, resetPipeline, Core.pc, write_reg]
    have hvecp : (p.toCore.enter e s.addr).pc = e.vector := by
      simp [Core.enter, enterExcp, resetPipeline, Core.pc, write_reg]
    have henter : s.enter =
        ⟨{ (Core.enter { s.core with pipelineFull := true } e s.addr).write regPc (e.vector + 8) with
            pipelineFull := true }, e.vector⟩ := by
      simp only [Sequential.enter, hs, target]
      rw [if_neg (by simp [Core.enter, enterExcp, resetPipeline]), hvec]
    have hcheck : p.checkExcp = { p with toCore := p.toCore.enter e s.addr } := by
      simp only [Cpu.checkExcp, rel.next, hp]
    rw [henter, hcheck]
    refine ⟨⟨?_, hboth.excp, hboth.enabled, hboth.fiqLine, hboth.excpDirty, hboth.mem⟩, ?_, rfl,
      hvecp, ?_⟩
    · intro i hi
      simp only [write_reg, hi, if_false]
      exact hboth.reg i hi
    · simp [Core.pc, write_reg]
    · intro full
      cases full

/-! ## One step -/

section
variable {p : Cpu σ} {s : Sequential σ}

theorem Ready.refill_some {k : Nat} {q : Cpu σ} (ready : Ready p s)
    (h : p.refill = some (k, q)) :
    ∃ w0 w1, doFetchInst s.core.mem s.addr = some w1 ∧
      doFetchInst s.core.mem (s.addr + 4) = some w0 ∧ q = ⟨s.core, w0, s.addr + 4, w1, s.addr⟩ := by
  unfold Cpu.refill at h
  have hmem := ready.same.mem
  split at h
  · rename_i full
    cases h
    obtain ⟨hholds, hpc⟩ := ready.holds full
    have hcore : p.toCore = s.core :=
      ready.same.eq (hpc.trans ready.pc.symm) (full.trans ready.full.symm)
    have hpc1 : p.pipelinePc1 = s.addr := by
      have := ready.next
      rwa [Cpu.pcNext, if_pos full] at this
    refine ⟨p.pipeline0, p.pipeline1, hmem ▸ hholds.inst1, hmem ▸ hholds.inst0, ?_⟩
    rw [← hcore, ← hpc1, hpc1, ← hholds.pc0, ← hpc1]
  · rename_i empty
    obtain ⟨w0, h0, h⟩ := bind_eq_some_iff.mp h
    obtain ⟨w1, h1, h⟩ := bind_eq_some_iff.mp h
    have hnext : p.pc = s.addr := by
      have := ready.next
      rwa [Cpu.pcNext, if_neg empty] at this
    rw [hnext] at h0 h1 h
    rw [hmem] at h0 h1
    refine ⟨w0, w1, h1, h0, ?_⟩
    have hcore : { p.toCore.write regPc (s.addr + 8) with pipelineFull := true } = s.core := by
      apply SameCore.eq
      · refine ⟨?_, ready.same.excp, ready.same.enabled, ready.same.fiqLine,
          ready.same.excpDirty, hmem⟩
        intro i hi
        simp only [write_reg, hi, if_false]
        exact ready.same.reg i hi
      · rw [ready.pc]
        simp [Core.pc, write_reg]
      · exact ready.full.symm
    rw [hcore] at h
    cases h
    rfl

theorem Ready.refill_isSome {w0 w1 : UInt32} (ready : Ready p s)
    (h1 : doFetchInst s.core.mem s.addr = some w1)
    (h0 : doFetchInst s.core.mem (s.addr + 4) = some w0) : ∃ k q, p.refill = some (k, q) := by
  unfold Cpu.refill
  split
  · exact ⟨0, p, rfl⟩
  · rename_i empty
    have hnext : p.pc = s.addr := by
      have := ready.next
      rwa [Cpu.pcNext, if_neg empty] at this
    rw [hnext, ready.same.mem, h0, h1]
    exact ⟨_, _, rfl⟩
end

namespace Executed

variable (e : Executed σ)

def ReadsPc : Prop := e.fetched.pc = e.addr + 8

def StoreSafe : Prop :=
  doFetchInst e.done.mem (e.addr + 4) = doFetchInst e.fetched.mem (e.addr + 4) ∧
    doFetchInst e.done.mem (e.addr + 8) = doFetchInst e.fetched.mem (e.addr + 8)

def Prefetches : Prop :=
  (doFetchInst e.fetched.mem (e.addr + 4)).isSome = true ∧
    (doFetchInst e.fetched.mem (e.addr + 8)).isSome = true

end Executed

instance : DecidablePred (@Executed.ReadsPc σ) := fun _ =>
  inferInstanceAs (Decidable (_ = _))

instance : DecidablePred (@Executed.StoreSafe σ) := fun _ =>
  inferInstanceAs (Decidable (_ ∧ _))

instance : DecidablePred (@Executed.Prefetches σ) := fun _ =>
  inferInstanceAs (Decidable (_ ∧ _))

/-- If the event is an executed instruction, the instruction has the property. -/
def Event.Each (P : Executed σ → Prop) : Event σ → Prop
  | .line _ _ => True
  | .inst e => P e

instance (P : Executed σ → Prop) [DecidablePred P] : DecidablePred (Event.Each P)
  | .line _ _ => isTrue trivial
  | .inst e => inferInstanceAs (Decidable (P e))

/-- The condition under which an executed instruction leaves the pipeline intact. -/
def Executed.Harmless (e : Executed σ) : Prop :=
  e.StoreSafe ∧ e.Prefetches ∧ e.isMrsToPc = false

instance : DecidablePred (@Executed.Harmless σ) := fun _ =>
  inferInstanceAs (Decidable (_ ∧ _))

section
variable {aica : AicaSys σ} {p : Cpu σ} {s : Sequential σ}

theorem Ready.fetchInst {d : DecodedInst} {q : Cpu σ} (ready : Ready p.checkExcp s.enter)
    (h : p.fetchInst = some (d, q)) :
    ∃ w0 w1 w2 d', doFetchInst s.enter.core.mem s.enter.addr = some w1 ∧
      doFetchInst s.enter.core.mem (s.enter.addr + 4) = some w0 ∧
      doFetchInst s.enter.core.mem (s.enter.addr + 8) = some w2 ∧ decode w1 = some d' ∧
      d = { d' with cycles := d.cycles } ∧
      q = ⟨s.enter.core, w2, s.enter.addr + 8, w0, s.enter.addr + 4⟩ := by
  obtain ⟨⟨k, q'⟩, hrefill, h⟩ := bind_eq_some_iff.mp h
  obtain ⟨w0, w1, h1, h0, rfl⟩ := ready.refill_some hrefill
  obtain ⟨w2, h2, h⟩ := bind_eq_some_iff.mp h
  obtain ⟨d', hd, h⟩ := bind_eq_some_iff.mp h
  rw [ready.pc] at h2 h
  cases h
  exact ⟨w0, w1, w2, d', h1, h0, h2, hd, rfl, rfl⟩

theorem exec_cycles (d : DecodedInst) (cycles : Nat) (c : Core σ) :
    exec aica { d with cycles } c = exec aica d c := rfl

theorem Ready.fetchInst_isSome {w0 w1 w2 : UInt32} {d : DecodedInst}
    (ready : Ready p.checkExcp s.enter)
    (h1 : doFetchInst s.enter.core.mem s.enter.addr = some w1)
    (h0 : doFetchInst s.enter.core.mem (s.enter.addr + 4) = some w0)
    (h2 : doFetchInst s.enter.core.mem (s.enter.addr + 8) = some w2)
    (hd : decode w1 = some d) : ∃ d' q, p.fetchInst = some (d', q) := by
  obtain ⟨k, q, hrefill⟩ := ready.refill_isSome h1 h0
  obtain ⟨w0', w1', h1', h0', rfl⟩ := ready.refill_some hrefill
  rw [h1] at h1'
  cases h1'
  unfold Cpu.fetchInst
  simp only [hrefill, bind_eq_bind, bind_some, ready.pc, h2, hd]
  exact ⟨_, _, rfl⟩

theorem matches_executed {c : Core σ} {d : DecodedInst} {w0 w1 w2 : UInt32} (s : Sequential σ)
    (pc : s.core.pc = s.addr + 8)
    (done : exec aica d s.core = some c)
    (h0 : doFetchInst s.core.mem (s.addr + 4) = some w0)
    (h2 : doFetchInst s.core.mem (s.addr + 8) = some w2)
    (safe : Executed.StoreSafe ⟨s.addr, w1, s.core, c⟩) (notMrs : d.mrsToPc s.core = false) :
    Matches ⟨c, w2, s.addr + 8, w0, s.addr + 4⟩ ⟨c, c.target (s.addr + 4)⟩ := by
  have hadd : s.addr + 4 + 4 = s.addr + 8 := by rw [UInt32.add_assoc]; rfl
  refine ⟨⟨fun _ _ => rfl, rfl, rfl, rfl, rfl, rfl⟩, rfl, ?_, ?_⟩
  · intro (full : c.pipelineFull = true)
    simp only [target, full, if_true]
    refine ⟨hadd.symm, safe.1.trans h0, ?_⟩
    rw [hadd]
    exact safe.2.trans h2
  · intro (full : c.pipelineFull = true)
    simp only [target, full, if_true]
    rcases exec_moves done notMrs with hjump | ⟨hpc, -⟩ | rfl
    · rw [hjump] at full
      cases full
    · left
      rw [hpc, pc, UInt32.add_assoc, UInt32.add_assoc]
      rfl
    · exact .inr ⟨rfl, rfl⟩

theorem Core.call_frame (c : Core σ) (l : LineCall) :
    (c.call l).reg = c.reg ∧ (c.call l).mem = c.mem ∧
      (c.call l).pipelineFull = c.pipelineFull ∧ (c.call l).excp.swi = c.excp.swi ∧
      (c.excpDirty = true → (c.call l).excpDirty = true) := by
  cases l with
  | setFiq => exact ⟨rfl, rfl, rfl, rfl, fun _ => rfl⟩
  | clearFiq => exact ⟨rfl, rfl, rfl, rfl, id⟩
  | reset val =>
    simp only [Core.call, Core.reset]
    split
    · exact ⟨rfl, rfl, rfl, rfl, fun _ => rfl⟩
    · exact ⟨rfl, rfl, rfl, rfl, id⟩

theorem Matches.line (rel : Matches p s) (call : LineCall) :
    Matches { p with toCore := p.toCore.call call } { s with core := s.core.call call } := by
  obtain ⟨hreg, hmem, hfull, hswi, hdirty⟩ := p.toCore.call_frame call
  refine ⟨rel.same.call call, ?_, ?_, ?_⟩
  · have := rel.next
    unfold Cpu.pcNext Core.pc at this ⊢
    rw [hfull, hreg]
    exact this
  · intro full
    obtain ⟨h0, h1, h2⟩ := rel.holds (hfull ▸ full)
    exact ⟨h0, hmem.symm ▸ h1, hmem.symm ▸ h2⟩
  · intro full
    rcases rel.pc (hfull ▸ full) with hpc | ⟨h1, h2⟩
    · exact .inl ((congrFun hreg regPc).trans hpc)
    · exact .inr ⟨hswi.trans h1, hdirty h2⟩

theorem Matches.step {a : Action} (rel : Matches p s)
    (harmless : ∀ o s', s.step aica a = some (o, s') → o.Each Executed.Harmless) :
    Agree Matches (p.step aica a) (s.step aica a) := by
  cases a with
  | line call =>
    rw [Cpu.step, Sequential.step, rel.same.enabled]
    exact .step (rel.line call)
  | inst =>
    have ready := rel.ready
    cases hs : s.step aica .inst with
    | none =>
      -- The pipeline cannot complete what the sequential machine does not.
      cases hp : p.step aica .inst with
      | none => exact .stop
      | some r =>
        obtain ⟨⟨d, q⟩, hfetch, h⟩ := bind_eq_some_iff.mp hp
        obtain ⟨c, hexec, -⟩ := bind_eq_some_iff.mp h
        obtain ⟨w0, w1, w2, d', h1, -, -, hd, hcycles, rfl⟩ := ready.fetchInst hfetch
        rw [hcycles, exec_cycles] at hexec
        simp only [Sequential.step, h1, hd, bind_eq_bind, bind_some] at hs
        rw [hexec] at hs
        cases hs
    | some r =>
      obtain ⟨w1, h1, h⟩ := bind_eq_some_iff.mp hs
      obtain ⟨d, hd, h⟩ := bind_eq_some_iff.mp h
      obtain ⟨c, hexec, h⟩ := bind_eq_some_iff.mp h
      cases h
      obtain ⟨hsafe, ⟨hpre0, hpre2⟩, hmrs⟩ := harmless _ _ hs
      obtain ⟨w0, h0⟩ := isSome_iff_exists.mp hpre0
      obtain ⟨w2, h2⟩ := isSome_iff_exists.mp hpre2
      obtain ⟨d', q, hfetch⟩ := ready.fetchInst_isSome h1 h0 h2 hd
      obtain ⟨w0', w1', w2', d'', h1', h0', h2', hd', hcycles, rfl⟩ := ready.fetchInst hfetch
      rw [h1] at h1'
      rw [h0] at h0'
      rw [h2] at h2'
      cases h1'; cases h0'; cases h2'
      rw [hd] at hd'
      cases hd'
      have hstep : p.step aica .inst =
          some (.inst ⟨s.enter.addr, w1, s.enter.core, c⟩,
            ⟨c, w2, s.enter.addr + 8, w0, s.enter.addr + 4⟩) := by
        simp only [Cpu.step, hfetch, bind_eq_bind, bind_some]
        rw [hcycles, exec_cycles, hexec, ready.next]
        simp only [bind_some, decode_inst hd]
      rw [hstep]
      refine .step (matches_executed s.enter ready.pc hexec h0 h2 hsafe ?_)
      simpa [Executed.isMrsToPc, hd] using hmrs
end

/-! ## Runs -/

theorem Sequential.step_readsPc {aica : AicaSys σ} {s s' : Sequential σ} {a : Action}
    {o : Event σ} (hstep : s.step aica a = some (o, s')) :
    o.Each Executed.ReadsPc := by
  cases a with
  | line call =>
    cases hstep
    trivial
  | inst =>
    obtain ⟨w, -, h⟩ := bind_eq_some_iff.mp hstep
    obtain ⟨d, -, h⟩ := bind_eq_some_iff.mp h
    obtain ⟨c, -, h⟩ := bind_eq_some_iff.mp h
    cases h
    simp [Event.Each, Executed.ReadsPc, Sequential.enter, Core.pc, write_reg]

/-- A core that starts with an empty pipeline, or with the next two words in it, runs as the
sequential machine does, and R15 reads as the address of the executed instruction plus eight.
No instruction may modify the two words behind it, an MRS must not name R15, and the two words
behind an executed instruction must exist. -/
theorem pipeline_runs_sequentially (aica : AicaSys σ) (p : Cpu σ) (coherent : p.Coherent)
    (as : List Action)
    (harmless : ∀ o ∈ (run (Sequential.step · aica) ⟨p.toCore, p.pcNext⟩ as).1,
      o.Each Executed.Harmless) :
    (run (Cpu.step aica) p as).1 = (run (Sequential.step · aica) ⟨p.toCore, p.pcNext⟩ as).1 ∧
      ∀ o ∈ (run (Cpu.step aica) p as).1, o.Each Executed.ReadsPc := by
  have htrace : (run (Cpu.step aica) p as).1 =
      (run (Sequential.step · aica) ⟨p.toCore, p.pcNext⟩ as).1 :=
    run_lockstep (fun rel allowed => rel.step allowed) coherent.matches harmless
  refine ⟨htrace, ?_⟩
  rw [htrace]
  exact run_observes (fun hstep => Sequential.step_readsPc hstep) _ as

def mrsPcProgram : Cpu Unit := bootCpu (fun _ => 0) [0xe10ff000, 0xe1a0000f]

/-- MRS writes R15 and leaves the pipeline as it is: the MOV behind it does not read R15 as its
own address plus eight. -/
theorem mrs_to_pc_leaves_pipeline :
    (∀ o ∈ (run (Cpu.step noAica) mrsPcProgram [.inst, .inst]).1, o.Each Executed.StoreSafe) ∧
      ∃ o ∈ (run (Cpu.step noAica) mrsPcProgram [.inst, .inst]).1, ¬o.Each Executed.ReadsPc := by
  decide +kernel

def readPcProgram : Cpu Unit := bootCpu (fun _ => 0) [0xe1a0000f, 0xeafffffd]

theorem readPc_runs_sequentially :
    (run (Cpu.step noAica) readPcProgram [.inst, .line .setFiq, .inst, .inst]).1 =
        (run (Sequential.step · noAica) ⟨readPcProgram.toCore, readPcProgram.pcNext⟩
          [.inst, .line .setFiq, .inst, .inst]).1 ∧
      ∀ o ∈ (run (Cpu.step noAica) readPcProgram [.inst, .line .setFiq, .inst, .inst]).1,
        o.Each Executed.ReadsPc :=
  pipeline_runs_sequentially noAica readPcProgram nofun _ (by decide +kernel)

end Arm7
