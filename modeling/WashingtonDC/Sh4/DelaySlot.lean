import WashingtonDC.Sh4.Steps

/-!
# Delay slots of the SH4

A taken delayed branch is followed by exactly one instruction before the branch target, and a
handler starts at its vector with no branch pending. This holds for the runs in which no
instruction function enters an exception or an interrupt itself: after such an entry the source
still adds two to PC, and in a delay slot it goes to the branch target.
-/
namespace Sh4

open Relation Lockstep Option Cpu List

variable {ω : Type}

/-- The target of the delayed branch that is pending, and the address of the delay slot. -/
def Cpu.slot (c : Cpu ω) : Option (UInt32 × UInt32) :=
  if c.delayedBranch then some (c.delayedBranchAddr, c.pc) else none

/-- The pending branch after an event, read off the instruction that was executed. -/
def nextSlot (slot : Option (UInt32 × UInt32)) (h : Happened ω) : Option (UInt32 × UInt32) :=
  match h.action with
  | .inst word =>
    ((sh4DecodeInst word).func.target word h.before).map fun addr => (addr, h.before.pc + 2)
  | _ => slot

/-- The processor is at the first instruction of the handler of an entry. -/
def Entry.AtVector (e : Entry) (c : Cpu ω) : Prop :=
  ∃ offset, (e.code, offset) ∈ excpMeta ∧ c.pc = vectorAddr (e.reg regVbr) offset e.code

namespace Happened

variable (h : Happened ω)

/-- The instruction is not allowed in its delay slot, or its function enters an exception or an
interrupt. -/
def raises (env : Env ω) : Bool :=
  match h.action with
  | .inst word =>
    h.before.delayedBranch && (sh4DecodeInst word).pcRelative ||
      ((sh4DecodeInst word).func.run env word h.before).any fun c =>
        c.entered.length != h.before.entered.length
  | _ => false

structure Orderly : Prop where
  /-- If an exception or interrupt was entered, its handler comes next, with no branch pending. -/
  vector : h.after.entered ≠ h.before.entered → h.after.delayedBranch = false ∧
    ∃ e, h.after.entered = e :: h.before.entered ∧ e.AtVector h.after
  /-- After the instruction in a delay slot the branch has been taken, and if an interrupt was
  entered at that point it returns to the branch target. -/
  slot : ∀ word, h.action = .inst word → h.before.delayedBranch = true →
    h.after.delayedBranch = false ∧
      (h.after.entered = h.before.entered ∧ h.after.pc = h.before.delayedBranchAddr ∨
        h.after.entered ≠ h.before.entered ∧ h.after.reg regSpc = h.before.delayedBranchAddr)

end Happened

/-! ## Steps -/

section
variable {c c' : Cpu ω}

/-- A refresh does not touch a pending branch, and it enters at most one interrupt. -/
structure Refreshed (c c' : Cpu ω) : Prop where
  delayedBranch : c'.delayedBranch = c.delayedBranch
  delayedBranchAddr : c'.delayedBranchAddr = c.delayedBranchAddr
  entered : c'.entered = c.entered ∧ c'.pc = c.pc ∨
    c.delayedBranch = false ∧ ∃ e, c'.entered = e :: c.entered ∧ e.AtVector c'

theorem EntersIrq.atVector (enters : EntersIrq c c') :
    ∃ e, c'.entered = e :: c.entered ∧ e.AtVector c' :=
  ⟨_, enters.entered, enters.vector⟩

theorem refreshed_of_refresh (h : c.refreshIntc = some c') : Refreshed c c' := by
  cases refreshIntc_some h with
  | idle next eq | waits next slot eq =>
    subst eq
    exact ⟨rfl, rfl, .inl ⟨rfl, rfl⟩⟩
  | enters next noSlot enters =>
    exact ⟨enters.delayedBranch, enters.delayedBranchAddr,
      .inr ⟨noSlot, EntersIrq.atVector (c := c.pend _) enters⟩⟩

variable {loud : Bool} {word : UInt16} {env : Env ω}

theorem Prim.branch (step : Prim loud c c') :
    c'.delayedBranch = c.delayedBranch ∧ c'.delayedBranchAddr = c.delayedBranchAddr ∧
      c.entered <:+ c'.entered := by
  have of_frame : ∀ {b : Cpu ω}, Frame b c' → b.delayedBranch = c.delayedBranch →
      b.delayedBranchAddr = c.delayedBranchAddr → c.entered <:+ b.entered →
      c'.delayedBranch = c.delayedBranch ∧ c'.delayedBranchAddr = c.delayedBranchAddr ∧
        c.entered <:+ c'.entered := by
    intro b hframe h1 h2 h3
    exact ⟨hframe.delayedBranch.trans h1, hframe.delayedBranchAddr.trans h2, hframe.entered ▸ h3⟩
  cases step with
  | calm calm =>
    exact ⟨calm.delayedBranch, calm.delayedBranchAddr, by rw [calm.entered]⟩
  | irl val set =>
    obtain ⟨h1, h2, hentered⟩ := refreshed_of_refresh (c := c.setIrlLines val) set
    refine ⟨h1, h2, ?_⟩
    rcases hentered with ⟨hsame, -⟩ | ⟨-, e, hnew, -⟩
    · rw [hsame]
      exact suffix_rfl
    · rw [hnew]
      exact suffix_cons e _
  | setSr v isLoud set => exact of_frame set.frame rfl rfl suffix_rfl
  | intcReg isLoud i v set =>
    exact of_frame (refreshIntcDeferred_some set).1 rfl rfl suffix_rfl
  | excp isLoud code set =>
    exact of_frame (enters_of_some set).frame rfl rfl (suffix_cons _ _)

theorem prims_branch (steps : ReflTransGen (Prim loud) c c') :
    c'.delayedBranch = c.delayedBranch ∧ c'.delayedBranchAddr = c.delayedBranchAddr ∧
      c.entered <:+ c'.entered := by
  induction steps with
  | refl => exact ⟨rfl, rfl, suffix_rfl⟩
  | tail _ step ih =>
    obtain ⟨h1, h2, h3⟩ := ih
    obtain ⟨h1', h2', h3'⟩ := step.branch
    exact ⟨h1'.trans h1, h2'.trans h2, h3.trans h3'⟩

def Control.isBranch : Control → Bool
  | .rts | .rte | .unaryBrafGen | .unaryBsrfGen | .unaryBfsDisp | .unaryBtsDisp | .unaryBraDisp
  | .unaryBsrDisp | .unaryJmpIndgen | .unaryJsrIndgen => true
  | _ => false

/-- The patterns of the branches differ from that of TRAPA in the upper byte. -/
def InstOpcode.notTrapa (op : InstOpcode) : Bool :=
  !op.func.control.any Control.isBranch || (op.val ^^^ 0xc300) &&& (op.mask &&& 0xff00) != 0

theorem opcodeList_notTrapa : ∀ op ∈ opcodeList, op.notTrapa = true :=
  List.all_eq_true.mp (by decide +kernel)

theorem agree_on_common_bits (m k w : UInt16) : ((m &&& w) ^^^ (w &&& k)) &&& (m &&& k) = 0 := by
  apply UInt16.toBitVec_inj.mp
  ext i hi
  simp only [UInt16.toBitVec_and, UInt16.toBitVec_xor, BitVec.getElem_and, BitVec.getElem_xor]
  cases m.toBitVec[i] <;> cases k.toBitVec[i] <;> cases w.toBitVec[i] <;> simp

theorem incrementsPc_of_target {addr : UInt32}
    (h : (sh4DecodeInst word).func.target word c = some addr) : incrementsPc word = true := by
  have hbranch : (sh4DecodeInst word).func.control.any Control.isBranch = true := by
    obtain ⟨k, hk, htarget⟩ := bind_eq_some_iff.mp h
    rw [hk]
    cases k <;> first | rfl | cases htarget
  unfold sh4DecodeInst at hbranch
  cases hfind : opcodeList.find? fun op => op.mask &&& word = op.val with
  | none =>
    rw [hfind] at hbranch
    cases hbranch
  | some op =>
    rw [hfind] at hbranch
    have hpattern : op.mask &&& word = op.val := by simpa using find?_some hfind
    have htable := opcodeList_notTrapa op (mem_of_find?_eq_some hfind)
    have hdiff : (op.val ^^^ 0xc300) &&& (op.mask &&& 0xff00) ≠ 0 := by
      simpa [InstOpcode.notTrapa, show op.func.control.any Control.isBranch = true from hbranch]
        using htable
    by_contra htrapa
    have hword : word &&& 0xff00 = 0xc300 := by simpa [incrementsPc] using htrapa
    apply hdiff
    rw [← hpattern, ← hword]
    exact agree_on_common_bits op.mask 0xff00 word

theorem entered_of_not_raises (steps : ReflTransGen (Prim loud) c c')
    (same : (c'.entered.length != c.entered.length) = false) : c'.entered = c.entered := by
  have hlen : c'.entered.length = c.entered.length := by simpa using same
  exact ((prims_branch steps).2.2.eq_of_length hlen.symm).symm

theorem exec_outside (noSlot : c.delayedBranch = false)
    (calm : (⟨.inst word, c, c'⟩ : Happened ω).raises env = false)
    (h : c.doExecInst env word = some c') :
    c'.slot = nextSlot c.slot ⟨.inst word, c, c'⟩ ∧ c'.entered = c.entered := by
  simp only [Happened.raises, noSlot, Bool.false_and, Bool.false_or] at calm
  simp only [doExecInst, noSlot, Bool.false_and, Bool.not_false, if_true] at h
  obtain ⟨c1, hrun, hfinish⟩ := bind_eq_some_iff.mp h
  rw [hrun, any_some] at calm
  have hfinish : some (c1.advance word) = some c' := hfinish
  cases hfinish
  have hadvance := Calm.advance c1 word
  rcases OpFunc.run_some hrun with ⟨addr, htarget, hbranch⟩ | ⟨htarget, hsteps⟩
  · refine ⟨?_, hadvance.entered.trans hbranch.entered⟩
    have hpc : (c1.advance word).pc = c.pc + 2 := by
      unfold advance
      rw [if_pos (incrementsPc_of_target htarget), ← hbranch.pc]
      simp [pc, write_reg]
    simp only [Cpu.slot, nextSlot, htarget, hadvance.delayedBranch, hbranch.taken,
      hadvance.delayedBranchAddr, hbranch.addr, hpc]
    rfl
  · have hsame := entered_of_not_raises hsteps calm
    refine ⟨?_, hadvance.entered.trans hsame⟩
    have hoff : (c1.advance word).delayedBranch = false :=
      hadvance.delayedBranch.trans ((prims_branch hsteps).1.trans noSlot)
    simp only [Cpu.slot, nextSlot, htarget, hoff]
    rfl

theorem exec_inSlot (slot : c.delayedBranch = true)
    (calm : (⟨.inst word, c, c'⟩ : Happened ω).raises env = false)
    (h : c.doExecInst env word = some c') :
    c'.delayedBranch = false ∧
      (c'.entered = c.entered ∧ c'.pc = c.delayedBranchAddr ∨
        (∃ e, c'.entered = e :: c.entered ∧ e.AtVector c') ∧
          c'.reg regSpc = c.delayedBranchAddr) ∧
      (sh4DecodeInst word).func.target word c = none := by
  simp only [Happened.raises, slot, Bool.true_and, Bool.or_eq_false_iff] at calm
  obtain ⟨hallowed, hcalm⟩ := calm
  simp only [doExecInst, slot, hallowed, Bool.and_false, Bool.not_false, if_true] at h
  obtain ⟨c1, hrun, hfinish⟩ := bind_eq_some_iff.mp h
  rw [hrun, any_some] at hcalm
  rcases OpFunc.run_some hrun with ⟨addr, htarget, -⟩ | ⟨htarget, hsteps⟩
  · rw [target_none hallowed] at htarget
    cases htarget
  have hsame : (c1.advance word).entered = c.entered :=
    (Calm.advance c1 word).entered.trans (entered_of_not_raises hsteps hcalm)
  rcases checkInterruptsNoDelayBranchCheck_some (n := 1) hfinish with ⟨-, rfl⟩ | enters
  · refine ⟨rfl, .inl ⟨hsame, ?_⟩, htarget⟩
    simp [pc, write_reg]
  · refine ⟨enters.delayedBranch, .inr ⟨?_, enters.spc.trans ?_⟩, htarget⟩
    · obtain ⟨e, hnew, hvector⟩ := EntersIrq.atVector enters
      exact ⟨e, hnew.trans (congrArg (e :: ·) hsame), hvector⟩
    · simp [pc, write_reg]

end

/-! ## Events and runs -/

section
variable {env : Env ω} {c c' : Cpu ω} {a : Action}

theorem refreshed_orderly (notInst : ∀ word, a ≠ .inst word) (refreshed : Refreshed c c') :
    c'.slot = c.slot ∧ Happened.Orderly ⟨a, c, c'⟩ := by
  obtain ⟨hslot, haddr, hentered⟩ := refreshed
  refine ⟨?_, ?_, fun word haction => absurd haction (notInst word)⟩
  · unfold Cpu.slot
    rw [hslot, haddr]
    rcases hentered with ⟨-, hpc⟩ | ⟨hnoSlot, -⟩
    · rw [hpc]
    · rw [hnoSlot]
      rfl
  · intro hne
    rcases hentered with ⟨hsame, -⟩ | ⟨hnoSlot, e, hnew, hvector⟩
    · exact absurd hsame hne
    · exact ⟨hslot.trans hnoSlot, e, hnew, hvector⟩

theorem exec_orderly {word : UInt16} (calm : (⟨.inst word, c, c'⟩ : Happened ω).raises env = false)
    (h : c.doExecInst env word = some c') :
    c'.slot = nextSlot c.slot ⟨.inst word, c, c'⟩ ∧ Happened.Orderly ⟨.inst word, c, c'⟩ := by
  cases hslot : c.delayedBranch with
  | false =>
    obtain ⟨hnext, hsame⟩ := exec_outside hslot calm h
    refine ⟨hnext, fun hne => absurd hsame hne, ?_⟩
    intro _ _ hin
    rw [hslot] at hin
    cases hin
  | true =>
    obtain ⟨hoff, hexit, htarget⟩ := exec_inSlot hslot calm h
    refine ⟨?_, fun hne => ⟨hoff, ?_⟩, fun _ _ _ => ⟨hoff, ?_⟩⟩
    · simp only [Cpu.slot, hoff, nextSlot, htarget]
      rfl
    · rcases hexit with ⟨hsame, -⟩ | ⟨hnew, -⟩
      · exact absurd hsame hne
      · exact hnew
    · refine hexit.imp id fun ⟨⟨e, hnew, _⟩, hspc⟩ => ⟨?_, hspc⟩
      rw [hnew]
      exact cons_ne_self e _

theorem act_orderly (calm : (⟨a, c, c'⟩ : Happened ω).raises env = false) (h : c.act env a = some c') :
    c'.slot = nextSlot c.slot ⟨a, c, c'⟩ ∧ Happened.Orderly ⟨a, c, c'⟩ := by
  unfold act at h
  split at h
  · exact exec_orderly calm h
  · rename_i line code _
    have := refreshed_of_refresh (c := c.setLine line code) h
    exact refreshed_orderly nofun ⟨this.1, this.2, this.3⟩
  · rename_i val _
    have := refreshed_of_refresh (c := c.setIrlLines val) h
    exact refreshed_orderly nofun ⟨this.1, this.2, this.3⟩
  · split at h
    · cases h
      exact refreshed_orderly nofun ⟨rfl, rfl, .inl ⟨rfl, rfl⟩⟩
    · cases h
  · obtain ⟨c2, hc2, rfl⟩ := map_eq_some_iff.mp h
    obtain ⟨c1, hrefresh, rfl⟩ := map_eq_some_iff.mp hc2
    have := refreshed_of_refresh hrefresh
    exact refreshed_orderly nofun ⟨this.1, this.2, this.3⟩
  · cases h

theorem step_orderly {s s' : Cpu ω} {o : Happened ω} (h : s.step env a = some (o, s'))
    (calm : o.raises env = false) : s'.slot = nextSlot s.slot o ∧ o.Orderly := by
  obtain ⟨c', hact, hpair⟩ := map_eq_some_iff.mp h
  cases hpair
  exact act_orderly calm hact

end

/-- In every run whose instructions raise no exception and no interrupt themselves: before each
instruction a delayed branch is pending exactly if the instruction before it took one, with the
target and the delay slot of that instruction; after the instruction in the delay slot execution
goes on at the target; and every handler is started at its vector with no branch pending. -/
theorem delay_slots_orderly (env : Env ω) (c₀ c : Cpu ω) (as : List Action)
    (trace : List (Happened ω)) (reached : run (Cpu.step env) c₀ as = (trace, some c))
    (calm : ∀ h ∈ trace, h.raises env = false) :
    c.slot = trace.foldl nextSlot c₀.slot ∧ ∀ h ∈ trace, h.Orderly := by
  constructor
  · exact run_foldl (P := fun h => h.raises env = false)
      (fun hstep hcalm => (step_orderly hstep hcalm).1) reached calm
  · have hall : ∀ h ∈ (run (Cpu.step env) c₀ as).1, h.raises env = false → h.Orderly :=
      run_observes (fun hstep hcalm => (step_orderly hstep hcalm).2) c₀ as
    rw [reached] at hall
    exact fun h hmem => hall h hmem (calm h hmem)

/-- RTS with BRA in its delay slot: the exception for the illegal slot instruction is entered, and
the branch is still pending. -/
theorem illegal_slot_keeps_branch :
    ∃ h ∈ (run (Cpu.step bareEnv) (resetCpu fun _ => 0) [.inst 0x000b, .inst 0xa000]).1,
      h.after.entered.length ≠ h.before.entered.length ∧ h.after.delayedBranch = true := by
  decide +kernel

/-- RTS with NOP in its delay slot. -/
theorem rts_nop_orderly :
    (run (Cpu.step bareEnv) (resetCpu fun _ => 0) [.inst 0x000b, .inst 0x0009]).1.length = 2 ∧
      ∀ h ∈ (run (Cpu.step bareEnv) (resetCpu fun _ => 0) [.inst 0x000b, .inst 0x0009]).1,
        h.Orderly := by
  obtain ⟨c, hc⟩ := isSome_iff_exists.mp
    (show (run (Cpu.step bareEnv) (resetCpu fun _ => 0) [.inst 0x000b, .inst 0x0009]).2.isSome = true
      by decide +kernel)
  constructor
  · decide +kernel
  · exact (delay_slots_orderly bareEnv _ c _ _ (Prod.ext rfl hc) (by decide +kernel)).2

end Sh4
