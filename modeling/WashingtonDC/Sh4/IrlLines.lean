import WashingtonDC.Sh4.Steps

/-!
# The IRL lines of the SH4

Who changes the four IRL lines. Besides `sh4_set_irl_interrupt` only the entry of an IRL interrupt
does: it clears all four if they are a bus, and its own line otherwise. Instructions that drive
the lines through a device are left to the caller, which makes that a step of its own.
-/
namespace Sh4

open Option

variable {ω : Type}

/-! ## Entries -/

def isIrlLine (line : Nat) : Bool := irqIrl3 ≤ line && line ≤ irqIrl0

theorem isIrlLine_iff {line : Nat} :
    isIrlLine line = true ↔ line = irqIrl3 ∨ line = irqIrl2 ∨ line = irqIrl1 ∨ line = irqIrl0 := by
  simp only [isIrlLine, Bool.and_eq_true, decide_eq_true_eq, irqIrl3, irqIrl2, irqIrl1, irqIrl0]
  omega

/-- The interrupt comes from the IRL lines, as a bus or each on its own. -/
def IrqMeta.fromIrl (irq : IrqMeta) : Bool := irq.isIrl || isIrlLine irq.line

def Entry.fromIrl (e : Entry) : Bool := e.irq.any IrqMeta.fromIrl

/-- The priority that the IRL lines present, zero if none is asserted. -/
def Intc.irlLevel (intc : Intc) : Nat := irlPrio intc.irlVal

def Intc.acknowledge (intc : Intc) (irq : IrqMeta) : Intc :=
  { intc with irqLines := fun line =>
      if irq.isIrl then if isIrlLine line then 0 else intc.irqLines line
      else if line = irq.line then 0 else intc.irqLines line }

/-- What the IRL lines still present after an entry: nothing, if they are a bus. -/
def Entry.leftLevel (e : Entry) : Nat :=
  match e.irq with
  | some irq => if irq.isIrl then 0 else (e.intc.acknowledge irq).irlLevel
  | none => e.intc.irlLevel

def SameIrl (intc intc' : Intc) : Prop :=
  ∀ line, isIrlLine line = true → intc'.irqLines line = intc.irqLines line

theorem SameIrl.irlLevel {intc intc' : Intc} (same : SameIrl intc intc') :
    intc'.irlLevel = intc.irlLevel := by
  unfold Intc.irlLevel Intc.irlVal
  rw [same irqIrl0 rfl, same irqIrl1 rfl, same irqIrl2 rfl, same irqIrl3 rfl]

theorem irlLevel_acknowledge_bus (intc : Intc) {irq : IrqMeta} (bus : irq.isIrl = true) :
    (intc.acknowledge irq).irlLevel = 0 := by
  simp [Intc.irlLevel, Intc.irlVal, irlPrio, Intc.acknowledge, bus, isIrlLine_iff]

namespace Cpu

theorem setIrlLines_lines (c : Cpu ω) (val : UInt32) (line : Nat) :
    (c.setIrlLines val).intc.irqLines line =
      if line = irqIrl3 then if ~~~val &&& 8 ≠ 0 then 0x360 else 0
      else if line = irqIrl2 then if ~~~val &&& 4 ≠ 0 then 0x300 else 0
      else if line = irqIrl1 then if ~~~val &&& 2 ≠ 0 then 0x2a0 else 0
      else if line = irqIrl0 then if ~~~val &&& 1 ≠ 0 then 0x240 else 0
      else c.intc.irqLines line := by
  simp only [setIrlLines, setLine, Function.update_apply]

theorem acknowledge_lines (c : Cpu ω) (irq : IrqMeta) :
    (c.acknowledge irq).intc.irqLines = (c.intc.acknowledge irq).irqLines := by
  funext line
  by_cases hbus : irq.isIrl = true
  · simp only [acknowledge, Intc.acknowledge, hbus, if_true, setIrlLines_lines, isIrlLine_iff]
    have hoff3 : ~~~(0xf : UInt32) &&& 8 = 0 := rfl
    have hoff2 : ~~~(0xf : UInt32) &&& 4 = 0 := rfl
    have hoff1 : ~~~(0xf : UInt32) &&& 2 = 0 := rfl
    have hoff0 : ~~~(0xf : UInt32) &&& 1 = 0 := rfl
    rw [hoff3, hoff2, hoff1, hoff0]
    simp only [ne_eq, not_true_eq_false, if_false]
    grind
  · simp [acknowledge, Intc.acknowledge, hbus, setLine, Function.update_apply]

/-! ## Steps that keep the lines -/

/-- The lines are as before, and no interrupt from them was entered. -/
structure KeepsIrl (c c' : Cpu ω) : Prop where
  lines : SameIrl c.intc c'.intc
  entered : ∃ es, c'.entered = es ++ c.entered ∧ ∀ e ∈ es, e.fromIrl = false

/-- The last entry is an interrupt from the lines, which have been acknowledged. -/
structure EntersIrl (c : Cpu ω) (e : Entry) (c' : Cpu ω) : Prop where
  fromIrl : e.fromIrl = true
  presented : e.intc.irlLevel = c.intc.irlLevel
  left : c'.intc.irlLevel = e.leftLevel
  entered : c'.entered = e :: c.entered

namespace KeepsIrl

variable {c c' c'' : Cpu ω}

theorem refl (c : Cpu ω) : KeepsIrl c c := ⟨fun _ _ => rfl, [], rfl, by simp⟩

theorem trans (first : KeepsIrl c c') (second : KeepsIrl c' c'') : KeepsIrl c c'' := by
  obtain ⟨es, hes, hfirst⟩ := first.entered
  obtain ⟨es', hes', hsecond⟩ := second.entered
  refine ⟨fun line h => (second.lines line h).trans (first.lines line h), es' ++ es, ?_, ?_⟩
  · rw [hes', hes, List.append_assoc]
  · intro e he
    rcases List.mem_append.mp he with he | he
    · exact hsecond e he
    · exact hfirst e he

theorem of_eq (intc : c'.intc = c.intc) (entered : c'.entered = c.entered) : KeepsIrl c c' :=
  ⟨fun _ _ => by rw [intc], [], by simp [entered], by simp⟩

theorem of_frame (frame : Frame c c') : KeepsIrl c c' := of_eq frame.intc frame.entered

theorem of_calm (calm : Calm c c') : KeepsIrl c c' := of_eq calm.intc calm.entered

theorem of_branches {addr : UInt32} (branches : Branches c addr c') : KeepsIrl c c' :=
  of_eq branches.intc branches.entered

theorem write (c : Cpu ω) (i : Nat) (v : UInt32) : KeepsIrl c (c.write i v) := of_eq rfl rfl

theorem setException {code : UInt32} (h : c.setException code = some c') : KeepsIrl c c' := by
  have henters := (enters_of_some h).frame
  refine ⟨fun _ _ => by rw [henters.intc]; rfl, [⟨code, none, c.reg, c.intc⟩], ?_, ?_⟩
  · exact henters.entered
  · simp [Entry.fromIrl]

theorem intcRegWriteHandler {i : Nat} {v : UInt32} (h : c.intcRegWriteHandler i v = some c') :
    KeepsIrl c c' :=
  (write c i v).trans (of_frame (refreshIntcDeferred_some h).1)

theorem setLine (c : Cpu ω) {line : Nat} (code : UInt32) (other : isIrlLine line = false) :
    KeepsIrl c (c.setLine line code) := by
  refine ⟨?_, [], rfl, by simp⟩
  intro l hl
  have hne : l ≠ line := by
    rintro rfl
    rw [hl] at other
    cases other
  simp [Cpu.setLine, hne]

end KeepsIrl

section
variable {c c' : Cpu ω}

theorem enterPending_irl {n : Nat}
    (h : c.checkInterruptsNoDelayBranchCheck (refreshIntcFuel (n + 1)) = some c') :
    KeepsIrl c c' ∨ ∃ e, EntersIrl c e c' := by
  rcases checkInterruptsNoDelayBranchCheck_some h with ⟨-, rfl⟩ | henters
  · exact .inl (.refl _)
  have hlines : c'.intc.irqLines = (c.intc.acknowledge c.intc.pendingIrq).irqLines := by
    unfold checkInterruptsNoDelayBranchCheck at h
    rw [if_pos henters.pending, enterIrqFromMeta_eq, map_map] at h
    obtain ⟨c1, henter, rfl⟩ := map_eq_some_iff.mp h
    have hintc : c1.intc = c.intc := (enters_of_some henter).frame.intc
    change (c1.acknowledge c.intc.pendingIrq).intc.irqLines = _
    rw [acknowledge_lines, hintc]
  have hsame : SameIrl (c.intc.acknowledge c.intc.pendingIrq) c'.intc := by
    intro line _
    rw [hlines]
  by_cases hirl : c.intc.pendingIrq.fromIrl = true
  · refine .inr ⟨_, ?_, ?_, ?_, henters.entered⟩
    · simpa [Entry.fromIrl] using hirl
    · rfl
    · rw [hsame.irlLevel]
      simp only [Entry.leftLevel]
      split
      · rename_i hbus
        exact irlLevel_acknowledge_bus _ hbus
      · rfl
  · -- Another line is cleared.
    rw [Bool.not_eq_true, IrqMeta.fromIrl, Bool.or_eq_false_iff] at hirl
    refine .inl ⟨?_, [_], henters.entered, ?_⟩
    · intro line hline
      have hne : line ≠ c.intc.pendingIrq.line := by
        intro heq
        rw [heq, hirl.2] at hline
        cases hline
      rw [hlines]
      simp [Intc.acknowledge, hirl.1, hne]
    · simp [Entry.fromIrl, IrqMeta.fromIrl, hirl]

theorem refreshIntc_irl (h : c.refreshIntc = some c') :
    KeepsIrl c c' ∨ ∃ e, EntersIrl c e c' := by
  have h : c.updatePending.checkInterrupts (refreshIntcFuel 1) = some c' := h
  have hupdate : c.updatePending.intc.irqLines = c.intc.irqLines ∧
      c.updatePending.entered = c.entered := by
    unfold updatePending
    split <;> exact ⟨rfl, rfl⟩
  have hkeeps : KeepsIrl c c.updatePending :=
    ⟨fun _ _ => by rw [hupdate.1], [], by simp [hupdate.2], by simp⟩
  unfold checkInterrupts at h
  split at h
  · rcases enterPending_irl h with hkept | ⟨e, hirl, hpres, hleft, hent⟩
    · exact .inl (hkeeps.trans hkept)
    · exact .inr ⟨e, hirl, hpres.trans hkeeps.lines.irlLevel, hleft, by rw [hent, hupdate.2]⟩
  · cases h
    exact .inl hkeeps

end

end Cpu

/-! ## Instructions -/

def Effect.drivesIrl : Effect → Bool
  | .irl _ => true
  | _ => false

/-- An environment whose instruction functions and reads do not drive the IRL lines. -/
structure QuietEnv (ω : Type) extends Env ω where
  plain_quiet : ∀ {f inst c effects world},
    plain f inst c = some (effects, world) → ∀ e ∈ effects, e.drivesIrl = false
  read32_quiet : ∀ {addr c val effects world},
    read32 addr c = some (val, effects, world) → ∀ e ∈ effects, e.drivesIrl = false

namespace Cpu.KeepsIrl

variable {env : QuietEnv ω} {inst : UInt16} {c c' : Cpu ω}

theorem apply {e : Effect} (quiet : e.drivesIrl = false) (h : c.apply e = some c') :
    KeepsIrl c c' := by
  cases e with
  | write i plain val => cases h; exact write c i val
  | setFlags _ | setFpscrBits _ => cases h; exact write c _ _
  | icr val => exact intcRegWriteHandler h
  | ipr n val =>
    match n with
    | 0 | 1 | 2 | 3 => exact intcRegWriteHandler h
  | irl val => cases quiet
  | invalid => exact setException h

theorem applyAll {effects : List Effect} (quiet : ∀ e ∈ effects, e.drivesIrl = false)
    (h : c.applyAll effects = some c') : KeepsIrl c c' :=
  Lockstep.foldlM_invariant (fun hmem he keeps => keeps.trans (apply (quiet _ hmem) he)) h (refl c)

theorem memoryMapRead32 {addr val : UInt32}
    (h : c.memoryMapRead32 env.toEnv addr = some (val, c')) : KeepsIrl c c' := by
  obtain ⟨⟨val', effects, world⟩, hread, h⟩ := bind_eq_some_iff.mp h
  obtain ⟨c1, happly, h⟩ := bind_eq_some_iff.mp h
  cases h
  exact (applyAll (env.read32_quiet hread) happly).trans (of_eq rfl rfl)

theorem control {k : Control} (h : k.run env.toEnv inst c = some c') : KeepsIrl c c' := by
  rcases Control.run_steps ⟨of_calm, fun _ set => of_frame set.frame, fun _ => setException⟩
      (fun _ _ _ hread => .single (memoryMapRead32 hread)) h with ⟨addr, -, hbranch⟩ | ⟨-, hsteps⟩
  · exact of_branches hbranch
  · clear h
    induction hsteps with
    | refl => exact refl c
    | tail _ step ih => exact ih.trans step

theorem opFunc {f : OpFunc} (h : f.run env.toEnv inst c = some c') : KeepsIrl c c' := by
  unfold OpFunc.run at h
  split at h
  · exact control h
  · obtain ⟨⟨effects, world⟩, hplain, h⟩ := bind_eq_some_iff.mp h
    obtain ⟨c1, happly, h⟩ := bind_eq_some_iff.mp h
    cases h
    exact (applyAll (env.plain_quiet hplain) happly).trans (of_eq rfl rfl)

end Cpu.KeepsIrl

/-! ## Actions -/

def Action.sparesIrl : Action → Bool
  | .setInterrupt line _ => !isIrlLine line
  | .setIrlInterrupt _ => false
  | _ => true

namespace Cpu

variable {env : QuietEnv ω} {inst : UInt16} {c c' : Cpu ω}

/-- The lines are kept by everything before an interrupt is entered. -/
def MovesIrl (c c' : Cpu ω) : Prop :=
  ∃ c1, KeepsIrl c c1 ∧ (c' = c1 ∨ ∃ e, EntersIrl c1 e c')

theorem KeepsIrl.moves (keeps : KeepsIrl c c') : MovesIrl c c' := ⟨c', keeps, .inl rfl⟩

theorem KeepsIrl.then_moves {b : Cpu ω} (keeps : KeepsIrl c b)
    (next : KeepsIrl b c' ∨ ∃ e, EntersIrl b e c') : MovesIrl c c' := by
  rcases next with hkeeps | henters
  · exact (keeps.trans hkeeps).moves
  · exact ⟨b, keeps, .inr henters⟩

theorem finishInst_irl {slot : Bool} {addr : UInt32} (h : c.finishInst inst slot addr = some c') :
    MovesIrl c c' := by
  have hadvance : KeepsIrl c (c.advance inst) := .of_calm (Calm.advance c inst)
  unfold finishInst at h
  split at h
  · refine (hadvance.trans ?_).then_moves (enterPending_irl (n := 1) h)
    exact .of_eq rfl rfl
  · cases h
    exact hadvance.moves

theorem doExecInst_irl (h : c.doExecInst env.toEnv inst = some c') : MovesIrl c c' := by
  unfold doExecInst at h
  simp only at h
  split at h
  · obtain ⟨c1, hrun, h⟩ := bind_eq_some_iff.mp h
    obtain ⟨c2, hkeeps, hend⟩ := finishInst_irl h
    exact ⟨c2, (KeepsIrl.opFunc hrun).trans hkeeps, hend⟩
  · exact (KeepsIrl.setException h).moves

theorem act_irl {a : Action} (spares : a.sparesIrl = true) (h : c.act env.toEnv a = some c') :
    MovesIrl c c' := by
  unfold act at h
  split at h
  · exact doExecInst_irl h
  · rename_i line code _
    have hline : isIrlLine line = false := by simpa [Action.sparesIrl] using spares
    exact (KeepsIrl.setLine c code hline).then_moves (refreshIntc_irl h)
  · cases spares
  · split at h
    · cases h
      exact KeepsIrl.moves (.of_eq rfl rfl)
    · cases h
  · rw [doRefreshIntcDeferred, map_map] at h
    obtain ⟨c1, hrefresh, rfl⟩ := map_eq_some_iff.mp h
    rcases refreshIntc_irl hrefresh with hkeeps | ⟨e, hirl, hpres, hleft, hent⟩
    · refine KeepsIrl.moves (hkeeps.trans ?_)
      exact .of_eq rfl rfl
    · exact ⟨c, .refl c, .inr ⟨e, hirl, hpres, hleft, hent⟩⟩
  · cases h

end Cpu

end Sh4
