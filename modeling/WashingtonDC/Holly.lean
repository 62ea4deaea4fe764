import WashingtonDC.Sh4.IrlLines
import Mathlib.Data.List.Chain

/-!
# The interrupt controller of Holly

`holly_intc.c`: the status registers, the masks of the three levels, and the functions that raise
interrupts, next to the SH4 whose IRL lines they drive. An interrupt is kept as long as no enabled
interrupt of a lower level is raised while a higher one is presented, and no IRL interrupt is
entered while one of another level waits. In every other run one is lost: the lines hold one value,
each raise overwrites it and each entry clears it.

The error interrupts have registers, but nothing raises them.
-/
namespace Holly

open Sh4 List Function Option Lockstep

variable {ω : Type}

/-! ## Registers -/

inductive NrmInt
  | hblank | vblankOut | vblankIn | pvrPunchThroughComplete | pvrTransModComplete
  | pvrTransComplete | pvrOpaqueModComplete | pvrOpaqueComplete | pvrRenderComplete
  | mapleDmaComplete | channel2DmaComplete | aicaDmaComplete | pvrYuvComplete
deriving DecidableEq

inductive ExtInt
  | gdrom | aica
deriving DecidableEq

inductive Group
  | nrm | ext | err
deriving DecidableEq

inductive Level
  | two | four | six
deriving DecidableEq

/-- `nrm_intp_tbl`. -/
def NrmInt.mask : NrmInt → UInt32
  | .hblank => 0x20
  | .vblankOut => 0x10
  | .vblankIn => 0x8
  | .pvrPunchThroughComplete => 0x200000
  | .pvrTransModComplete => 0x400
  | .pvrTransComplete => 0x200
  | .pvrOpaqueModComplete => 0x100
  | .pvrOpaqueComplete => 0x80
  | .pvrRenderComplete => 0x4
  | .mapleDmaComplete => 0x1000
  | .channel2DmaComplete => 0x80000
  | .aicaDmaComplete => 0x8000
  | .pvrYuvComplete => 0x40

/-- `ext_intp_tbl`. -/
def ExtInt.mask : ExtInt → UInt32
  | .gdrom => 1
  | .aica => 2

/-- An interrupt that can be raised. -/
inductive Source
  | nrm (i : NrmInt)
  | ext (i : ExtInt)
deriving DecidableEq

def Source.group : Source → Group
  | .nrm _ => .nrm
  | .ext _ => .ext

def Source.mask : Source → UInt32
  | .nrm i => i.mask
  | .ext i => i.mask

def Level.irl : Level → UInt32
  | .two => 0xd
  | .four => 0xb
  | .six => 0x9

def Level.prio : Level → Nat
  | .two => 2
  | .four => 4
  | .six => 6

/-- `reg_istnrm` and so on, `reg_iml2nrm` and so on. -/
structure Regs where
  ist : Group → UInt32
  iml : Level → Group → UInt32

namespace Regs

variable (h : Regs) (s : Source)

def isSet : Bool := h.ist s.group &&& s.mask != 0

def levelOf : Option Level :=
  if h.iml .six s.group &&& s.mask ≠ 0 then some .six
  else if h.iml .four s.group &&& s.mask ≠ 0 then some .four
  else if h.iml .two s.group &&& s.mask ≠ 0 then some .two
  else none

def setStatus : Regs :=
  { h with ist := update h.ist s.group (h.ist s.group ||| s.mask) }

def clearStatus : Regs :=
  { h with ist := update h.ist s.group (h.ist s.group &&& ~~~s.mask) }

/-- The write handlers of the status registers: software cannot clear the external ones. -/
def istMmioWrite (g : Group) (val : UInt32) : Regs :=
  match g with
  | .ext => h
  | _ => { h with ist := update h.ist g (h.ist g &&& ~~~val) }

def imlMmioWrite (l : Level) (g : Group) (val : UInt32) : Regs :=
  let kept := match g with
    | .nrm => val &&& 0x3fffff
    | .ext => val &&& 0xf
    | .err => val
  { h with iml := update h.iml l (update (h.iml l) g kept) }

end Regs

/-! ## Raising interrupts -/

structure System (ω : Type) where
  regs : Regs
  cpu : Cpu ω

namespace System

variable (sys : System ω)

def presented : Nat := sys.cpu.intc.irlLevel

/-- The part of a raise before `sh4_refresh_intc`. -/
def raised (s : Source) : System ω where
  regs := sys.regs.setStatus s
  cpu := match sys.regs.levelOf s with
    | some l => sys.cpu.setIrlLines l.irl
    | none => sys.cpu

def raise (env : Env ω) (s : Source) : Option (System ω) :=
  match sys.regs.levelOf s with
  | some l => (sys.cpu.act env (.setIrlInterrupt l.irl)).map fun cpu =>
      { regs := sys.regs.setStatus s, cpu }
  | none => some { sys with regs := sys.regs.setStatus s }

def raiseNrmInt (env : Env ω) (i : NrmInt) : Option (System ω) := sys.raise env (.nrm i)
def raiseExtInt (env : Env ω) (i : ExtInt) : Option (System ω) := sys.raise env (.ext i)
def clearNrmInt (i : NrmInt) : System ω := { sys with regs := sys.regs.clearStatus (.nrm i) }
def clearExtInt (i : ExtInt) : System ω := { sys with regs := sys.regs.clearStatus (.ext i) }

end System

/-- `cpu` is anything that the SH4 and its on-chip modules do. -/
inductive Action
  | raiseNrmInt (i : NrmInt)
  | raiseExtInt (i : ExtInt)
  | clearNrmInt (i : NrmInt)
  | clearExtInt (i : ExtInt)
  | istMmioWrite (g : Group) (val : UInt32)
  | imlMmioWrite (l : Level) (g : Group) (val : UInt32)
  | cpu (a : Sh4.Action) (spares : a.sparesIrl = true)

def Action.source : Action → Option Source
  | .raiseNrmInt i => some (.nrm i)
  | .raiseExtInt i => some (.ext i)
  | _ => none

def System.act (env : QuietEnv ω) (sys : System ω) : Action → Option (System ω)
  | .raiseNrmInt i => sys.raiseNrmInt env.toEnv i
  | .raiseExtInt i => sys.raiseExtInt env.toEnv i
  | .clearNrmInt i => some (sys.clearNrmInt i)
  | .clearExtInt i => some (sys.clearExtInt i)
  | .istMmioWrite g val => some { sys with regs := sys.regs.istMmioWrite g val }
  | .imlMmioWrite l g val => some { sys with regs := sys.regs.imlMmioWrite l g val }
  | .cpu a _ => (sys.cpu.act env.toEnv a).map fun cpu => { sys with cpu }

/-- One action. `lines` is the state in which a raise has driven the lines but the SH4 has not yet
looked at them; for other actions it is the state before. -/
structure Moved (ω : Type) where
  action : Action
  before : System ω
  lines : System ω
  after : System ω

def System.step (env : QuietEnv ω) (sys : System ω) (a : Action) :
    Option (Moved ω × System ω) :=
  (sys.act env a).map fun sys' =>
    (⟨a, sys, (a.source.map sys.raised).getD sys, sys'⟩, sys')

namespace Moved

variable (m : Moved ω)

def newEntries : List Entry :=
  m.after.cpu.entered.take (m.after.cpu.entered.length - m.before.cpu.entered.length)

def EntersIrl (e : Entry) : Prop := e ∈ m.newEntries ∧ e.fromIrl = true

def Waits (s : Source) (l : Level) : Prop :=
  m.after.regs.isSet s = true ∧ m.after.regs.levelOf s = some l

end Moved

/-! ## Lost interrupts -/

section
variable (ms : List (Moved ω))

/-- Since it was raised, the interrupt has been set and enabled at the level, and no interrupt from
the lines was entered. -/
def Persists (s : Source) (l : Level) : Prop := ∀ m ∈ ms, m.Waits s l ∧ ∀ e, ¬m.EntersIrl e

/-- No interrupt is lost. -/
structure NoLoss : Prop where
  held : ∀ {pre m mid post s l}, ms = pre ++ m :: mid ++ post → m.action.source = some s →
    Persists (m :: mid) s l → ∀ t ∈ m :: mid, l.prio ≤ t.after.presented
  notLowered : ∀ m ∈ ms, ∀ s, m.action.source = some s → m.before.presented ≤ m.lines.presented
  notDropped : ∀ m ∈ ms, ∀ e, m.EntersIrl e → ∀ s l, m.Waits s l → l.prio ≠ e.intc.irlLevel →
    l.prio ≤ m.after.presented

end

def Moved.Lowers (m : Moved ω) : Prop :=
  ∃ s l, m.action.source = some s ∧ m.before.regs.levelOf s = some l ∧
    l.prio < m.before.presented

/-- An interrupt is entered while one of another level waits that the lines no longer present. -/
def Moved.Drops (m : Moved ω) : Prop :=
  ∃ e s l, m.EntersIrl e ∧ m.Waits s l ∧ l.prio ≠ e.intc.irlLevel ∧ e.leftLevel < l.prio

/-! ## One action -/

theorem Level.presented (c : Cpu ω) (l : Level) : (c.setIrlLines l.irl).intc.irlLevel = l.prio := by
  simp only [Intc.irlLevel, Intc.irlVal, Cpu.setIrlLines_lines]
  cases l <;> rfl

theorem System.raised_entered (sys : System ω) (s : Source) :
    (sys.raised s).cpu.entered = sys.cpu.entered := by
  unfold raised
  cases sys.regs.levelOf s <;> rfl

theorem System.raised_presented (sys : System ω) (s : Source) :
    (sys.raised s).presented = ((sys.regs.levelOf s).map Level.prio).getD sys.presented := by
  unfold System.presented raised
  cases sys.regs.levelOf s with
  | none => rfl
  | some l => exact Level.presented sys.cpu l

theorem System.raise_moves {env : QuietEnv ω} {sys sys' : System ω} {s : Source}
    (h : sys.raise env.toEnv s = some sys') :
    Cpu.MovesIrl (sys.raised s).cpu sys'.cpu ∧ sys'.regs = sys.regs.setStatus s := by
  unfold raise at h
  unfold raised
  split at h
  · obtain ⟨cpu, hact, rfl⟩ := map_eq_some_iff.mp h
    refine ⟨?_, rfl⟩
    unfold Cpu.act at hact
    split at hact
    case h_3 heq =>
      cases heq
      exact (Cpu.KeepsIrl.refl _).then_moves (Cpu.refreshIntc_irl hact)
    all_goals first | cases hact | contradiction
  · cases h
    exact ⟨(Cpu.KeepsIrl.refl _).moves, rfl⟩

/-- What is known about an action. -/
structure Spec (m : Moved ω) : Prop where
  entered : m.lines.cpu.entered = m.before.cpu.entered
  moves : Cpu.MovesIrl m.lines.cpu m.after.cpu
  lines : m.lines.presented =
    ((m.action.source.bind m.before.regs.levelOf).map Level.prio).getD m.before.presented
  iml : ∀ s, m.action.source = some s → m.after.regs.iml = m.before.regs.iml

theorem spec_of_step {env : QuietEnv ω} {sys sys' : System ω} {a : Action} {m : Moved ω}
    (h : sys.step env a = some (m, sys')) : Spec m ∧ m.before = sys ∧ m.after = sys' := by
  obtain ⟨sys1, hact, heq⟩ := map_eq_some_iff.mp h
  cases heq
  refine ⟨?_, rfl, rfl⟩
  have hraise : ∀ s, a.source = some s → sys.raise env.toEnv s = some sys' →
      Spec ⟨a, sys, (a.source.map sys.raised).getD sys, sys'⟩ := by
    intro s hs hraise
    obtain ⟨hmoves, hregs⟩ := System.raise_moves hraise
    have hlines : (a.source.map sys.raised).getD sys = sys.raised s := by rw [hs]; rfl
    rw [hlines]
    refine ⟨sys.raised_entered s, hmoves, ?_, ?_⟩
    · rw [hs]
      exact sys.raised_presented s
    · intro _ _
      change sys'.regs.iml = sys.regs.iml
      rw [hregs]
      rfl
  have hother : ∀ a', a'.source = none → Cpu.MovesIrl sys.cpu sys'.cpu →
      Spec ⟨a', sys, (a'.source.map sys.raised).getD sys, sys'⟩ := by
    intro a' hs hmoves
    rw [hs]
    refine ⟨rfl, hmoves, ?_, ?_⟩
    · simp [hs]
    · intro s hs'
      rw [hs] at hs'
      cases hs'
  cases a with
  | raiseNrmInt _ | raiseExtInt _ => exact hraise _ rfl hact
  | cpu a spares =>
    obtain ⟨cpu, hcpu, rfl⟩ := map_eq_some_iff.mp hact
    exact hother _ rfl (Cpu.act_irl spares hcpu)
  | clearNrmInt _ | clearExtInt _ | istMmioWrite _ _ | imlMmioWrite _ _ _ =>
    cases hact
    exact hother _ rfl (Cpu.KeepsIrl.refl _).moves

namespace Spec

variable {m : Moved ω}

theorem outcome (spec : Spec m) :
    (m.after.presented = m.lines.presented ∧ ∀ e, ¬m.EntersIrl e) ∨
      ∃ e, m.EntersIrl e ∧ m.after.presented = e.leftLevel ∧ ∀ e', m.EntersIrl e' → e' = e := by
  obtain ⟨c1, ⟨hlines, es, hes, hother⟩, hend⟩ := spec.moves
  rw [spec.entered] at hes
  rcases hend with heq | ⟨e, hirl, -, hleft, hent⟩
  · left
    have hnew : m.newEntries = es := by
      unfold Moved.newEntries
      rw [heq, hes]
      simp
    refine ⟨?_, ?_⟩
    · unfold System.presented
      rw [heq]
      exact hlines.irlLevel
    · rintro e ⟨he, hirl⟩
      rw [hnew] at he
      rw [hother e he] at hirl
      cases hirl
  · right
    have hnew : m.newEntries = e :: es := by
      unfold Moved.newEntries
      rw [hent, hes, ← cons_append, length_append, Nat.add_sub_cancel,
        take_left]
    refine ⟨e, ⟨by simp [hnew], hirl⟩, hleft, ?_⟩
    rintro e' ⟨he', hirl'⟩
    rw [hnew] at he'
    rcases mem_cons.mp he' with rfl | he'
    · rfl
    · rw [hother e' he'] at hirl'
      cases hirl'

theorem lines_raise (spec : Spec m) {s : Source} {l : Level} (source : m.action.source = some s)
    (level : m.before.regs.levelOf s = some l) : m.lines.presented = l.prio := by
  rw [spec.lines, source]
  simp [level]

theorem before_le_lines (spec : Spec m) (kept : ¬m.Lowers) :
    m.before.presented ≤ m.lines.presented := by
  rw [spec.lines]
  cases hlevel : m.action.source.bind m.before.regs.levelOf with
  | none => exact le_refl _
  | some l =>
    obtain ⟨s, hs, hl⟩ := bind_eq_some_iff.mp hlevel
    by_contra hlt
    exact kept ⟨s, l, hs, hl, by simpa using hlt⟩

theorem level_before (spec : Spec m) {s : Source} {l : Level} (source : m.action.source = some s)
    (waits : m.Waits s l) : m.before.regs.levelOf s = some l := by
  have hlevel := waits.2
  unfold Regs.levelOf at hlevel ⊢
  rwa [spec.iml s source] at hlevel

end Spec

/-! ## Runs -/

theorem spec_of_run (env : QuietEnv ω) (sys : System ω) (as : List Action) :
    ∀ m ∈ (run (System.step env) sys as).1, Spec m :=
  run_observes (fun h => (spec_of_step h).1) sys as

theorem chain_of_run (env : QuietEnv ω) (sys : System ω) (as : List Action) :
    ((run (System.step env) sys as).1).IsChain (fun m m' => m'.before = m.after) ∧
      ∀ m ∈ (run (System.step env) sys as).1.head?, m.before = sys := by
  induction as generalizing sys with
  | nil => exact ⟨.nil, by simp [run]⟩
  | cons a as ih =>
    cases hstep : sys.step env a with
    | none => simp [run, hstep]
    | some r =>
      obtain ⟨-, hbefore, hafter⟩ := spec_of_step hstep
      obtain ⟨hchain, hhead⟩ := ih r.2
      simp only [run, hstep]
      refine ⟨?_, by simpa using hbefore⟩
      rw [isChain_cons]
      exact ⟨fun m hm => (hhead m hm).trans hafter.symm, hchain⟩

theorem le_presented {n : Nat} {m : Moved ω} {ms : List (Moved ω)}
    (chain : (m :: ms).IsChain fun m m' => m'.before = m.after) (specs : ∀ t ∈ ms, Spec t)
    (kept : ∀ t ∈ ms, ¬t.Lowers) (quiet : ∀ t ∈ ms, ∀ e, ¬t.EntersIrl e)
    (start : n ≤ m.after.presented) : ∀ t ∈ m :: ms, n ≤ t.after.presented := by
  induction ms generalizing m with
  | nil => simpa using start
  | cons t ms ih =>
    rw [isChain_cons_cons] at chain
    rw [forall_mem_cons] at specs kept quiet ⊢
    refine ⟨start, ih chain.2 specs.2 kept.2 quiet.2 ?_⟩
    have hlines := specs.1.before_le_lines kept.1
    rw [chain.1] at hlines
    rcases specs.1.outcome with ⟨hafter, -⟩ | ⟨e, he, -⟩
    · exact start.trans (hlines.trans hafter.ge)
    · exact absurd he (quiet.1 e)

/-- Exactly the raises below the presented priority and the entries with another interrupt waiting
lose interrupts. -/
theorem noLoss_iff (env : QuietEnv ω) (sys : System ω) (as : List Action) :
    NoLoss (run (System.step env) sys as).1 ↔
      ∀ m ∈ (run (System.step env) sys as).1, ¬m.Lowers ∧ ¬m.Drops := by
  have hspecs := spec_of_run env sys as
  have hchain := (chain_of_run env sys as).1
  generalize (run (System.step env) sys as).1 = ms at hspecs hchain
  constructor
  · intro noLoss m hm
    constructor
    · rintro ⟨s, l, hs, hl, hlt⟩
      have hle := noLoss.notLowered m hm s hs
      rw [(hspecs m hm).lines_raise hs hl] at hle
      omega
    · rintro ⟨e, s, l, he, hwaits, hne, hlt⟩
      have hle := noLoss.notDropped m hm e he s l hwaits hne
      rcases (hspecs m hm).outcome with ⟨-, hnone⟩ | ⟨e', -, hleft, honly⟩
      · exact hnone e he
      · rw [hleft, ← honly e he] at hle
        omega
  · intro fine
    refine ⟨?_, ?_, ?_⟩
    · intro pre m mid post s l hsplit hs hpersists
      have hmem : ∀ t ∈ m :: mid, t ∈ ms := by
        intro t ht
        rw [hsplit]
        exact mem_append_left _ (mem_append_right _ ht)
      have hm : m ∈ ms := hmem m (by simp)
      have hchain' : (m :: mid).IsChain fun m m' => m'.before = m.after := by
        rw [hsplit] at hchain
        exact hchain.left_of_append.right_of_append
      have hstart : l.prio ≤ m.after.presented := by
        obtain ⟨hwaits, hquiet⟩ := hpersists m (by simp)
        have hlevel := (hspecs m hm).level_before hs hwaits
        rcases (hspecs m hm).outcome with ⟨hafter, -⟩ | ⟨e, he, -⟩
        · rw [hafter, (hspecs m hm).lines_raise hs hlevel]
        · exact absurd he (hquiet e)
      refine le_presented hchain' ?_ ?_ ?_ hstart
      · exact fun t ht => hspecs t (hmem t (mem_cons_of_mem m ht))
      · exact fun t ht => (fine t (hmem t (mem_cons_of_mem m ht))).1
      · exact fun t ht => (hpersists t (mem_cons_of_mem m ht)).2
    · intro m hm s _
      exact (hspecs m hm).before_le_lines (fine m hm).1
    · intro m hm e he s l hwaits hne
      rcases (hspecs m hm).outcome with ⟨-, hnone⟩ | ⟨e', -, hleft, honly⟩
      · exact absurd he (hnone e)
      · rw [hleft, ← honly e he]
        by_contra hlt
        exact (fine m hm).2 ⟨e, s, l, he, hwaits, hne, by omega⟩

/-! ## A lost interrupt -/

def bareQuietEnv : QuietEnv Unit where
  toEnv := bareEnv
  plain_quiet := by
    intro f inst c effects world h
    cases h
    simp
  read32_quiet := nofun

def resetSystem : System Unit where
  regs := ⟨fun _ => 0, fun _ _ => 0⟩
  cpu := resetCpu fun _ => 0

/-- The end of a horizontal line is enabled at level 6, that of a frame at level 2. -/
def hblankThenVblank : List Action :=
  [.imlMmioWrite .six .nrm 0x20, .imlMmioWrite .two .nrm 0x8, .raiseNrmInt .hblank,
    .raiseNrmInt .vblankIn]

/-- The second interrupt overwrites the lines, although the first is still set and enabled. -/
theorem vblank_hides_hblank :
    ((run (System.step bareQuietEnv) resetSystem hblankThenVblank).1.map fun m =>
      (m.after.presented, m.after.regs.isSet (.nrm .hblank),
        m.after.regs.levelOf (.nrm .hblank))) =
      [(0, false, some .six), (0, false, some .six), (6, true, some .six), (2, true, some .six)] ∧
    ¬NoLoss (run (System.step bareQuietEnv) resetSystem hblankThenVblank).1 := by
  refine ⟨by decide +kernel, ?_⟩
  intro noLoss
  have hbad : ∃ m ∈ (run (System.step bareQuietEnv) resetSystem hblankThenVblank).1,
      m.action.source = some (.nrm .vblankIn) ∧ m.lines.presented < m.before.presented := by
    decide +kernel
  obtain ⟨m, hm, hsource, hlt⟩ := hbad
  have hle := noLoss.notLowered m hm _ hsource
  omega

end Holly
