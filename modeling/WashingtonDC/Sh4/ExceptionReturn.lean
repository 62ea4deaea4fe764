import WashingtonDC.Sh4.Banks

/-!
# Returning from exceptions

RTE brings back the program counter, the status register and, seen by bank, the general registers
of the program that `sh4_enter_exception` interrupted. A handler that is itself interrupted has to
save SPC and SSR before and to restore them after. Devices may raise interrupts between any two
instructions of a handler; an interrupt that is entered right after the delay slot of RTE returns to
the same program.

The handler has to be run from its first instruction. An exception that is entered by an
instruction function is followed by the increment of PC, so that the first instruction is skipped.
-/
namespace Sh4

open Relation Option List

variable {ω : Type}

/-! ## Instructions of a handler -/

abbrev rteWord : UInt16 := 0x002b
abbrev nopWord : UInt16 := 0x0009

def stcSsrWord (n : Fin 16) : UInt16 := (0x0032 : UInt16) ||| UInt16.ofNat n.val <<< 8
def stcSpcWord (n : Fin 16) : UInt16 := (0x0042 : UInt16) ||| UInt16.ofNat n.val <<< 8
def ldcSsrWord (n : Fin 16) : UInt16 := (0x403e : UInt16) ||| UInt16.ofNat n.val <<< 8
def ldcSpcWord (n : Fin 16) : UInt16 := (0x404e : UInt16) ||| UInt16.ofNat n.val <<< 8

/-- NOP, and the transfers between SPC or SSR and the general registers. -/
def transfer (f : OpFunc) (inst : UInt16) (c : Cpu ω) : Option (List Effect) :=
  match f with
  | .native .nop => some []
  | .fallback .binaryStcSsrGen => some [.write (Cpu.rn inst) (isControlReg_rn inst) (c.reg regSsr)]
  | .fallback .binaryStcSpcGen => some [.write (Cpu.rn inst) (isControlReg_rn inst) (c.reg regSpc)]
  | .fallback .binaryLdcGenSsr => some [.write regSsr rfl (c.reg (Cpu.rn inst))]
  | .fallback .binaryLdcGenSpc => some [.write regSpc rfl (c.reg (Cpu.rn inst))]
  | _ => none

def Env.Transfers (env : Env ω) : Prop :=
  ∀ f inst c effects, transfer f inst c = some effects → env.plain f inst c = some (effects, c.world)

def Env.withTransfers (env : Env ω) : Env ω :=
  { env with plain := fun f inst c =>
      match transfer f inst c with
      | some effects => some (effects, c.world)
      | none => env.plain f inst c }

theorem Env.transfers_withTransfers (env : Env ω) : env.withTransfers.Transfers := by
  intro f inst c effects h
  simp only [withTransfers, h]

/-! ## Programs that are interrupted -/

/-- What an exception has to bring back. -/
structure Context where
  pc : UInt32
  sr : UInt32
  gen : Bool → Fin 16 → UInt32

namespace Cpu

variable (c : Cpu ω)

def gen (bank : Bool) (i : Fin 16) : UInt32 :=
  if h : i.val < 8 then c.banked (.gen bank ⟨i.val, h⟩) else c.reg i.val

def context : Context := ⟨c.pc, c.sr, c.gen⟩

def returnContext : Context := ⟨c.reg regSpc, c.reg regSsr, c.gen⟩

/-- The processor runs a handler: interrupts are blocked and bank 1 is selected. -/
structure InHandler : Prop where
  noSlot : c.delayedBranch = false
  blocked : isBlocked c.reg = true
  bank : (c.reg regSr &&& srRbMask != 0) = true

end Cpu

/-- The contexts agree but for registers of the handlers' bank that are in use. -/
structure Context.Agrees (used : List (Fin 16)) (x y : Context) : Prop where
  pc : y.pc = x.pc
  sr : y.sr = x.sr
  gen : ∀ bank i, (i ∈ used → bank = false ∧ i.val < 8) → y.gen bank i = x.gen bank i

/-! ## Running handlers -/

section
variable (env : Env ω) (mem : UInt32 → UInt16)

def Event (c c' : Cpu ω) : Prop := ∃ a, (∀ word, a ≠ .inst word) ∧ c.act env a = some c'

def Next (word : UInt16) (c c' : Cpu ω) : Prop :=
  ∃ c₀, ReflTransGen (Event env) c c₀ ∧ mem c₀.pc = word ∧ c₀.act env (.inst word) = some c'

def Returns (c c' : Cpu ω) : Prop :=
  ∃ c₁, Next env mem rteWord c c₁ ∧ Next env mem nopWord c₁ c'

def Saves (a b : Fin 16) (c c' : Cpu ω) : Prop :=
  ∃ c₁, Next env mem (stcSpcWord a) c c₁ ∧ Next env mem (stcSsrWord b) c₁ c'

def Restores (a b : Fin 16) (c c' : Cpu ω) : Prop :=
  ∃ c₁, Next env mem (ldcSpcWord a) c c₁ ∧ Next env mem (ldcSsrWord b) c₁ c'

/-- An exception or an interrupt is entered outside of a delay slot. -/
inductive Enters (c c' : Cpu ω) : Prop
  | call (noSlot : c.delayedBranch = false) (code : UInt32) (h : c.enterException code = some c')
  | exception (noSlot : c.delayedBranch = false) (code : UInt32) (h : c.setException code = some c')
  | event (h : Event env c c') (entered : c'.entered ≠ c.entered)

inductive Part
  | handler
  | body

/-- `Runs .handler used c c'` is a run from the first instruction of a handler until it has
returned, with the registers in which it and the handlers inside of it keep SPC and SSR.
`Runs .body used c c'` is a run of exceptions one after the other, each with its handler. -/
inductive Runs : Part → List (Fin 16) → Cpu ω → Cpu ω → Prop
  | rte {c c' : Cpu ω} (ret : Returns env mem c c') (last : c'.entered = c.entered) :
      Runs .handler [] c c'
  | chained {c c₁ c' : Cpu ω} {used : List (Fin 16)} (ret : Returns env mem c c₁)
      (irq : c₁.entered ≠ c.entered) (next : Runs .handler used c₁ c') : Runs .handler used c c'
  | saving {c c₁ c₂ c₃ c' : Cpu ω} {used used' : List (Fin 16)} (a b : Fin 16)
      (save : Saves env mem a b c c₁) (body : Runs .body used c₁ c₂)
      (restore : Restores env mem a b c₂ c₃) (rest : Runs .handler used' c₃ c')
      (fresh : a ∉ used ∧ b ∉ used ∧ a ≠ b) : Runs .handler (a :: b :: used ++ used') c c'
  | done {c : Cpu ω} : Runs .body [] c c
  | exception {c c₁ c₂ c' : Cpu ω} {used used' : List (Fin 16)} (enters : Enters env c c₁)
      (handler : Runs .handler used c₁ c₂) (rest : Runs .body used' c₂ c') :
      Runs .body (used ++ used') c c'

end

/-! ## General registers -/

section
variable {env : Env ω} {mem : UInt32 → UInt16} {c c' : Cpu ω}

theorem Cpu.gen_congr (keeps : Keeps c c')
    (high : ∀ i : Fin 16, 8 ≤ i.val → c'.reg i.val = c.reg i.val) : c'.gen = c.gen := by
  funext bank i
  rw [gen, gen]
  split
  · exact congrFun keeps _
  · exact high i (by omega)

theorem Cpu.gen_of_reg (same : c'.reg = c.reg) : c'.gen = c.gen :=
  gen_congr (.of_reg same) fun i _ => congrFun same i.val

variable {i : Nat}

theorem Cpu.gen_write (v : UInt32) (high : regFpscr < i) (notSr : i ≠ regSr) :
    (c.write i v).gen = c.gen := by
  refine gen_congr (.write v high notSr) ?_
  intro j _
  rw [write_reg, if_neg (by simp only [regFpscr] at high; omega)]

theorem Cpu.context_of_reg (same : c'.reg = c.reg) : c'.context = c.context := by
  rw [context, context, pc, pc, sr, sr, same, gen_of_reg same]

theorem Cpu.context_write (v : UInt32) (high : regPc < i) : (c.write i v).context = c.context := by
  have hi : 68 < i := high
  rw [context, context, gen_write v (by simp only [regFpscr]; omega) (by simp only [regSr]; omega),
    pc, sr, write_reg, write_reg, if_neg (by simp only [regPc]; omega),
    if_neg (by simp only [regSr]; omega), pc, sr]

variable {v : UInt32}

theorem Cpu.SetsSr.gen (set : SetsSr c v c') : c'.gen = c.gen := by
  refine gen_congr (.setSr set) ?_
  intro i hi
  rw [set.reg, bankSwitchMaybe]
  split
  · simp only [bankSwitch]
    rw [if_neg (by omega), if_neg (by omega), write_reg, if_neg (by simp only [regSr]; omega)]
  · rw [write_reg, if_neg (by simp only [regSr]; omega)]

theorem Cpu.InHandler.reg_eq_gen (inHandler : c.InHandler) (n : Fin 16) :
    c.reg n.val = c.gen true n := by
  rw [gen]
  split
  · rw [banked, Banked.idx_gen, if_pos inHandler.bank.symm]
  · rfl

theorem Cpu.InHandler.gen_write (inHandler : c.InHandler) (n : Fin 16) (v : UInt32) (bank : Bool)
    (i : Fin 16) :
    (c.write n.val v).gen bank i =
      if i = n ∧ (i.val < 8 → bank = true) then v else c.gen bank i := by
  have hsr : (c.write n.val v).reg regSr = c.reg regSr := by
    rw [write_reg, if_neg (by simp only [regSr]; omega)]
  rw [gen, gen]
  by_cases hi : i.val < 8
  · have hidx : (Banked.gen bank ⟨i.val, hi⟩).idx (c.write n.val v).reg =
        (Banked.gen bank ⟨i.val, hi⟩).idx c.reg := by
      rw [Banked.idx_gen, Banked.idx_gen, hsr]
    rw [dif_pos hi, dif_pos hi, banked, banked, hidx, write_reg, Banked.idx_gen, inHandler.bank]
    cases bank with
    | false =>
      simp only [Bool.false_eq_true, if_false, regR0Bank]
      rw [if_neg (by omega), if_neg]
      rintro ⟨-, hbank⟩
      exact hbank hi
    | true =>
      rw [if_pos rfl]
      by_cases hin : i = n
      · rw [if_pos (congrArg Fin.val hin), if_pos ⟨hin, fun _ => rfl⟩]
      · rw [if_neg (fun h => hin (Fin.ext h)), if_neg (fun h => hin h.1)]
  · rw [dif_neg hi, dif_neg hi, write_reg]
    by_cases hin : i = n
    · rw [if_pos (congrArg Fin.val hin), if_pos ⟨hin, fun h => absurd h hi⟩]
    · rw [if_neg (fun h => hin (Fin.ext h)), if_neg (fun h => hin h.1)]

/-! ## Entering -/

theorem Cpu.inHandler_of_sr (sr : UInt32) (noSlot : c.delayedBranch = false)
    (hsr : c.reg regSr = handlerSr sr) : c.InHandler := by
  refine ⟨noSlot, ?_, ?_⟩
  · simp only [isBlocked, hsr, handlerSr_blocked]
    decide
  · have hbank : handlerSr sr &&& srRbMask = srRbMask := by
      rw [handlerSr, WordMask.clear_and_of_disjoint _ (by decide)]
      exact WordMask.set_and_of_subset _ (by decide)
    rw [hsr, hbank]
    decide

theorem Cpu.gen_saved (c : Cpu ω) : c.saved.gen = c.gen := by
  rw [saved, gen_write _ (by decide) (by decide), gen_write _ (by decide) (by decide),
    gen_write _ (by decide) (by decide)]

variable {code : UInt32}

theorem Cpu.inHandler_of_enterException (noSlot : c.delayedBranch = false)
    (h : c.enterException code = some c') :
    c'.InHandler ∧ c'.returnContext = c.context ∧ c'.entered = c.entered := by
  obtain ⟨offset, c₁, -, set, rfl⟩ := enterException_some h
  have hspc : c₁.reg regSpc = c.pc := by
    rw [set.reg_high (by decide) (by decide)]
    simp [saved, write_reg]
  have hssr : c₁.reg regSsr = c.sr := by
    rw [set.reg_high (by decide) (by decide)]
    simp [saved, write_reg]
  refine ⟨inHandler_of_sr c.sr ?_ ?_, ?_, ?_⟩
  · exact set.frame.delayedBranch.trans noSlot
  · rw [write_reg, if_neg (by decide), set.sr]
  · rw [returnContext, context, gen_write _ (by decide) (by decide), set.gen, gen_saved]
    simp [write_reg, hspc, hssr]
  · exact set.frame.entered

variable {c₁ : Cpu ω}

theorem Cpu.inHandler_of_reg (same : c'.reg = c₁.reg) (branch : c'.delayedBranch = c₁.delayedBranch)
    (inHandler : c₁.InHandler) :
    c'.InHandler ∧ c'.returnContext = c₁.returnContext := by
  constructor
  · exact ⟨branch.trans inHandler.noSlot, by rw [same]; exact inHandler.blocked,
      by rw [same]; exact inHandler.bank⟩
  · rw [returnContext, returnContext, same, gen_of_reg same]

theorem Cpu.inHandler_of_check {n : Nat} (noSlot : c.delayedBranch = false)
    (h : c.checkInterruptsNoDelayBranchCheck (refreshIntcFuel (n + 1)) = some c') :
    c' = c ∨ c'.entered ≠ c.entered ∧ c'.InHandler ∧ c'.returnContext = c.context := by
  rcases checkInterruptsNoDelayBranchCheck_some h with ⟨-, rfl⟩ | enters
  · exact .inl rfl
  · right
    rw [checkInterruptsNoDelayBranchCheck, if_pos enters.pending, enterIrqFromMeta_eq,
      Option.map_map] at h
    obtain ⟨c₁, henter, rfl⟩ := map_eq_some_iff.mp h
    obtain ⟨hin, hctx, -⟩ := inHandler_of_enterException (c := (c.record _ _).write regIntevt _)
      noSlot henter
    have hreg : (c₁.acknowledge c.intc.pendingIrq).reg = c₁.reg := acknowledge_reg _ _
    have hbranch : (c₁.acknowledge c.intc.pendingIrq).delayedBranch = c₁.delayedBranch := by
      rw [acknowledge]
      split <;> rfl
    have hserved : (served c₁ c.intc.pendingIrq).reg = c₁.reg := hreg
    obtain ⟨hin', hctx'⟩ := inHandler_of_reg hserved hbranch hin
    refine ⟨?_, ⟨hin'.noSlot, hin'.blocked, hin'.bank⟩, ?_⟩
    · rw [enters.entered]
      exact fun hcons => cons_ne_self _ _ hcons
    · refine Eq.trans hctx' (hctx.trans ?_)
      rw [context_write _ (by decide)]
      exact context_of_reg rfl

/-! ## Events in a handler -/

/-- Neither the registers nor the pending branch change, and nothing is entered. -/
structure Undisturbed (c c' : Cpu ω) : Prop where
  reg : c'.reg = c.reg
  delayedBranch : c'.delayedBranch = c.delayedBranch
  delayedBranchAddr : c'.delayedBranchAddr = c.delayedBranchAddr
  entered : c'.entered = c.entered

theorem Undisturbed.refl (c : Cpu ω) : Undisturbed c c := ⟨rfl, rfl, rfl, rfl⟩

variable {c₂ : Cpu ω}

theorem Undisturbed.trans {c₃ : Cpu ω} (h : Undisturbed c₁ c₂) (h' : Undisturbed c₂ c₃) :
    Undisturbed c₁ c₃ :=
  ⟨h'.1.trans h.1, h'.2.trans h.2, h'.3.trans h.3, h'.4.trans h.4⟩

/-- Interrupts are blocked or have to wait for the end of a delay slot. -/
def Cpu.Holds (c : Cpu ω) : Prop := isBlocked c.reg = true ∨ c.delayedBranch = true

theorem Cpu.Holds.refreshIntc (holds : c.Holds) (h : c.refreshIntc = some c') :
    Undisturbed c c' := by
  cases refreshIntc_some h with
  | idle next eq | waits next slot eq =>
    subst eq
    exact ⟨rfl, rfl, rfl, rfl⟩
  | enters next noSlot enters =>
    have hopen := (getNextIrqLine_some next).1
    rcases holds with hblocked | hslot
    · rw [hopen] at hblocked
      cases hblocked
    · rw [noSlot] at hslot
      cases hslot

theorem Event.cases (h : Event env c c') :
    Undisturbed c c' ∨ ∃ c₁ c₂, Undisturbed c c₁ ∧ c₁.refreshIntc = some c₂ ∧ Undisturbed c₂ c' := by
  obtain ⟨a, notInst, hact⟩ := h
  cases hrun : c.refreshRunning with
  | true =>
    cases a with
    | runRefresh =>
      simp only [Cpu.act, hrun] at hact
      obtain ⟨c₁, hdeferred, rfl⟩ := map_eq_some_iff.mp hact
      obtain ⟨c₂, hrefresh, rfl⟩ := map_eq_some_iff.mp hdeferred
      exact .inr ⟨c, c₂, .refl c, hrefresh, ⟨rfl, rfl, rfl, rfl⟩⟩
    | _ => simp [Cpu.act, hrun] at hact
  | false =>
    cases a with
    | inst word => exact absurd rfl (notInst word)
    | setInterrupt line code =>
      simp only [Cpu.act, hrun] at hact
      exact .inr ⟨c.setLine line code, c', ⟨rfl, rfl, rfl, rfl⟩, hact, .refl c'⟩
    | setIrlInterrupt val =>
      simp only [Cpu.act, hrun] at hact
      exact .inr ⟨c.setIrlLines val, c', ⟨rfl, rfl, rfl, rfl⟩, hact, .refl c'⟩
    | popRefresh =>
      simp only [Cpu.act, hrun] at hact
      split at hact
      · cases hact
        exact .inl ⟨rfl, rfl, rfl, rfl⟩
      · cases hact
    | runRefresh => simp [Cpu.act, hrun] at hact

theorem Cpu.Holds.of_undisturbed (holds : c.Holds) (same : Undisturbed c c') : c'.Holds := by
  rw [Holds, same.reg, same.delayedBranch]
  exact holds

theorem Cpu.Holds.event (holds : c.Holds) (h : Event env c c') : Undisturbed c c' := by
  rcases h.cases with hsame | ⟨c₁, c₂, hbefore, hrefresh, hafter⟩
  · exact hsame
  · exact hbefore.trans (((holds.of_undisturbed hbefore).refreshIntc hrefresh).trans hafter)

theorem Cpu.Holds.events (holds : c.Holds) (h : ReflTransGen (Event env) c c') :
    Undisturbed c c' := by
  induction h with
  | refl => exact .refl c
  | tail _ step ih => exact ih.trans ((holds.of_undisturbed ih).event step)

theorem Event.inHandler (h : Event env c c') (entered : c'.entered ≠ c.entered) :
    c'.InHandler ∧ c'.returnContext = c.context := by
  rcases h.cases with hsame | ⟨c₁, c₂, hbefore, hrefresh, hafter⟩
  · exact absurd hsame.entered entered
  · have hnew : c₂.entered ≠ c₁.entered := by
      rw [hbefore.entered, ← hafter.entered]
      exact entered
    cases Cpu.refreshIntc_some hrefresh with
    | idle next eq | waits next slot eq =>
      subst eq
      exact absurd rfl hnew
    | enters next noSlot enters =>
      rename_i irq
      have hcheck : (c₁.pend irq).checkInterruptsNoDelayBranchCheck
          (Cpu.refreshIntcFuel 1) = some c₂ := by
        have hrefresh : c₁.updatePending.checkInterrupts (Cpu.refreshIntcFuel 1) = some c₂ := hrefresh
        rw [show c₁.updatePending = c₁.pend irq by simp only [Cpu.updatePending, next],
          Cpu.checkInterrupts, if_pos (by simp [Cpu.pend, noSlot])] at hrefresh
        exact hrefresh
      obtain hsame | ⟨-, hin, hctx⟩ := Cpu.inHandler_of_check (c := c₁.pend irq) noSlot hcheck
      · rw [hsame] at hnew
        exact absurd rfl hnew
      · obtain ⟨hin', hctx'⟩ := Cpu.inHandler_of_reg hafter.reg hafter.delayedBranch hin
        refine ⟨hin', hctx'.trans (hctx.trans ?_)⟩
        exact Cpu.context_of_reg hbefore.reg

theorem Enters.inHandler (h : Enters env c c') : c'.InHandler ∧ c'.returnContext = c.context := by
  cases h with
  | call noSlot code h =>
    obtain ⟨hin, hctx, -⟩ := Cpu.inHandler_of_enterException noSlot h
    exact ⟨hin, hctx⟩
  | exception noSlot code h =>
    obtain ⟨hin, hctx, -⟩ := Cpu.inHandler_of_enterException
      (c := (c.record code none).write regExpevt (code &&& 0xfff)) noSlot h
    refine ⟨hin, hctx.trans ?_⟩
    rw [Cpu.context_write _ (by decide)]
    exact Cpu.context_of_reg rfl
  | event h entered => exact h.inHandler entered

/-! ## Instructions -/

theorem decode_rteWord : (sh4DecodeInst rteWord).func = .native .rte := by decide +kernel

theorem decode_nopWord :
    (sh4DecodeInst nopWord).func = .native .nop ∧ (sh4DecodeInst nopWord).pcRelative = false := by
  decide +kernel

/-- An instruction word is executed as a function that is neither a branch nor TRAPA. -/
structure Decodes (word : UInt16) (f : OpFunc) (n : Fin 16) : Prop where
  func : (sh4DecodeInst word).func = f
  plain : f.control = none
  increments : incrementsPc word = true
  rn : Cpu.rn word = n.val

instance decidableDecodes (word : UInt16) (f : OpFunc) (n : Fin 16) : Decidable (Decodes word f n) :=
  decidable_of_iff ((sh4DecodeInst word).func = f ∧ f.control = none ∧
    incrementsPc word = true ∧ Cpu.rn word = n.val)
    ⟨fun ⟨h1, h2, h3, h4⟩ => ⟨h1, h2, h3, h4⟩, fun ⟨h1, h2, h3, h4⟩ => ⟨h1, h2, h3, h4⟩⟩

theorem decodes_stcSpcWord : ∀ n, Decodes (stcSpcWord n) (.fallback .binaryStcSpcGen) n := by
  decide +kernel

theorem decodes_stcSsrWord : ∀ n, Decodes (stcSsrWord n) (.fallback .binaryStcSsrGen) n := by
  decide +kernel

theorem decodes_ldcSpcWord : ∀ n, Decodes (ldcSpcWord n) (.fallback .binaryLdcGenSpc) n := by
  decide +kernel

theorem decodes_ldcSsrWord : ∀ n, Decodes (ldcSsrWord n) (.fallback .binaryLdcGenSsr) n := by
  decide +kernel

variable {word : UInt16}

theorem Cpu.act_inst (h : c.act env (.inst word) = some c') : c.doExecInst env word = some c' := by
  cases hrun : c.refreshRunning with
  | true => simp [act, hrun] at h
  | false => simpa [act, hrun] using h

theorem Cpu.exec_rte (noSlot : c.delayedBranch = false) (h : c.doExecInst env rteWord = some c') :
    c'.delayedBranch = true ∧ c'.delayedBranchAddr = c.reg regSpc ∧ c'.sr = c.reg regSsr ∧
      c'.gen = c.gen ∧ c'.entered = c.entered ∧ c'.intc = c.intc := by
  simp only [doExecInst, noSlot, Bool.false_and, Bool.not_false, if_true] at h
  rw [decode_rteWord] at h
  obtain ⟨c₁, hrte, hfinish⟩ := bind_eq_some_iff.mp h
  have set : SetsSr (c.branchTo (c.reg regSpc)) (c.reg regSsr) c₁ := setSr_some hrte
  cases hfinish
  refine ⟨set.frame.delayedBranch, set.frame.delayedBranchAddr, ?_, ?_, set.frame.entered,
    set.frame.intc⟩
  · rw [sr, advance, if_pos (by decide), write_reg, if_neg (by decide), set.sr]
  · rw [advance, if_pos (by decide), gen_write _ (by decide) (by decide), set.gen]
    exact gen_of_reg rfl

theorem Cpu.run_nop (transfers : env.Transfers) (c : Cpu ω) :
    OpFunc.run (.native .nop) env nopWord c = some c := by
  have hplain := transfers (.native .nop) nopWord c [] rfl
  simp [OpFunc.run, OpFunc.control, instPlain, hplain, applyAll]

theorem Cpu.exec_nop (transfers : env.Transfers) (slot : c.delayedBranch = true)
    (h : c.doExecInst env nopWord = some c') :
    ∃ r : Cpu ω, r.delayedBranch = false ∧ r.context = ⟨c.delayedBranchAddr, c.sr, c.gen⟩ ∧
      r.entered = c.entered ∧ r.checkInterruptsNoDelayBranchCheck (refreshIntcFuel 2) = some c' := by
  simp only [doExecInst, slot, Bool.true_and, decode_nopWord.2, Bool.not_false, if_true] at h
  rw [decode_nopWord.1] at h
  rw [run_nop transfers, bind_some, finishInst, if_pos rfl] at h
  let r : Cpu ω :=
    { (c.advance nopWord).write regPc c.delayedBranchAddr with delayedBranch := false }
  refine ⟨r, rfl, ?_, ?_, h⟩
  · have hreg : r.reg = ((c.advance nopWord).write regPc c.delayedBranchAddr).reg := rfl
    rw [context, pc, sr, gen_of_reg hreg, hreg, gen_write _ (by decide) (by decide), advance,
      if_pos (by decide), gen_write _ (by decide) (by decide)]
    simp [write_reg, sr]
  · show (c.advance nopWord).entered = c.entered
    rw [advance, if_pos (by decide)]
    rfl

variable {f : OpFunc} {n : Fin 16}

theorem Cpu.exec_transfer (transfers : env.Transfers) (noSlot : c.delayedBranch = false)
    (decodes : Decodes word f n) {plain : isControlReg i = false}
    (effect : transfer f word c = some [.write i plain v]) (h : c.doExecInst env word = some c') :
    c' = (c.write i v).write regPc ((c.write i v).pc + 2) := by
  simp only [doExecInst, noSlot, Bool.false_and, Bool.not_false, if_true, decodes.func] at h
  have hrun : f.run env word c = some (c.write i v) := by
    have hplain := transfers f word c _ effect
    simp [OpFunc.run, decodes.plain, instPlain, hplain, applyAll, apply]
    rfl
  rw [hrun, bind_some, finishInst, if_neg (by decide)] at h
  rw [← Option.some.inj h, advance, if_pos decodes.increments]

/-! ## Parts of a handler -/

theorem Next.of_inHandler (h : Next env mem word c c') (holds : c.Holds) :
    ∃ c₀, Undisturbed c c₀ ∧ c₀.doExecInst env word = some c' := by
  obtain ⟨c₀, hevents, -, hact⟩ := h
  exact ⟨c₀, holds.events hevents, Cpu.act_inst hact⟩

theorem Cpu.InHandler.holds (inHandler : c.InHandler) : c.Holds := .inl inHandler.blocked

theorem Cpu.InHandler.of_undisturbed (inHandler : c.InHandler) (same : Undisturbed c c') :
    c'.InHandler ∧ c'.returnContext = c.returnContext :=
  inHandler_of_reg same.reg same.delayedBranch inHandler

theorem Cpu.InHandler.returns (inHandler : c.InHandler) (transfers : env.Transfers)
    (rte : c.doExecInst env rteWord = some c₁) (same : Undisturbed c₁ c₂)
    (nop : c₂.doExecInst env nopWord = some c') :
    (c'.entered = c.entered → c'.context = c.returnContext ∧ c'.delayedBranch = false) ∧
      (c'.entered ≠ c.entered → c'.InHandler ∧ c'.returnContext = c.returnContext) := by
  obtain ⟨hslot, haddr, hsr, hgen, hentered, -⟩ := exec_rte inHandler.noSlot rte
  obtain ⟨r, hr, hrctx, hrentered, hcheck⟩ :=
    exec_nop transfers (same.delayedBranch.trans hslot) nop
  have hret : r.context = c.returnContext := by
    rw [hrctx, returnContext, same.delayedBranchAddr, haddr, sr, same.reg, gen_of_reg same.reg,
      hgen, ← hsr, sr]
  have hcount : r.entered = c.entered := by
    rw [hrentered, same.entered, hentered]
  obtain rfl | ⟨hnew, hin, hback⟩ := inHandler_of_check (n := 1) hr hcheck
  · exact ⟨fun _ => ⟨hret, hr⟩, fun hne => absurd hcount hne⟩
  · rw [hcount] at hnew
    exact ⟨fun heq => absurd heq hnew, fun _ => ⟨hin, hback.trans hret⟩⟩

theorem Returns.of_inHandler (transfers : env.Transfers) (h : Returns env mem c c')
    (inHandler : c.InHandler) :
    (c'.entered = c.entered → c'.context = c.returnContext ∧ c'.delayedBranch = false) ∧
      (c'.entered ≠ c.entered → c'.InHandler ∧ c'.returnContext = c.returnContext) := by
  obtain ⟨c₁, hrte, hnop⟩ := h
  obtain ⟨b, hsame, hrte⟩ := hrte.of_inHandler inHandler.holds
  obtain ⟨hb, hctx⟩ := inHandler.of_undisturbed hsame
  obtain ⟨hslot, -⟩ := Cpu.exec_rte hb.noSlot hrte
  obtain ⟨d, hsame', hnop⟩ := hnop.of_inHandler (.inr hslot)
  rw [← hctx, ← hsame.entered]
  exact hb.returns transfers hrte hsame' hnop

theorem Cpu.InHandler.write (inHandler : c.InHandler) (v : UInt32) (notSr : i ≠ regSr) :
    (c.write i v).InHandler := by
  have hsr : (c.write i v).reg regSr = c.reg regSr := by rw [write_reg, if_neg notSr.symm]
  exact ⟨inHandler.noSlot, by rw [isBlocked, hsr]; exact inHandler.blocked,
    by rw [hsr]; exact inHandler.bank⟩

section
variable (transfers : env.Transfers) (h : Next env mem word c c') (inHandler : c.InHandler)
  (decodes : Decodes word f n)
include transfers h inHandler decodes

theorem Next.transfer {plain : isControlReg i = false}
    {v : Cpu ω → UInt32} (effect : ∀ b : Cpu ω, Sh4.transfer f word b = some [.write i plain (v b)]) :
    ∃ b, Undisturbed c b ∧ c'.InHandler ∧ c'.gen = (b.write i (v b)).gen ∧
      ∀ j ≠ regPc, c'.reg j = (b.write i (v b)).reg j := by
  obtain ⟨b, hsame, hexec⟩ := h.of_inHandler inHandler.holds
  obtain ⟨hb, -⟩ := inHandler.of_undisturbed hsame
  have hc' := Cpu.exec_transfer transfers hb.noSlot decodes (effect b) hexec
  have hnotSr : i ≠ regSr := (isControlReg_false plain).1
  refine ⟨b, hsame, ?_, ?_, ?_⟩
  · rw [hc']
    exact (hb.write _ hnotSr).write _ (by decide)
  · rw [hc', Cpu.gen_write _ (by decide) (by decide)]
  · intro j hj
    rw [hc', Cpu.write_reg, if_neg hj]

theorem Next.stc {src : Nat}
    (effect : ∀ b : Cpu ω, Sh4.transfer f word b = some [.write (Cpu.rn word) (isControlReg_rn word) (b.reg src)]) :
    c'.InHandler ∧ (∀ j, 16 ≤ j → j ≠ regPc → c'.reg j = c.reg j) ∧
      ∀ bank i, c'.gen bank i =
        if i = n ∧ (i.val < 8 → bank = true) then c.reg src else c.gen bank i := by
  obtain ⟨b, hsame, hin, hgen, hreg⟩ := h.transfer transfers inHandler decodes effect
  obtain ⟨hb, -⟩ := inHandler.of_undisturbed hsame
  refine ⟨hin, ?_, ?_⟩
  · intro j hj hpc
    rw [hreg j hpc, Cpu.write_reg, if_neg, hsame.reg]
    have := Cpu.rn_lt word
    omega
  · intro bank i
    rw [hgen, decodes.rn, hb.gen_write, hsame.reg, Cpu.gen_of_reg hsame.reg]

theorem Next.ldc {dst : Nat} {plain : isControlReg dst = false} (high : regFpscr < dst)
    (effect : ∀ b : Cpu ω, Sh4.transfer f word b = some [.write dst plain (b.reg (Cpu.rn word))]) :
    c'.InHandler ∧ c'.gen = c.gen ∧
      ∀ j ≠ regPc, c'.reg j = if j = dst then c.gen true n else c.reg j := by
  obtain ⟨b, hsame, hin, hgen, hreg⟩ := h.transfer transfers inHandler decodes effect
  refine ⟨hin, ?_, ?_⟩
  · rw [hgen, Cpu.gen_write _ high (isControlReg_false plain).1, Cpu.gen_of_reg hsame.reg]
  · intro j hj
    rw [hreg j hj, Cpu.write_reg, hsame.reg, decodes.rn, inHandler.reg_eq_gen]

end

variable {a b : Fin 16}

theorem Saves.of_inHandler (transfers : env.Transfers) (h : Saves env mem a b c c') (ne : a ≠ b)
    (inHandler : c.InHandler) :
    c'.InHandler ∧ c'.gen true a = c.reg regSpc ∧ c'.gen true b = c.reg regSsr ∧
      ∀ bank i, (i = a ∨ i = b → bank = false ∧ i.val < 8) → c'.gen bank i = c.gen bank i := by
  obtain ⟨m, hspc, hssr⟩ := h
  obtain ⟨hm, hmreg, hmgen⟩ := hspc.stc transfers inHandler (decodes_stcSpcWord a) fun _ => rfl
  obtain ⟨hc', -, hgen⟩ := hssr.stc transfers hm (decodes_stcSsrWord b) fun _ => rfl
  refine ⟨hc', ?_, ?_, ?_⟩
  · rw [hgen, if_neg (fun h => ne h.1), hmgen, if_pos ⟨rfl, fun _ => rfl⟩]
  · rw [hgen, if_pos ⟨rfl, fun _ => rfl⟩]
    exact hmreg _ (by decide) (by decide)
  · intro bank i hfree
    have hnot : ∀ n, n = a ∨ n = b → ¬(i = n ∧ (i.val < 8 → bank = true)) := by
      rintro n hn ⟨rfl, hbank⟩
      obtain ⟨hfalse, hlow⟩ := hfree hn
      rw [hbank hlow] at hfalse
      cases hfalse
    rw [hgen, if_neg (hnot b (.inr rfl)), hmgen, if_neg (hnot a (.inl rfl))]

theorem Restores.of_inHandler (transfers : env.Transfers) (h : Restores env mem a b c c')
    (inHandler : c.InHandler) :
    c'.InHandler ∧ c'.returnContext = ⟨c.gen true a, c.gen true b, c.gen⟩ := by
  obtain ⟨m, hspc, hssr⟩ := h
  obtain ⟨hm, hmgen, hmreg⟩ :=
    hspc.ldc transfers inHandler (decodes_ldcSpcWord a) (by decide) fun _ => rfl
  obtain ⟨hc', hgen, hreg⟩ := hssr.ldc transfers hm (decodes_ldcSsrWord b) (by decide) fun _ => rfl
  refine ⟨hc', ?_⟩
  rw [Cpu.returnContext, hreg _ (by decide), hreg _ (by decide), hgen, hmgen, if_neg (by decide),
    if_pos rfl, hmreg _ (by decide), if_pos rfl]

/-! ## Whole handlers -/

theorem Context.Agrees.refl (x : Context) : x.Agrees [] x := ⟨rfl, rfl, fun _ _ _ => rfl⟩

variable {used : List (Fin 16)}

theorem Context.Agrees.trans {used' : List (Fin 16)} {x y z : Context} (first : x.Agrees used y)
    (second : y.Agrees used' z) : x.Agrees (used ++ used') z := by
  refine ⟨second.pc.trans first.pc, second.sr.trans first.sr, ?_⟩
  intro bank i hfree
  rw [second.gen bank i (fun h => hfree (mem_append_right _ h)),
    first.gen bank i (fun h => hfree (mem_append_left _ h))]

def Part.Brings (part : Part) (used : List (Fin 16)) (c c' : Cpu ω) : Prop :=
  match part with
  | .handler =>
    c.InHandler → c.returnContext.Agrees used c'.context ∧ c'.delayedBranch = false
  | .body => c.InHandler → c.context.Agrees used c'.context ∧ c'.InHandler

theorem Cpu.InHandler.of_agrees (inHandler : c.InHandler)
    (agrees : c.context.Agrees used c'.context) (noSlot : c'.delayedBranch = false) :
    c'.InHandler := by
  have hsr : c'.reg regSr = c.reg regSr := agrees.sr
  exact ⟨noSlot, by rw [isBlocked, hsr]; exact inHandler.blocked,
    by rw [hsr]; exact inHandler.bank⟩

theorem agrees_of_restores (transfers : env.Transfers) {c₃ : Cpu ω} (inHandler : c.InHandler)
    (save : Saves env mem a b c c₁) (body : c₁.context.Agrees used c₂.context)
    (inHandler₂ : c₂.InHandler) (restore : Restores env mem a b c₂ c₃)
    (fresh : a ∉ used ∧ b ∉ used ∧ a ≠ b) :
    c₃.InHandler ∧ c.returnContext.Agrees (a :: b :: used) c₃.returnContext := by
  obtain ⟨-, hspc, hssr, hgen⟩ := save.of_inHandler transfers fresh.2.2 inHandler
  obtain ⟨hc₃, hctx⟩ := restore.of_inHandler transfers inHandler₂
  refine ⟨hc₃, ?_⟩
  rw [hctx]
  refine ⟨?_, ?_, ?_⟩
  · exact (body.gen true a fun h => absurd h fresh.1).trans hspc
  · exact (body.gen true b fun h => absurd h fresh.2.1).trans hssr
  · intro bank i hfree
    have hbody : c₂.gen bank i = c₁.gen bank i :=
      body.gen bank i fun h => hfree (mem_cons_of_mem _ (mem_cons_of_mem _ h))
    refine hbody.trans (hgen bank i ?_)
    rintro (rfl | rfl)
    · exact hfree mem_cons_self
    · exact hfree (mem_cons_of_mem _ mem_cons_self)

theorem Runs.brings (transfers : env.Transfers) {part : Part} (h : Runs env mem part used c c') :
    part.Brings used c c' := by
  induction h with
  | rte ret last =>
    intro inHandler
    obtain ⟨hctx, hslot⟩ := (ret.of_inHandler transfers inHandler).1 last
    rw [hctx]
    exact ⟨.refl _, hslot⟩
  | chained ret irq next ih =>
    intro inHandler
    obtain ⟨hin, hctx⟩ := (ret.of_inHandler transfers inHandler).2 irq
    rw [← hctx]
    exact ih hin
  | saving a b save body restore rest fresh ihBody ihRest =>
    intro inHandler
    obtain ⟨hc₁, -⟩ := save.of_inHandler transfers fresh.2.2 inHandler
    obtain ⟨hbody, hc₂⟩ := ihBody hc₁
    obtain ⟨hc₃, hrestored⟩ :=
      agrees_of_restores transfers inHandler save hbody hc₂ restore fresh
    obtain ⟨hrest, hslot⟩ := ihRest hc₃
    exact ⟨hrestored.trans hrest, hslot⟩
  | done =>
    intro inHandler
    exact ⟨.refl _, inHandler⟩
  | exception enters handler rest ihHandler ihRest =>
    intro inHandler
    obtain ⟨hc₁, hctx⟩ := enters.inHandler
    obtain ⟨hback, hslot⟩ := ihHandler hc₁
    rw [hctx] at hback
    obtain ⟨hrest, hc'⟩ := ihRest (inHandler.of_agrees hback hslot)
    exact ⟨hback.trans hrest, hc'⟩

/-! ## Handlers that only return -/

def Cpu.QueueFlagged (c : Cpu ω) : Prop := c.refreshQueued = true → c.refreshScheduled = true

theorem Cpu.QueueFlagged.refreshIntcDeferred (flagged : c.QueueFlagged) :
    ∃ c', c.refreshIntcDeferred = some c' ∧ c'.QueueFlagged := by
  cases hscheduled : c.refreshScheduled with
  | true => exact ⟨c, by simp [Cpu.refreshIntcDeferred, hscheduled], flagged⟩
  | false =>
    have hfree : c.refreshQueued = false := by
      rw [QueueFlagged, hscheduled] at flagged
      simpa using flagged
    refine ⟨{ c with refreshScheduled := true, refreshQueued := true }, ?_, fun _ => rfl⟩
    simp [Cpu.refreshIntcDeferred, schedRefresh, hscheduled, hfree]

theorem Cpu.setSr_isSome (privileged : v &&& srMdMask ≠ 0) (flagged : c.QueueFlagged) :
    ∃ c', c.setSr v = some c' ∧ c'.QueueFlagged := by
  have hsr : (c.write regSr v).sr = v := by simp [sr, write_reg]
  obtain ⟨hflag, hqueued⟩ := (c.write regSr v).bankSwitchMaybe_flags c.sr v
  have hswitched : ((c.write regSr v).bankSwitchMaybe c.sr v).QueueFlagged := by
    rw [QueueFlagged, hflag, hqueued]
    exact flagged
  obtain ⟨c', hrefresh, hflagged⟩ : ∃ c', ((c.write regSr v).bankSwitchMaybe c.sr v).refreshIfChanged
      c.sr v = some c' ∧ c'.QueueFlagged := by
    rw [refreshIfChanged]
    split
    · exact hswitched.refreshIntcDeferred
    · exact ⟨_, rfl, hswitched⟩
  refine ⟨c', ?_, hflagged⟩
  rw [setSr, onSrChange, hsr, hrefresh, bind_some, if_neg privileged]

theorem Cpu.enterException_isSome (known : ∃ offset, (code, offset) ∈ excpMeta)
    (flagged : c.QueueFlagged) : ∃ c', c.enterException code = some c' ∧ c'.QueueFlagged := by
  have hmd : handlerSr c.sr &&& srMdMask ≠ 0 := by
    rw [handlerSr, WordMask.clear_and_of_disjoint _ (by decide),
      WordMask.set_and_of_subset _ (by decide)]
    decide
  obtain ⟨offset, hmem⟩ := known
  obtain ⟨⟨code', offset'⟩, hfind⟩ : ∃ m, excpMeta.find? (·.1 = code) = some m := by
    apply isSome_iff_exists.mp
    rw [find?_isSome]
    exact ⟨_, hmem, by simp⟩
  obtain ⟨c₁, hset, hflagged⟩ := setSr_isSome (c := c.saved) hmd flagged
  refine ⟨c₁.write regPc (vectorAddr (c₁.reg regVbr) offset' code), ?_, hflagged⟩
  simp only [enterException, hfind, hset, bind_eq_bind, bind_some]

theorem Cpu.rte_isSome (env : Env ω) (noSlot : c.delayedBranch = false)
    (privileged : c.reg regSsr &&& srMdMask ≠ 0) (flagged : c.QueueFlagged) : ∃ c', c.doExecInst env rteWord = some c' := by
  obtain ⟨c', hset, -⟩ := setSr_isSome (c := c.branchTo (c.reg regSpc)) privileged flagged
  refine ⟨c'.advance rteWord, ?_⟩
  have hrte : OpFunc.run (.native .rte) env rteWord c = some c' := hset
  simp only [doExecInst, noSlot, Bool.false_and, Bool.not_false, if_true]
  rw [decode_rteWord, hrte, bind_some]
  rfl

theorem Cpu.nop_isSome (transfers : env.Transfers) (slot : c.delayedBranch = true)
    (idle : c.intc.isIrqPending = false) :
    ∃ c', c.doExecInst env nopWord = some c' ∧ c'.entered = c.entered := by
  have hadvance : c.advance nopWord = c.write regPc (c.pc + 2) := if_pos (by decide)
  simp only [doExecInst, slot, Bool.true_and, decode_nopWord.2, Bool.not_false, if_true]
  rw [decode_nopWord.1, run_nop transfers, bind_some, finishInst, if_pos rfl,
    checkInterruptsNoDelayBranchCheck, hadvance]
  exact ⟨_, if_neg (by simp [write, idle]), rfl⟩

theorem Cpu.rte_nop_returns (transfers : env.Transfers) (noSlot : c.delayedBranch = false)
    (known : ∃ offset, (code, offset) ∈ excpMeta) (privileged : c.sr &&& srMdMask ≠ 0)
    (flagged : c.QueueFlagged) (idle : c.intc.isIrqPending = false) :
    ∃ c₁ c₂ c', c.enterException code = some c₁ ∧ c₁.doExecInst env rteWord = some c₂ ∧
      c₂.doExecInst env nopWord = some c' ∧ c'.context = c.context := by
  obtain ⟨c₁, henter, hflagged⟩ := enterException_isSome known flagged
  obtain ⟨hin, hctx, -⟩ := inHandler_of_enterException noSlot henter
  have hssr : c₁.reg regSsr = c.sr := congrArg Context.sr hctx
  obtain ⟨c₂, hrte⟩ := rte_isSome env hin.noSlot (by rw [hssr]; exact privileged) hflagged
  obtain ⟨hslot, -, -, -, hentered, hintc⟩ := exec_rte hin.noSlot hrte
  have hidle : c₂.intc.isIrqPending = false := by
    rw [hintc, (enters_of_some henter).frame.intc]
    exact idle
  obtain ⟨c', hnop, hsame⟩ := nop_isSome transfers hslot hidle
  obtain ⟨hback, -⟩ := (hin.returns transfers hrte (.refl c₂) hnop).1 (hsame.trans hentered)
  exact ⟨c₁, c₂, c', henter, hrte, hnop, hback.trans hctx⟩

end

/-- Every exception or interrupt that is entered outside of a delay slot, and whose handler is run
from its first instruction, goes back to the program that was interrupted. A handler that only
returns does so if the emulator can run the program at all and no interrupt is waiting; a handler
that other exceptions interrupt has to save SPC and SSR before and to restore them after, and then
all registers are as before but those in which they were saved. -/
theorem exceptions_return (env : Env ω) (mem : UInt32 → UInt16) :
    (∀ (c : Cpu ω) (code : UInt32), c.delayedBranch = false →
      (∃ offset, (code, offset) ∈ excpMeta) → c.sr &&& srMdMask ≠ 0 → c.QueueFlagged →
      c.intc.isIrqPending = false →
        ∃ c₁ c₂ c', c.enterException code = some c₁ ∧
          c₁.doExecInst env.withTransfers rteWord = some c₂ ∧
          c₂.doExecInst env.withTransfers nopWord = some c' ∧ c'.context = c.context) ∧
      ∀ (c c₁ c' : Cpu ω) (used : List (Fin 16)), Enters env.withTransfers c c₁ →
        Runs env.withTransfers mem .handler used c₁ c' → c.context.Agrees used c'.context := by
  have transfers := env.transfers_withTransfers
  constructor
  · intro c code noSlot known privileged flagged idle
    exact Cpu.rte_nop_returns transfers noSlot known privileged flagged idle
  · intro c c₁ c' used enters runs
    obtain ⟨hin, hctx⟩ := enters.inHandler
    rw [← hctx]
    exact (runs.brings transfers hin).1

/-! ## Exceptions that an instruction enters -/

/-- RTE at the vector of general exceptions, and NOP everywhere else. -/
def rteAtVector (addr : UInt32) : UInt16 := if addr = 0x8c000100 then rteWord else nopWord

def interruptedCpu : Cpu Unit :=
  resetCpu fun i => if i = regPc then 0x8c010000 else if i = regVbr then 0x8c000000 else 0

def Cpu.fetchExec (mem : UInt32 → UInt16) (c : Cpu Unit) : Option (Cpu Unit) :=
  c.act bareEnv.withTransfers (.inst (mem c.pc))

/-- An undefined opcode enters an exception whose handler is RTE and NOP. PC is incremented after
the entry, so that NOP is the first instruction of the handler that is run, and RTE is not run. -/
theorem undefined_opcode_skips_rte :
    rteAtVector (vectorAddr (interruptedCpu.reg regVbr) 0x100 excpGenIllegalInst) = rteWord ∧
      ((interruptedCpu.act bareEnv.withTransfers (.inst 0xffff)).map fun c =>
        (c.entered.map Entry.code, c.reg regSpc)) = some ([excpGenIllegalInst], interruptedCpu.pc) ∧
      (((interruptedCpu.act bareEnv.withTransfers (.inst 0xffff)).bind
        (Cpu.fetchExec rteAtVector)).bind (Cpu.fetchExec rteAtVector)).map Cpu.pc =
          some 0x8c000106 ∧
      interruptedCpu.pc ≠ 0x8c000106 := by
  decide +kernel

end Sh4
