import WashingtonDC.Sh4.Steps

/-!
# Instruction functions in the interpreter

In the interpreter the functions of most instructions are a parameter, of which only the effects are
known. Where such a function is modelled, `Env.Executes` says that it is the one that the interpreter
calls. Environments of this kind exist: the functions of this development write general registers,
the registers of the multiplier and flags, and each of these is an effect.
-/
namespace Sh4

variable {ω : Type}

abbrev regMach : Nat := 65
abbrev regMacl : Nat := 66

abbrev Functions (ω : Type) := FallbackFn → Option (UInt16 → Cpu ω → Cpu ω)

def Env.Executes (env : Env ω) (functions : Functions ω) : Prop :=
  ∀ (f : FallbackFn) (g : UInt16 → Cpu ω → Cpu ω), functions f = some g →
    (OpFunc.fallback f).control = none ∧
      ∀ (inst : UInt16) (c : Cpu ω), c.instPlain env inst (.fallback f) = some (g inst c)

def Cpu.runWords (env : Env ω) (words : List UInt16) (c : Cpu ω) : Option (Cpu ω) :=
  words.foldlM (fun c word => c.doExecInst env word) c

section
variable {env : Env ω} {c : Cpu ω}

theorem Cpu.runWords_cons (word : UInt16) (words : List UInt16) :
    c.runWords env (word :: words) = (c.doExecInst env word).bind (runWords env words) :=
  List.foldlM_cons

theorem Cpu.runWords_append (words words' : List UInt16) :
    c.runWords env (words ++ words') = (c.runWords env words).bind (runWords env words') :=
  List.foldlM_append

variable {functions : Functions ω} {f : FallbackFn} {g : UInt16 → Cpu ω → Cpu ω} {inst : UInt16}

theorem Cpu.doExecInst_executes (executes : env.Executes functions) (function : functions f = some g)
    (decoded : (sh4DecodeInst inst).func = .fallback f) (slot : c.delayedBranch = false) :
    c.doExecInst env inst = some ((g inst c).advance inst) := by
  obtain ⟨hplain, hrun⟩ := executes f g function
  rw [doExecInst, slot, decoded, OpFunc.run, hplain]
  simp only [hrun]
  rfl

end

/-! ## Registers and flags -/

theorem Cpu.rm_lt (inst : UInt16) : rm inst < 16 := by
  have hle : (inst >>> 4 &&& 0xf).toNat ≤ 15 := by
    rw [UInt16.toNat_and]
    exact Nat.and_le_right
  exact Nat.lt_succ_of_le hle

theorem Cpu.advance_reg (c : Cpu ω) (inst : UInt16) {j : Nat} (ne : j ≠ regPc) :
    (c.advance inst).reg j = c.reg j := by
  rw [advance]
  split
  · rw [write_reg, if_neg ne]
  · rfl

theorem Cpu.advance_delayedBranch (c : Cpu ω) (inst : UInt16) :
    (c.advance inst).delayedBranch = c.delayedBranch := by
  rw [advance]
  split <;> rfl

theorem merge_flags {sr sr' : UInt32} (same : sr' &&& srSystemBits = sr &&& srSystemBits) :
    merge (~~~srSystemBits) sr sr' = sr' := by
  rw [merge, UInt32.not_not, ← same, WordMask.and_or_clear]

/-! ## An environment -/

/-- What the functions of this development may change. -/
structure Writes (inst : UInt16) (c c' : Cpu ω) : Prop where
  registers : c' = { c with reg := c'.reg }
  others : ∀ j, j ≠ regMacl → j ≠ regMach → j ≠ Cpu.rn inst → j ≠ rm inst → j ≠ regSr →
    c'.reg j = c.reg j
  systemBits : c'.sr &&& srSystemBits = c.sr &&& srSystemBits

def writeEffects (inst : UInt16) (c' : Cpu ω) : List Effect :=
  [.write regMacl rfl (c'.reg regMacl), .write regMach rfl (c'.reg regMach),
    .write (Cpu.rn inst) (isControlReg_of_lt (Cpu.rn_lt inst)) (c'.reg (Cpu.rn inst)),
    .write (rm inst) (isControlReg_of_lt (Cpu.rm_lt inst)) (c'.reg (rm inst)), .setFlags c'.sr]

/-- An environment that executes the given functions and no others. -/
def functionEnv (functions : Functions ω) : Env ω where
  plain f inst c :=
    match f with
    | .native _ => none
    | .fallback f => (functions f).map fun g => (writeEffects inst (g inst c), c.world)
  read32 _ _ := none
  read32_viaMemory := nofun
  debugger := false

theorem Writes.applyAll {inst : UInt16} {c c' : Cpu ω} (writes : Writes inst c c') :
    c.applyAll (writeEffects inst c') = some c' := by
  have hrn := Cpu.rn_lt inst
  have hrm := Cpu.rm_lt inst
  obtain ⟨c₁, hc₁⟩ : ∃ c₁, c₁ = (((c.write regMacl (c'.reg regMacl)).write regMach
    (c'.reg regMach)).write (Cpu.rn inst) (c'.reg (Cpu.rn inst))).write (rm inst)
      (c'.reg (rm inst)) := ⟨_, rfl⟩
  have hall : c.applyAll (writeEffects inst c') =
      some (c₁.write regSr (merge (~~~srSystemBits) c₁.sr c'.sr)) := by
    rw [hc₁]
    rfl
  have hsr : c₁.sr = c.sr := by
    simp only [hc₁, Cpu.sr, Cpu.write_reg]
    rw [if_neg (by simp only [regSr]; omega), if_neg (by simp only [regSr]; omega),
      if_neg (by decide), if_neg (by decide)]
  have hreg : ∀ j, j ≠ regSr → c₁.reg j = c'.reg j := by
    intro j hj
    simp only [hc₁, Cpu.write_reg]
    by_cases hm : j = rm inst
    · rw [if_pos hm, hm]
    by_cases hn : j = Cpu.rn inst
    · rw [if_neg hm, if_pos hn, hn]
    by_cases hmach : j = regMach
    · rw [if_neg hm, if_neg hn, if_pos hmach, hmach]
    by_cases hmacl : j = regMacl
    · rw [if_neg hm, if_neg hn, if_neg hmach, if_pos hmacl, hmacl]
    · rw [if_neg hm, if_neg hn, if_neg hmach, if_neg hmacl, writes.others j hmacl hmach hn hm hj]
  have hfinal : (c₁.write regSr c'.sr).reg = c'.reg := by
    funext j
    rw [Cpu.write_reg]
    split
    · rename_i hj
      rw [hj]
      rfl
    · rename_i hj
      exact hreg j hj
  rw [hall, hsr, merge_flags writes.systemBits, writes.registers, ← hfinal, hc₁]
  rfl

theorem functionEnv_executes {functions : Functions ω}
    (plain : ∀ f g, functions f = some g → (OpFunc.fallback f).control = none)
    (writes : ∀ f g, functions f = some g → ∀ inst c, Writes inst c (g inst c)) :
    (functionEnv functions).Executes functions := by
  intro f g hfunction
  refine ⟨plain f g hfunction, ?_⟩
  intro inst c
  have hwrites := writes f g hfunction inst c
  have hplain : (functionEnv functions).plain (.fallback f) inst c =
      some (writeEffects inst (g inst c), c.world) := by
    show (functions f).map _ = _
    rw [hfunction, Option.map_some]
  simp only [Cpu.instPlain, hplain, Option.bind_eq_bind, Option.bind_some, hwrites.applyAll]
  rw [hwrites.registers]

end Sh4
