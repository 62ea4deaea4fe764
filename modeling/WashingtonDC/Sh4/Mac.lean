import WashingtonDC.IntMath
import WashingtonDC.Sh4.Functions
import Mathlib.Algebra.Order.Ring.Abs
import Mathlib.Data.Int.ModEq
import Mathlib.Tactic.NormNum

/-!
# Multiply and accumulate

MAC.L and MAC.W: two elements of memory, whose addresses are incremented, are multiplied and the
product is added to MACH:MACL. What the instructions are for is stated with exact integers, modulo
2^64 or clamped if S is set. Memory is one that reading does not change. Signed additions that
overflow, not defined in C, wrap.
-/
namespace Sh4

open Cpu Nat

variable {ω : Type}

abbrev srSMask : UInt32 := 0x2

/-- Memory that holds operands. -/
structure OperandMemory (ω : Type) where
  read16 : UInt32 → ω → UInt16
  read32 : UInt32 → ω → UInt32

/-! ## The instruction functions -/

namespace Cpu

variable (mem : OperandMemory ω) (inst : UInt16) (c : Cpu ω)

def mac64 : Int64 :=
  ((c.reg regMacl).toUInt64 ||| ((c.reg regMach).toUInt64 <<< 32)).toInt64

def setMac64 (sum : Int64) : Cpu ω :=
  (c.write regMacl (sum.toUInt64 &&& 0xffffffff).toUInt32).write regMach
    (sum.toUInt64 >>> 32).toUInt32

/-- Both address registers are incremented; if they are the same, it is incremented twice. -/
def stepAddrs (size : UInt32) : Cpu ω :=
  let c := c.write (rn inst) (c.reg (rn inst) + size)
  c.write (rm inst) (c.reg (rm inst) + size)

def max48 : Int64 := 0x7fffffffffff
def min48 : Int64 := -0x800000000000

def macSaturated (mac product : Int64) : Int64 :=
  let sum := mac + product
  if sum < 0 then
    if 0 ≤ mac ∧ 0 ≤ product then max48 else if sum < min48 then min48 else sum
  else if mac < 0 ∧ product < 0 then min48
  else if sum > max48 then max48 else sum

def instBinaryMaclIndgenincIndgeninc : Cpu ω :=
  let lhs := mem.read32 (c.reg (rn inst)) c.world
  let rhs := mem.read32 (c.reg (rm inst)) c.world
  let product := lhs.toInt32.toInt64 * rhs.toInt32.toInt64
  let sum := if c.sr &&& srSMask = 0 then product + c.mac64 else macSaturated c.mac64 product
  (c.setMac64 sum).stepAddrs inst 4

def max32 : Int64 := 0x7fffffff
def min32 : Int64 := -0x80000000

def saturateMacl (result : Int64) : Cpu ω :=
  if result < min32 then
    (c.write regMach (c.reg regMach ||| 1)).write regMacl min32.toUInt64.toUInt32
  else if result > max32 then
    (c.write regMach (c.reg regMach ||| 1)).write regMacl max32.toUInt64.toUInt32
  else c.write regMacl result.toUInt64.toUInt32

def instBinaryMacwIndgenincIndgeninc : Cpu ω :=
  let lhs := mem.read16 (c.reg (rn inst)) c.world
  let rhs := mem.read16 (c.reg (rm inst)) c.world
  let product := lhs.toInt16.toInt64 * rhs.toInt16.toInt64
  let c :=
    if c.sr &&& srSMask ≠ 0 then c.saturateMacl (product + (c.reg regMacl).toUInt64.toInt64)
    else c.setMac64 (product + c.mac64)
  c.stepAddrs inst 2

end Cpu

def macFunctions (mem : OperandMemory ω) : Functions ω
  | .binaryMaclIndgenincIndgeninc => some (Cpu.instBinaryMaclIndgenincIndgeninc mem)
  | .binaryMacwIndgenincIndgeninc => some (Cpu.instBinaryMacwIndgenincIndgeninc mem)
  | _ => none

/-! ## What they are for -/

/-- MAC.L (`wide`) or MAC.W @Rm+,@Rn+. -/
structure MacOp where
  wide : Bool
  m : Fin 16
  n : Fin 16

namespace MacOp

variable (mem : OperandMemory ω) (op : MacOp) (world : ω) (gen : Fin 16 → UInt32)

def word : UInt16 :=
  (if op.wide then (0x000f : UInt16) else 0x400f) ||| UInt16.ofNat op.n.val <<< 8 ||| UInt16.ofNat op.m.val <<< 4

def size : UInt32 := if op.wide then 4 else 2

def element (addr : UInt32) : Int :=
  if op.wide then (mem.read32 addr world).toInt32.toInt else (mem.read16 addr world).toInt16.toInt

/-- The element at Rn is read first. If Rm is the same register, its element is the next one. -/
def operands : Int × Int :=
  (op.element mem world (gen op.n),
    op.element mem world (if op.m = op.n then gen op.n + op.size else gen op.m))

def product : Int := (op.operands mem world gen).1 * (op.operands mem world gen).2

def next : Fin 16 → UInt32 :=
  let gen := Function.update gen op.n (gen op.n + op.size)
  Function.update gen op.m (gen op.m + op.size)

end MacOp

def dotProduct (mem : OperandMemory ω) (world : ω) : List MacOp → (Fin 16 → UInt32) → Int
  | [], _ => 0
  | op :: ops, gen => op.product mem world gen + dotProduct mem world ops (op.next gen)

def clamp (lo hi x : Int) : Int := max lo (min hi x)

/-! ## MACH:MACL -/

theorem join_halves (x : UInt64) :
    (x &&& 0xffffffff).toUInt32.toUInt64 ||| ((x >>> 32).toUInt32.toUInt64 <<< 32) = x := by
  have hx := x.toNat_lt
  have hlow : (x &&& 0xffffffff).toUInt32.toUInt64.toNat = x.toNat % 2 ^ 32 := by
    rw [UInt32.toNat_toUInt64, UInt64.toNat_toUInt32, UInt64.toNat_and]
    show (x.toNat &&& 2 ^ 32 - 1) % 2 ^ 32 = _
    rw [and_two_pow_sub_one_eq_mod, mod_mod]
  have hhigh : ((x >>> 32).toUInt32.toUInt64 <<< 32).toNat = x.toNat / 2 ^ 32 * 2 ^ 32 := by
    rw [UInt64.toNat_shiftLeft, UInt32.toNat_toUInt64, UInt64.toNat_toUInt32, UInt64.toNat_shiftRight]
    show (x.toNat >>> 32 % 2 ^ 32) <<< 32 % 2 ^ 64 = _
    rw [shiftRight_eq_div_pow, shiftLeft_eq]
    omega
  apply UInt64.toNat_inj.mp
  rw [UInt64.toNat_or, hlow, hhigh, Nat.or_comm, ← shiftLeft_eq,
    ← shiftLeft_add_eq_or_of_lt (mod_lt _ (by decide)), shiftLeft_eq]
  omega

namespace Cpu

variable {c c' : Cpu ω}

theorem mac64_congr (macl : c'.reg regMacl = c.reg regMacl) (mach : c'.reg regMach = c.reg regMach) :
    c'.mac64 = c.mac64 := by
  rw [mac64, mac64, macl, mach]

theorem mac64_setMac64 (c : Cpu ω) (sum : Int64) : (c.setMac64 sum).mac64 = sum := by
  have hmacl : (c.setMac64 sum).reg regMacl = (sum.toUInt64 &&& 0xffffffff).toUInt32 := by
    rw [setMac64, write_reg, if_neg (by decide), write_reg, if_pos rfl]
  have hmach : (c.setMac64 sum).reg regMach = (sum.toUInt64 >>> 32).toUInt32 := by
    rw [setMac64, write_reg, if_pos rfl]
  rw [mac64, hmacl, hmach, join_halves]
  rfl

theorem stepAddrs_reg (c : Cpu ω) (inst : UInt16) (size : UInt32) {j : Nat} (high : 16 ≤ j) :
    (c.stepAddrs inst size).reg j = c.reg j := by
  have hrn := rn_lt inst
  have hrm := rm_lt inst
  rw [stepAddrs, write_reg, if_neg (by omega), write_reg, if_neg (by omega)]

end Cpu

/-! ## The products -/

theorem abs_mul_le {x y k : Int} (hx : |x| ≤ k) (hy : |y| ≤ k) : |x * y| ≤ k * k := by
  rw [abs_mul]
  exact mul_le_mul hx hy (abs_nonneg y) ((abs_nonneg x).trans hx)

theorem toInt_mul_of_abs_le {a b : Int64} {k : Int} (ha : |a.toInt| ≤ k) (hb : |b.toInt| ≤ k)
    (hk : k * k ≤ 2 ^ 62) :
    (a * b).toInt = a.toInt * b.toInt ∧ |(a * b).toInt| ≤ k * k := by
  have hbound := abs_mul_le ha hb
  have heq : (a * b).toInt = a.toInt * b.toInt := by
    rw [abs_le] at hbound
    rw [Int64.toInt_mul, Int.bmod_eq_of_le (by omega) (by omega)]
  rw [heq]
  exact ⟨rfl, hbound⟩

theorem toInt_product32 (lhs rhs : UInt32) :
    let product := lhs.toInt32.toInt64 * rhs.toInt32.toInt64
    product.toInt = lhs.toInt32.toInt * rhs.toInt32.toInt ∧ |product.toInt| ≤ 2 ^ 62 := by
  have habs : ∀ x : UInt32, |x.toInt32.toInt64.toInt| ≤ 2 ^ 31 := by
    intro x
    rw [Int32.toInt_toInt64]
    exact abs_le.mpr ⟨x.toInt32.le_toInt, x.toInt32.toInt_lt.le⟩
  have hmul := toInt_mul_of_abs_le (habs lhs) (habs rhs) (by norm_num)
  rw [Int32.toInt_toInt64, Int32.toInt_toInt64] at hmul
  exact hmul

theorem toInt_product16 (lhs rhs : UInt16) :
    let product := lhs.toInt16.toInt64 * rhs.toInt16.toInt64
    product.toInt = lhs.toInt16.toInt * rhs.toInt16.toInt ∧ |product.toInt| ≤ 2 ^ 30 := by
  have habs : ∀ x : UInt16, |x.toInt16.toInt64.toInt| ≤ 2 ^ 15 := by
    intro x
    rw [Int16.toInt_toInt64]
    exact abs_le.mpr ⟨x.toInt16.le_toInt, x.toInt16.toInt_lt.le⟩
  have hmul := toInt_mul_of_abs_le (habs lhs) (habs rhs) (by norm_num)
  rw [Int16.toInt_toInt64, Int16.toInt_toInt64] at hmul
  exact hmul

/-! ## Saturation -/

theorem toInt_macSaturated {mac product : Int64} (small : |product.toInt| ≤ 2 ^ 62) :
    (Cpu.macSaturated mac product).toInt =
      clamp (-2 ^ 47) (2 ^ 47 - 1) (mac.toInt + product.toInt) := by
  have hle := mac.le_toInt
  have hlt := mac.toInt_lt
  rw [abs_le] at small
  have hsum : (mac + product).toInt =
      if mac.toInt + product.toInt < -2 ^ 63 then mac.toInt + product.toInt + 2 ^ 64
      else if mac.toInt + product.toInt < 2 ^ 63 then mac.toInt + product.toInt
      else mac.toInt + product.toInt - 2 ^ 64 := by
    rw [Int64.toInt_add, Int.bmod_def]
    split <;> split <;> omega
  have hmax : Cpu.max48.toInt = 2 ^ 47 - 1 := rfl
  have hmin : Cpu.min48.toInt = -2 ^ 47 := rfl
  have hzero : (0 : Int64).toInt = 0 := rfl
  rw [clamp, Cpu.macSaturated]
  simp only [Int64.lt_iff_toInt_lt, Int64.le_iff_toInt_le, gt_iff_lt, hzero, hmax, hmin]
  rcases lt_or_ge (mac.toInt + product.toInt) (-2 ^ 63) with hlow | hlow
  · rw [if_pos hlow] at hsum
    rw [if_neg (by omega), if_pos (by omega), hmin]
    omega
  rcases lt_or_ge (mac.toInt + product.toInt) (2 ^ 63) with hhigh | hhigh
  · rw [if_neg (by omega), if_pos hhigh] at hsum
    rw [hsum]
    split
    · rw [if_neg (by omega)]
      split <;> omega
    · rw [if_neg (by omega)]
      split <;> omega
  · rw [if_neg (by omega), if_neg (by omega)] at hsum
    rw [if_pos (by omega), if_pos (by omega), hmax]
    omega

theorem toInt_low {x : Int64} (lower : -2 ^ 31 ≤ x.toInt) (upper : x.toInt < 2 ^ 31) :
    x.toUInt64.toUInt32.toInt32.toInt = x.toInt := by
  have hint : x.toInt = if 2 * x.toUInt64.toNat < 2 ^ 64 then (x.toUInt64.toNat : Int)
      else x.toUInt64.toNat - 2 ^ 64 := BitVec.toInt_eq_toNat_cond _
  rw [IntMath.toInt32_toInt, UInt64.toNat_toUInt32]
  split at hint <;> split <;> omega

theorem Cpu.toInt_saturateMacl (c : Cpu ω) (result : Int64) :
    ((c.saturateMacl result).reg regMacl).toInt32.toInt =
      clamp (-2 ^ 31) (2 ^ 31 - 1) result.toInt := by
  have hmax : max32.toInt = 2 ^ 31 - 1 := rfl
  have hmin : min32.toInt = -2 ^ 31 := rfl
  rw [saturateMacl]
  simp only [Int64.lt_iff_toInt_lt, gt_iff_lt, hmax, hmin, clamp]
  split
  · rw [write_reg, if_pos rfl, toInt_low (by omega) (by omega)]
    omega
  split
  · rw [write_reg, if_pos rfl, toInt_low (by omega) (by omega)]
    omega
  · rw [write_reg, if_pos rfl, toInt_low (by omega) (by omega)]
    omega

theorem Cpu.saturateMacl_frame (c : Cpu ω) (result : Int64) :
    (c.saturateMacl result).delayedBranch = c.delayedBranch ∧
      (c.saturateMacl result).world = c.world ∧
      ∀ j, j ≠ regMacl → j ≠ regMach → (c.saturateMacl result).reg j = c.reg j := by
  rw [saturateMacl]
  split
  · refine ⟨rfl, rfl, fun j hmacl hmach => ?_⟩
    rw [write_reg, if_neg hmacl, write_reg, if_neg hmach]
  split
  · refine ⟨rfl, rfl, fun j hmacl hmach => ?_⟩
    rw [write_reg, if_neg hmacl, write_reg, if_neg hmach]
  · refine ⟨rfl, rfl, fun j hmacl _ => ?_⟩
    rw [write_reg, if_neg hmacl]

theorem toInt_unsigned (x : UInt32) : x.toUInt64.toInt64.toInt = x.toNat := by
  have hx := x.toNat_lt
  have hint : x.toUInt64.toInt64.toInt = if 2 * x.toUInt64.toNat < 2 ^ 64 then
      (x.toUInt64.toNat : Int) else x.toUInt64.toNat - 2 ^ 64 := BitVec.toInt_eq_toNat_cond _
  rw [hint, UInt32.toNat_toUInt64, if_pos (by omega)]

theorem clamp_unsigned_iff {product : Int} (macl : UInt32) (small : |product| ≤ 2 ^ 30) :
    clamp (-2 ^ 31) (2 ^ 31 - 1) (product + macl.toNat) =
        clamp (-2 ^ 31) (2 ^ 31 - 1) (macl.toInt32.toInt + product) ↔ macl.toNat < 2 ^ 31 := by
  have hlt := macl.toNat_lt
  rw [abs_le] at small
  rw [IntMath.toInt32_toInt]
  simp only [clamp]
  split <;> omega

/-! ## One step -/

theorem MacOp.word_decoded (op : MacOp) :
    (sh4DecodeInst op.word).func =
      .fallback (if op.wide then .binaryMaclIndgenincIndgeninc else .binaryMacwIndgenincIndgeninc) := by
  obtain ⟨wide, m, n⟩ := op
  cases wide with
  | true =>
    have hfits : 0xf00f &&& (MacOp.mk true m n).word = 0x000f := by
      revert m n
      decide
    rw [sh4DecodeInst_of_pattern ⟨.fallback .binaryMaclIndgenincIndgeninc, .fallback, false, .co, 2,
      0xf00f, 0x000f⟩ hfits rfl]
    rfl
  | false =>
    have hfits : 0xf00f &&& (MacOp.mk false m n).word = 0x400f := by
      revert m n
      decide
    rw [sh4DecodeInst_of_pattern ⟨.fallback .binaryMacwIndgenincIndgeninc, .fallback, false, .co, 2,
      0xf00f, 0x400f⟩ hfits rfl]
    rfl

theorem MacOp.word_regs (op : MacOp) : Cpu.rn op.word = op.n ∧ rm op.word = op.m := by
  obtain ⟨wide, m, n⟩ := op
  cases wide <;> revert m n <;> decide

def Cpu.addrs (c : Cpu ω) : Fin 16 → UInt32 := fun i => c.reg i

/-- What is the same for all of these instructions. -/
structure Stepped (op : MacOp) (c c' : Cpu ω) : Prop where
  slot : c'.delayedBranch = c.delayedBranch
  world : c'.world = c.world
  sr : c'.sr = c.sr
  addrs : c'.addrs = op.next c.addrs

section
variable {op : MacOp} {c c₁ : Cpu ω}

theorem Stepped.of_write (slot : c₁.delayedBranch = c.delayedBranch) (world : c₁.world = c.world)
    (regs : ∀ j, j ≠ regMacl → j ≠ regMach → c₁.reg j = c.reg j) :
    Stepped op c ((c₁.stepAddrs op.word op.size).advance op.word) := by
  obtain ⟨hn, hm⟩ := op.word_regs
  refine ⟨(advance_delayedBranch _ _).trans slot, ?_, ?_, ?_⟩
  · rw [advance]
    split <;> exact world
  · rw [Cpu.sr, Cpu.advance_reg _ _ (by decide), Cpu.stepAddrs_reg _ _ _ (by decide),
      regs _ (by decide) (by decide)]
    rfl
  · funext j
    have hlow : ∀ i : Fin 16, c₁.reg i = c.reg i := by
      intro i
      exact regs i (by simp only [regMacl]; omega) (by simp only [regMach]; omega)
    rw [Cpu.addrs, Cpu.advance_reg _ _ (by simp only [regPc]; omega)]
    simp only [Cpu.stepAddrs, hn, hm, Cpu.write_reg, hlow, MacOp.next, Function.update_apply,
      Fin.ext_iff, Cpu.addrs]

theorem Cpu.setMac64_reg (c : Cpu ω) (sum : Int64) {j : Nat} (notMacl : j ≠ regMacl)
    (notMach : j ≠ regMach) : (c.setMac64 sum).reg j = c.reg j := by
  rw [setMac64, write_reg, if_neg notMach, write_reg, if_neg notMacl]

theorem Cpu.stepAddrs_mac (c : Cpu ω) (inst : UInt16) (size : UInt32) {j : Nat} (high : 16 ≤ j)
    (ne : j ≠ regPc) : ((c.stepAddrs inst size).advance inst).reg j = c.reg j := by
  rw [advance_reg _ _ ne, stepAddrs_reg _ _ _ high]

theorem Cpu.mac64_stepAddrs (c : Cpu ω) (inst : UInt16) (size : UInt32) :
    ((c.stepAddrs inst size).advance inst).mac64 = c.mac64 :=
  mac64_congr (stepAddrs_mac c inst size (by decide) (by decide))
    (stepAddrs_mac c inst size (by decide) (by decide))

end

namespace MacOp

variable (mem : OperandMemory ω) (op : MacOp) (c : Cpu ω)

/-- The product as it is computed: both addresses are read before one is incremented. -/
def computed : Int :=
  op.element mem c.world (c.addrs op.n) * op.element mem c.world (c.addrs op.m)

end MacOp

theorem modEq_toInt_add (a b : Int64) : (a + b).toInt ≡ a.toInt + b.toInt [ZMOD 2 ^ 64] := by
  rw [Int64.toInt_add]
  exact Int.bmod_emod

theorem macl_steps (mem : OperandMemory ω) (m n : Fin 16) (c : Cpu ω) :
    let op : MacOp := ⟨true, m, n⟩
    let c' := (c.instBinaryMaclIndgenincIndgeninc mem op.word).advance op.word
    Stepped op c c' ∧
      (c.sr &&& srSMask = 0 → c'.mac64.toInt ≡ c.mac64.toInt + op.computed mem c [ZMOD 2 ^ 64]) ∧
      (c.sr &&& srSMask ≠ 0 →
        c'.mac64.toInt = clamp (-2 ^ 47) (2 ^ 47 - 1) (c.mac64.toInt + op.computed mem c)) := by
  intro op c'
  obtain ⟨hn, hm⟩ := op.word_regs
  obtain ⟨product, hdef⟩ : ∃ product, product = (mem.read32 (c.reg n) c.world).toInt32.toInt64 *
    (mem.read32 (c.reg m) c.world).toInt32.toInt64 := ⟨_, rfl⟩
  have hproduct : product.toInt = op.computed mem c ∧ |product.toInt| ≤ 2 ^ 62 :=
    hdef ▸ toInt_product32 (mem.read32 (c.reg n) c.world) (mem.read32 (c.reg m) c.world)
  obtain ⟨sum, hsum⟩ : ∃ sum, sum = if c.sr &&& srSMask = 0 then product + c.mac64
    else Cpu.macSaturated c.mac64 product := ⟨_, rfl⟩
  have hc' : c' = ((c.setMac64 sum).stepAddrs op.word op.size).advance op.word := by
    simp only [c', Cpu.instBinaryMaclIndgenincIndgeninc, hn, hm, hsum, hdef]
    rfl
  have hmac : c'.mac64 = sum := by
    rw [hc', mac64_stepAddrs, Cpu.mac64_setMac64]
  rw [hmac, ← hproduct.1, hsum]
  refine ⟨?_, ?_, ?_⟩
  · rw [hc']
    exact .of_write rfl rfl fun j => setMac64_reg c sum
  · intro hclear
    rw [if_pos hclear, Int.add_comm]
    exact modEq_toInt_add _ _
  · intro hset
    rw [if_neg hset]
    exact toInt_macSaturated hproduct.2

theorem macw_steps (mem : OperandMemory ω) (m n : Fin 16) (c : Cpu ω) :
    let op : MacOp := ⟨false, m, n⟩
    let c' := (c.instBinaryMacwIndgenincIndgeninc mem op.word).advance op.word
    Stepped op c c' ∧ |op.computed mem c| ≤ 2 ^ 30 ∧
      (c.sr &&& srSMask = 0 → c'.mac64.toInt ≡ c.mac64.toInt + op.computed mem c [ZMOD 2 ^ 64]) ∧
      (c.sr &&& srSMask ≠ 0 → (c'.reg regMacl).toInt32.toInt =
        clamp (-2 ^ 31) (2 ^ 31 - 1) (op.computed mem c + (c.reg regMacl).toNat)) := by
  intro op c'
  obtain ⟨hn, hm⟩ := op.word_regs
  obtain ⟨product, hdef⟩ : ∃ product, product = (mem.read16 (c.reg n) c.world).toInt16.toInt64 *
    (mem.read16 (c.reg m) c.world).toInt16.toInt64 := ⟨_, rfl⟩
  have hproduct : product.toInt = op.computed mem c ∧ |product.toInt| ≤ 2 ^ 30 :=
    hdef ▸ toInt_product16 (mem.read16 (c.reg n) c.world) (mem.read16 (c.reg m) c.world)
  rw [← hproduct.1]
  by_cases hclear : c.sr &&& srSMask = 0
  · have hc' : c' = ((c.setMac64 (product + c.mac64)).stepAddrs op.word op.size).advance op.word := by
      simp only [c', Cpu.instBinaryMacwIndgenincIndgeninc, hn, hm, hdef]
      rw [if_neg (not_not.mpr hclear)]
      rfl
    refine ⟨?_, hproduct.2, ?_, fun hset => absurd hclear hset⟩
    · rw [hc']
      exact .of_write rfl rfl fun j => setMac64_reg c _
    · intro _
      rw [hc', mac64_stepAddrs, Cpu.mac64_setMac64, Int.add_comm]
      exact modEq_toInt_add _ _
  · obtain ⟨result, hresult⟩ : ∃ result, result = product + (c.reg regMacl).toUInt64.toInt64 :=
      ⟨_, rfl⟩
    have hc' : c' = ((c.saturateMacl result).stepAddrs op.word op.size).advance op.word := by
      simp only [c', Cpu.instBinaryMacwIndgenincIndgeninc, hn, hm, hdef, hresult]
      rw [if_pos hclear]
      rfl
    obtain ⟨hslot, hworld, hregs⟩ := c.saturateMacl_frame result
    refine ⟨?_, hproduct.2, fun h => absurd h hclear, ?_⟩
    · rw [hc']
      exact .of_write hslot hworld hregs
    · intro _
      have hlt := (c.reg regMacl).toNat_lt
      have hsmall := abs_le.mp hproduct.2
      have hsum : result.toInt = product.toInt + (c.reg regMacl).toNat := by
        rw [hresult, Int64.toInt_add, toInt_unsigned, Int.bmod_eq_of_le (by omega) (by omega)]
      rw [hc', Cpu.stepAddrs_mac _ _ _ (by decide) (by decide), toInt_saturateMacl, hsum]

/-! ## Sequences -/

namespace MacOp

variable (mem : OperandMemory ω) (op : MacOp) (world : ω) (gen : Fin 16 → UInt32)

/-- One register for both addresses does no harm if the element is zero or the same as the next. -/
def Agrees : Prop :=
  op.m = op.n → op.element mem world (gen op.n) = 0 ∨
    op.element mem world (gen op.n) = op.element mem world (gen op.n + op.size)

variable {mem op world gen}

theorem computed_eq {c : Cpu ω} (agrees : op.Agrees mem c.world c.addrs) :
    op.computed mem c = op.product mem c.world c.addrs := by
  rw [computed, product, operands]
  by_cases hsame : op.m = op.n
  · simp only [hsame, if_true]
    obtain hzero | heq := agrees hsame
    · rw [hzero, Int.zero_mul, Int.zero_mul]
    · rw [← heq]
  · rw [if_neg hsame]

end MacOp

def AllAgree (mem : OperandMemory ω) (world : ω) : List MacOp → (Fin 16 → UInt32) → Prop
  | [], _ => True
  | op :: ops, gen => op.Agrees mem world gen ∧ AllAgree mem world ops (op.next gen)

section
variable {mem : OperandMemory ω} {env : Env ω} {c : Cpu ω}

theorem MacOp.steps (executes : env.Executes (macFunctions mem)) (slot : c.delayedBranch = false)
    (op : MacOp) :
    ∃ c', c.doExecInst env op.word = some c' ∧ Stepped op c c' ∧
      (c.sr &&& srSMask = 0 → c'.mac64.toInt ≡ c.mac64.toInt + op.computed mem c [ZMOD 2 ^ 64]) ∧
      (c.sr &&& srSMask ≠ 0 → op.wide = true →
        c'.mac64.toInt = clamp (-2 ^ 47) (2 ^ 47 - 1) (c.mac64.toInt + op.computed mem c)) ∧
      (c.sr &&& srSMask ≠ 0 → op.wide = false →
        ((c'.reg regMacl).toInt32.toInt = clamp (-2 ^ 31) (2 ^ 31 - 1)
          ((c.reg regMacl).toInt32.toInt + op.computed mem c) ↔ (c.reg regMacl).toNat < 2 ^ 31)) := by
  have hdecoded := op.word_decoded
  obtain ⟨wide, m, n⟩ := op
  cases wide with
  | true =>
    obtain ⟨hstepped, hclear, hset⟩ := macl_steps mem m n c
    refine ⟨_, doExecInst_executes executes rfl hdecoded slot, hstepped, hclear, ?_, nofun⟩
    intro h _
    exact hset h
  | false =>
    obtain ⟨hstepped, hsmall, hclear, hset⟩ := macw_steps mem m n c
    refine ⟨_, doExecInst_executes executes rfl hdecoded slot, hstepped, hclear, nofun, ?_⟩
    intro h _
    rw [hset h]
    exact clamp_unsigned_iff (c.reg regMacl) hsmall

theorem dotProduct_runs (executes : env.Executes (macFunctions mem)) (ops : List MacOp)
    (slot : c.delayedBranch = false) (clear : c.sr &&& srSMask = 0)
    (agree : AllAgree mem c.world ops c.addrs) :
    ∃ c', c.runWords env (ops.map MacOp.word) = some c' ∧
      c'.mac64.toInt ≡ c.mac64.toInt + dotProduct mem c.world ops c.addrs [ZMOD 2 ^ 64] := by
  induction ops generalizing c with
  | nil =>
    refine ⟨c, rfl, ?_⟩
    rw [dotProduct, Int.add_zero]
  | cons op ops ih =>
    obtain ⟨hagrees, hrest⟩ := agree
    obtain ⟨c₁, hexec, hstepped, hsum, -⟩ := op.steps executes slot
    rw [← hstepped.addrs, ← hstepped.world] at hrest
    obtain ⟨c', hrun, hdot⟩ := ih (hstepped.slot.trans slot) (hstepped.sr ▸ clear) hrest
    refine ⟨c', ?_, ?_⟩
    · rw [List.map_cons, runWords_cons, hexec, Option.bind_some, hrun]
    · rw [hstepped.addrs, hstepped.world] at hdot
      have hfirst := hsum clear
      rw [MacOp.computed_eq hagrees] at hfirst
      rw [dotProduct, ← Int.add_assoc]
      exact hdot.trans (hfirst.add_right _)

end

/-! ## An environment -/

theorem Cpu.stepAddrs_writes {inst : UInt16} {size : UInt32} {c c₁ : Cpu ω}
    (registers : c₁ = { c with reg := c₁.reg })
    (regs : ∀ j, j ≠ regMacl → j ≠ regMach → c₁.reg j = c.reg j) :
    Writes inst c (c₁.stepAddrs inst size) where
  registers := by rw [registers]; rfl
  others j hmacl hmach hn hm _ := by
    rw [stepAddrs, write_reg, if_neg hm, write_reg, if_neg hn, regs j hmacl hmach]
  systemBits := by
    rw [sr, stepAddrs_reg _ _ _ (by decide), regs _ (by decide) (by decide)]
    rfl

theorem functionEnv_macFunctions (mem : OperandMemory ω) :
    (functionEnv (macFunctions mem)).Executes (macFunctions mem) := by
  apply functionEnv_executes
  · intro f g h
    unfold macFunctions at h
    split at h <;> first | rfl | cases h
  · intro f g h inst c
    unfold macFunctions at h
    split at h <;> cases h
    · exact stepAddrs_writes rfl fun j => setMac64_reg c _
    · rw [Cpu.instBinaryMacwIndgenincIndgeninc]
      split
      · refine stepAddrs_writes ?_ (c.saturateMacl_frame _).2.2
        rw [Cpu.saturateMacl]
        split
        · rfl
        split <;> rfl
      · exact stepAddrs_writes rfl fun j => setMac64_reg c _

/-- MACH:MACL accumulates the exact products, modulo 2^64 or clamped, where no instruction of one
register for both addresses finds two different elements; MAC.W with S set does so exactly if MACL is
not negative. -/
theorem macs_accumulate {mem : OperandMemory ω} {env : Env ω} {c : Cpu ω}
    (executes : env.Executes (macFunctions mem)) (slot : c.delayedBranch = false) :
    (c.sr &&& srSMask = 0 → ∀ ops, AllAgree mem c.world ops c.addrs →
      ∃ c', c.runWords env (ops.map MacOp.word) = some c' ∧
        c'.mac64.toInt ≡ c.mac64.toInt + dotProduct mem c.world ops c.addrs [ZMOD 2 ^ 64]) ∧
    (c.sr &&& srSMask ≠ 0 → ∀ op : MacOp, op.Agrees mem c.world c.addrs →
      ∃ c', c.doExecInst env op.word = some c' ∧
        (op.wide = true → c'.mac64.toInt =
          clamp (-2 ^ 47) (2 ^ 47 - 1) (c.mac64.toInt + op.product mem c.world c.addrs)) ∧
        (op.wide = false →
          ((c'.reg regMacl).toInt32.toInt = clamp (-2 ^ 31) (2 ^ 31 - 1)
            ((c.reg regMacl).toInt32.toInt + op.product mem c.world c.addrs) ↔
              (c.reg regMacl).toNat < 2 ^ 31))) := by
  refine ⟨fun clear ops agree => dotProduct_runs executes ops slot clear agree, ?_⟩
  intro hset op hagrees
  obtain ⟨c', hexec, -, -, hwide, hnarrow⟩ := op.steps executes slot
  rw [MacOp.computed_eq hagrees] at hwide hnarrow
  exact ⟨c', hexec, hwide hset, hnarrow hset⟩

def smallMemory : OperandMemory Unit where
  read16 addr _ := if addr = 0 then 2 else 3
  read32 addr _ := if addr = 0 then 2 else 3

def saturatingCpu (macl : UInt32) : Cpu Unit :=
  ((resetCpu fun i => if i = 1 then 8 else 0).write regMacl macl).write regSr 0x700000f2

theorem macs_accumulate_small :
    ∃ c', (saturatingCpu 5).doExecInst (functionEnv (macFunctions smallMemory))
        (MacOp.mk false 0 1).word = some c' ∧
      (c'.reg regMacl).toInt32.toInt = clamp (-2 ^ 31) (2 ^ 31 - 1) (5 + 3 * 2) := by
  obtain ⟨c', hexec, -, hnarrow⟩ := (macs_accumulate (functionEnv_macFunctions smallMemory)
    (c := saturatingCpu 5) rfl).2 (by decide) (MacOp.mk false 0 1) nofun
  exact ⟨c', hexec, (hnarrow rfl).mpr (by decide)⟩

/-- MAC.L @R0+,@R0+ multiplies the element 2 by itself, not by the next one; MAC.W takes the sum of
-1 and 6 for too large. -/
theorem macs_wrong :
    ((resetCpu fun _ => 0).doExecInst (functionEnv (macFunctions smallMemory))
      (MacOp.mk true 0 0).word).map (fun c' => c'.mac64.toInt) = some 4 ∧
    (MacOp.mk true 0 0).product smallMemory () (fun _ => 0) = 6 ∧
    ((saturatingCpu 0xffffffff).doExecInst (functionEnv (macFunctions smallMemory))
      (MacOp.mk false 0 1).word).map (fun c' => (c'.reg regMacl).toInt32.toInt) =
        some (2 ^ 31 - 1) ∧
    (MacOp.mk false 0 1).product smallMemory () (saturatingCpu 0xffffffff).addrs = 6 := by
  refine ⟨?_, ?_, ?_, ?_⟩ <;> decide +kernel

end Sh4
