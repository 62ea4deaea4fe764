import WashingtonDC.Arm7.Steps
import WashingtonDC.BarrelShift

/-!
# The barrel shifter of the ARM7 core

What the shifter of the architecture computes for an immediate amount and for an amount in a
register, and where `decode_shift` computes the same. Amounts of 32 and more make the shifts of the
source undefined; the statements about them are about the x86 host, which takes the amount modulo
32.
-/
namespace Arm7

open BitVec UInt32
open BarrelShift (Kind)

variable {σ : Type}

/-! ## The architecture -/

def kindOf (shiftFn : UInt32) : Kind :=
  match shiftFn.toNat with
  | 0 => .lsl
  | 1 => .lsr
  | 2 => .asr
  | _ => .ror

def shiftKind (inst : UInt32) : Kind := kindOf ((inst >>> 5) &&& 3)

inductive Amount
  | immediate (n : Nat)
  | register (n : Nat)
deriving DecidableEq

def Amount.bits : Amount → Nat
  | .immediate n => n
  | .register n => n

/-- The amount that an instruction gives, if its field or register holds `shiftAmt`. -/
def amountOf (inst shiftAmt : UInt32) : Amount :=
  if bit inst 4 then .register shiftAmt.toNat else .immediate shiftAmt.toNat

/-- A shift by `n` bits of a register. -/
def shiftBy (kind : Kind) (val : UInt32) (carry : Bool) (n : Nat) : UInt32 × Bool :=
  (⟨(kind.shift val.toBitVec n carry).1⟩, (kind.shift val.toBitVec n carry).2)

/-- The barrel shifter. An immediate amount of zero stands for 32 bits in right shifts, and for a
rotation by one bit through the carry. -/
def barrelShifter (kind : Kind) (val : UInt32) (carry : Bool) (amount : Amount) : UInt32 × Bool :=
  if amount = .immediate 0 then
    match kind with
    | .lsl => (val, carry)
    | .lsr | .asr => shiftBy kind val carry 32
    | .ror => (.ofNat (carry.toNat * 2 ^ 31 + val.toNat / 2), val.toNat.testBit 0)
  else shiftBy kind val carry amount.bits

/-! ## The shifts of the host -/

section
variable (val shiftAmt : UInt32)

theorem toBitVec_shl :
    (val <<< shiftAmt).toBitVec = Kind.lsl.value val.toBitVec (shiftAmt.toNat % 32) := by
  rw [Kind.value_lsl, UInt32.toBitVec_shiftLeft, shiftLeft_eq', toNat_umod,
    toNat_toBitVec]
  rfl

theorem toBitVec_shr :
    (val >>> shiftAmt).toBitVec = Kind.lsr.value val.toBitVec (shiftAmt.toNat % 32) := by
  rw [Kind.value_lsr, UInt32.toBitVec_shiftRight, ushiftRight_eq', toNat_umod,
    toNat_toBitVec]
  rfl

theorem toBitVec_sar (small : shiftAmt.toNat < 256) :
    (val.toInt32 >>> shiftAmt.toInt32).toUInt32.toBitVec =
      Kind.asr.value val.toBitVec (shiftAmt.toNat % 32) := by
  have hmsb : shiftAmt.toBitVec.msb = false := by
    rw [msb_eq_false_iff_two_mul_lt, toNat_toBitVec]
    omega
  have hmod : (shiftAmt.toBitVec.smod 32).toNat = shiftAmt.toNat % 32 := by
    rw [smod_eq, hmsb, show (32 : BitVec 32).msb = false from rfl]
    exact toNat_umod
  rw [Kind.value_asr, Int32.toBitVec_toUInt32, Int32.toBitVec_shiftRight, sshiftRight_eq',
    toBitVec_toInt32, toBitVec_toInt32, hmod]

theorem toBitVec_ror_one (x : UInt32) :
    (((x &&& 1) <<< 31) ||| (x >>> 1)).toBitVec = x.toBitVec.rotateRight 1 := by
  apply eq_of_getLsbD_eq
  intro i hi
  rw [BarrelShift.getLsbD_rotateRight_mod _ 1 hi, UInt32.toBitVec_or, getLsbD_or,
    toBitVec_shl, toBitVec_shr, Kind.value_lsl, Kind.value_lsr, getLsbD_shiftLeft,
    getLsbD_ushiftRight]
  by_cases hlast : i = 31
  · subst hlast
    simp
  · have hmod : (i + 1) % 32 = i + 1 := Nat.mod_eq_of_lt (by omega)
    have hlow : i < 31 := by omega
    simp [hmod, hlow, add_comm]

theorem toBitVec_ror (n : Nat) : (ror val n).toBitVec = Kind.ror.value val.toBitVec n := by
  have hsemi : Function.Semiconj toBitVec
      (fun x : UInt32 => ((x &&& 1) <<< 31) ||| (x >>> 1)) (fun y => y.rotateRight 1) :=
    toBitVec_ror_one
  rw [Kind.value, ← BarrelShift.iterate_rotateRight_one, ror]
  exact hsemi.iterate_right n val

theorem mask_and_bne (lt : shiftAmt.toNat < 32) :
    ((1 <<< shiftAmt) &&& val != 0) = val.toBitVec.getLsbD shiftAmt.toNat := by
  rw [UInt32.and_comm, ← testBit_toNat, toNat_toBitVec, ← bit_eq_testBit val lt,
    UInt32.ofNat_toNat]
  rfl

theorem bit31_eq_msb : bit val 31 = val.toBitVec.msb := by
  rw [msb_eq_getLsbD_last, ← testBit_toNat, toNat_toBitVec]
  exact bit_eq_testBit val (by decide)

end

/-! ## The shifts of the source -/

section
variable {shiftFn val shiftAmt : UInt32} {carry : Bool}

theorem shiftBy_nonzero (kind : Kind) (val : UInt32) (carry : Bool) {n : Nat} (nonzero : n ≠ 0) :
    shiftBy kind val carry n = (⟨kind.value val.toBitVec n⟩, kind.out val.toBitVec n) := by
  simp only [shiftBy, Kind.shift, if_neg nonzero]

theorem ofBitVec_eq {x : UInt32} {y : BitVec 32} (h : x.toBitVec = y) : x = ⟨y⟩ := by
  rw [← h]

theorem doDecodeShift_small (pos : 0 < shiftAmt.toNat) (lt : shiftAmt.toNat < 32) :
    doDecodeShift shiftFn val shiftAmt carry =
      some (shiftBy (kindOf shiftFn) val carry shiftAmt.toNat) := by
  have hnonzero : shiftAmt ≠ 0 := by
    rintro rfl
    exact absurd pos (by decide)
  have hlt : shiftAmt < 32 := lt_iff_toNat_lt.mpr lt
  have hmod : shiftAmt.toNat % 32 = shiftAmt.toNat := Nat.mod_eq_of_lt lt
  have hlow : (shiftAmt - 1).toNat = shiftAmt.toNat - 1 := by
    rw [UInt32.toNat_sub, UInt32.toNat_one]
    omega
  have hhigh : (31 - shiftAmt + 1).toNat = 32 - shiftAmt.toNat := by
    rw [UInt32.toNat_add, UInt32.toNat_sub, UInt32.toNat_one,
      show (31 : UInt32).toNat = 31 from rfl]
    omega
  rw [shiftBy_nonzero _ _ _ (ne_of_gt pos)]
  simp only [doDecodeShift, if_pos hlt, if_neg hnonzero]
  split
  case h_1 h =>
    simp only [kindOf, h]
    rw [ofBitVec_eq (toBitVec_shl val shiftAmt), hmod, mask_and_bne _ _ (by omega), hhigh,
      Kind.out_lsl, decide_eq_true (by omega), Bool.true_and]
  case h_2 h =>
    simp only [kindOf, h]
    rw [ofBitVec_eq (toBitVec_shr val shiftAmt), hmod, mask_and_bne _ _ (by omega), hlow,
      Kind.out_lsr]
  case h_3 h =>
    simp only [kindOf, h]
    rw [ofBitVec_eq (toBitVec_sar val shiftAmt (by omega)), hmod, mask_and_bne _ _ (by omega), hlow,
      Kind.out_asr _ _ (by decide), if_pos (by omega)]
  case h_4 h1 h2 h3 =>
    have hkind : kindOf shiftFn = .ror := by
      simp only [kindOf]
    rw [hkind, bit31_eq_msb, ofBitVec_eq (toBitVec_ror val shiftAmt.toNat)]
    rfl

theorem some_word_eq_iff {kind : Kind} {a b : BitVec 32} {p q : Bool} (ne : kind ≠ .ror)
    (carries : a = b → p = q) :
    some ((⟨a⟩ : UInt32), p) = some (⟨b⟩, q) ↔ kind = .ror ∨ a = b := by
  constructor
  · intro h
    cases h
    exact .inr rfl
  · rintro (h | h)
    · exact absurd h ne
    · rw [carries h, h]

theorem doDecodeShift_large (le : 32 ≤ shiftAmt.toNat) (lt : shiftAmt.toNat < 256) :
    doDecodeShift shiftFn val shiftAmt carry =
        some (shiftBy (kindOf shiftFn) val carry shiftAmt.toNat) ↔
      kindOf shiftFn = .ror ∨
        (kindOf shiftFn).value val.toBitVec (shiftAmt.toNat % 32) =
          (kindOf shiftFn).value val.toBitVec shiftAmt.toNat := by
  have hnonzero : shiftAmt ≠ 0 := by
    rintro rfl
    exact absurd le (by decide)
  have hlt : ¬shiftAmt < 32 := fun h => by
    have := lt_iff_toNat_lt.mp h
    exact absurd le (not_le.mpr this)
  rw [shiftBy_nonzero _ _ _ (ne_of_gt (lt_of_lt_of_le (by decide) le))]
  simp only [doDecodeShift, if_neg hlt, if_neg hnonzero]
  split
  case h_1 h =>
    simp only [kindOf, h]
    rw [ofBitVec_eq (toBitVec_shl val shiftAmt)]
    exact some_word_eq_iff (by decide) fun same => (Kind.out_lsl_of_mod le same).symm
  case h_2 h =>
    simp only [kindOf, h]
    rw [ofBitVec_eq (toBitVec_shr val shiftAmt), bit31_eq_msb]
    exact some_word_eq_iff (by decide) fun same => (Kind.out_lsr_of_mod (by decide) le same).symm
  case h_3 h =>
    simp only [kindOf, h]
    rw [ofBitVec_eq (toBitVec_sar val shiftAmt lt), bit31_eq_msb]
    exact some_word_eq_iff (by decide) fun _ => (Kind.out_asr_of_le (by decide) le).symm
  case h_4 h1 h2 h3 =>
    have hkind : kindOf shiftFn = .ror := by
      simp only [kindOf]
    rw [hkind, bit31_eq_msb, ofBitVec_eq (toBitVec_ror val shiftAmt.toNat)]
    exact ⟨fun _ => .inl rfl, fun _ => rfl⟩

def AsShifter (kind : Kind) (val : UInt32) (carry : Bool) (amount : Amount) : Prop :=
  amount.bits = 0 ∧
      (kind = .lsl ∨ kind = .lsr ∧ (amount = .register 0 ∨ val = 0 ∧ carry = false)) ∨
    0 < amount.bits ∧ amount.bits < 32 ∨
    32 ≤ amount.bits ∧
      (kind = .ror ∨
        kind.value val.toBitVec (amount.bits % 32) = kind.value val.toBitVec amount.bits)

theorem barrelShifter_pos (kind : Kind) (val : UInt32) (carry : Bool) {amount : Amount}
    (pos : 0 < amount.bits) :
    barrelShifter kind val carry amount = shiftBy kind val carry amount.bits := by
  have hne : amount ≠ .immediate 0 := by
    rintro rfl
    exact absurd pos (by decide)
  simp only [barrelShifter, if_neg hne]

theorem doDecodeShift_zero :
    doDecodeShift shiftFn val 0 carry =
      if kindOf shiftFn = .lsl ∨ kindOf shiftFn = .lsr then some (val, carry) else none := by
  simp only [doDecodeShift]
  split
  case h_1 h | h_2 h | h_3 h => simp [kindOf, h]
  case h_4 h1 h2 h3 =>
    have hkind : kindOf shiftFn = .ror := by
      simp only [kindOf]
    simp [hkind]

end

theorem shiftBy_lsr_32 (val : UInt32) (carry : Bool) :
    shiftBy .lsr val carry 32 = (0, val.toBitVec.msb) := by
  rw [shiftBy_nonzero _ _ _ (by decide), Kind.value_lsr, ushiftRight_eq_zero (le_refl _),
    Kind.out_lsr, msb_eq_getLsbD_last]
  rfl

theorem doDecodeShift_zero_iff {shiftFn val : UInt32} {carry : Bool} {amount : Amount}
    (zero : amount.bits = 0) :
    doDecodeShift shiftFn val 0 carry = some (barrelShifter (kindOf shiftFn) val carry amount) ↔
      kindOf shiftFn = .lsl ∨
        kindOf shiftFn = .lsr ∧ (amount = .register 0 ∨ val = 0 ∧ carry = false) := by
  have hreg (kind : Kind) : barrelShifter kind val carry (.register 0) = (val, carry) := rfl
  rw [doDecodeShift_zero]
  cases amount with
  | register n =>
    cases zero
    cases kindOf shiftFn <;> simp [hreg]
  | immediate n =>
    cases zero
    cases kindOf shiftFn with
    | lsl => simp [barrelShifter]
    | lsr =>
      have hout : barrelShifter .lsr val carry (.immediate 0) = (0, val.toBitVec.msb) :=
        shiftBy_lsr_32 val carry
      -- The amount stands for 32 bits: the shifter returns zero and the highest bit.
      simp only [hout, or_true, if_true, Option.some.injEq, Prod.mk.injEq, reduceCtorEq, false_or,
        true_and]
      constructor
      · rintro ⟨rfl, rfl⟩
        exact ⟨rfl, rfl⟩
      · rintro ⟨rfl, rfl⟩
        exact ⟨rfl, rfl⟩
    | asr | ror => simp

theorem shiftAmount_lt {inst shiftAmt : UInt32} {c : Core σ}
    (h : shiftAmount inst c = some shiftAmt) : shiftAmt.toNat < 256 := by
  unfold shiftAmount at h
  split at h
  · split at h
    · cases h
    split at h
    · cases h
    · obtain ⟨v, -, rfl⟩ := Option.map_eq_some_iff.mp h
      rw [WordMask.toNat_and_low v (i := 8) rfl]
      exact Nat.mod_lt _ (by decide)
  · cases h
    rw [WordMask.toNat_and_low _ (i := 5) rfl]
    exact lt_trans (Nat.mod_lt _ (by decide)) (by decide)

theorem bits_amountOf (inst shiftAmt : UInt32) :
    (amountOf inst shiftAmt).bits = shiftAmt.toNat := by
  unfold amountOf
  split <;> rfl

/-- The shift operand is that of the barrel shifter for amounts from 1 to 31 and for rotations by
more. Of the other amounts only a left shift by zero bits and a right shift by zero bits in a
register are right for all values: an immediate right shift by zero leaves the value, the other
immediate shifts by zero are errors, and the host takes larger amounts modulo 32. -/
theorem decodeShift_eq_iff (inst shiftAmt val : UInt32) (carry : Bool) (c : Core σ)
    (amount : shiftAmount inst c = some shiftAmt) (src : c.get (regField inst 0) = some val) :
    decodeShift inst carry c =
        some (barrelShifter (shiftKind inst) val carry (amountOf inst shiftAmt)) ↔
      AsShifter (shiftKind inst) val carry (amountOf inst shiftAmt) := by
  have hlt := shiftAmount_lt amount
  have hbits := bits_amountOf inst shiftAmt
  have hcode : decodeShift inst carry c =
      doDecodeShift ((inst >>> 5) &&& 3) val shiftAmt carry := by
    rw [decodeShift, amount]
    exact congrArg (Option.bind · _) src
  rw [hcode, shiftKind, AsShifter, hbits]
  rcases Nat.eq_zero_or_pos shiftAmt.toNat with hzero | hpos
  · obtain rfl : shiftAmt = 0 := UInt32.toNat_inj.mp hzero
    rw [doDecodeShift_zero_iff (hbits.trans hzero)]
    simp
  rw [barrelShifter_pos _ _ _ (hbits ▸ hpos), hbits]
  by_cases hsmall : shiftAmt.toNat < 32
  · exact iff_of_true (doDecodeShift_small hpos hsmall) (.inr (.inl ⟨hpos, hsmall⟩))
  · rw [doDecodeShift_large (Nat.le_of_not_lt hsmall) hlt]
    simp [ne_of_gt hpos, hsmall, Nat.le_of_not_lt hsmall]

/-- A rotation of R1 by four bits. -/
theorem decodeShift_eq_iff_rotation :
    let c := (bootCpu (fun _ => 0x1f) []).toCore
    shiftAmount 0xe1a00261 c = some 4 ∧
      decodeShift 0xe1a00261 false c = some (barrelShifter .ror 0x1f false (.immediate 4)) :=
  ⟨rfl, (decodeShift_eq_iff 0xe1a00261 4 0x1f false _ rfl rfl).mpr (.inr (.inl (by decide)))⟩

/-- R1 holds 1 and R2 holds 32. LSR by 32 bits, given as an immediate amount of zero, leaves the
value; ASR by 32 bits is an error; LSL by the 32 bits of R2 leaves the value. -/
theorem decodeShift_differs :
    let c := (bootCpu (fun i => if i = 1 then 1 else 32) []).toCore
    decodeShift 0xe1a00021 true c = some (1, true) ∧
      barrelShifter .lsr 1 true (.immediate 0) = (0, false) ∧
      decodeShift 0xe1a00041 true c = none ∧
      barrelShifter .asr 1 true (.immediate 0) = (0, false) ∧
      decodeShift 0xe1a00211 true c = some (1, false) ∧
      barrelShifter .lsl 1 true (.register 32) = (0, true) := by
  decide +kernel

end Arm7
