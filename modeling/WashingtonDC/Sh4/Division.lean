import WashingtonDC.Sh4.WordArith

/-!
# Dividing with DIV1

The sequence that the manual of the SH4 gives for an unsigned division of 64 by 32 bits: DIV0U, then
for each bit of the quotient ROTCL and DIV1, and a last ROTCL. Between two instructions of it the
processor is a non-restoring divider: Q is the sign of the partial remainder, T the last bit of the
quotient. The three registers are different ones.
-/
namespace Sh4

open NonrestoringDivision Cpu WordMask Option

variable {ω : Type}

def rotclWord (n : Fin 16) : UInt16 := (0x4024 : UInt16) ||| UInt16.ofNat n.val <<< 8
def div1Word (m n : Fin 16) : UInt16 :=
  (0x3004 : UInt16) ||| UInt16.ofNat n.val <<< 8 ||| UInt16.ofNat m.val <<< 4
abbrev div0uWord : UInt16 := 0x0019

def divisionWords (h l d : Fin 16) : List UInt16 :=
  div0uWord :: ((List.replicate 32 [rotclWord l, div1Word d h]).flatten ++ [rotclWord l])

/-! ## The words -/

theorem rotclWord_decoded (n : Fin 16) :
    (sh4DecodeInst (rotclWord n)).func = .fallback .unaryRotclGen := by
  have hfits : 0xf0ff &&& rotclWord n = 0x4024 := by
    revert n
    decide
  rw [sh4DecodeInst_of_pattern ⟨.fallback .unaryRotclGen, .fallback, false, .ex, 1, 0xf0ff, 0x4024⟩
    hfits rfl]

theorem div1Word_decoded (m n : Fin 16) :
    (sh4DecodeInst (div1Word m n)).func = .fallback .binaryDiv1GenGen := by
  have hfits : 0xf00f &&& div1Word m n = 0x3004 := by
    revert m n
    decide
  rw [sh4DecodeInst_of_pattern
    ⟨.fallback .binaryDiv1GenGen, .fallback, false, .ex, 1, 0xf00f, 0x3004⟩ hfits rfl]

theorem rotclWord_rn (n : Fin 16) : rn (rotclWord n) = n := by
  revert n
  decide

theorem div1Word_regs (m n : Fin 16) :
    rn (div1Word m n) = n ∧ rm (div1Word m n) = m := by
  revert m n
  decide

/-! ## The divider -/

def signed33 (q : Bool) (x : UInt32) : Int := x.toNat - if q then 2 ^ 32 else 0

theorem upperBit_ne_zero (x : UInt32) : (x &&& 0x80000000 != 0) = decide (2 ^ 31 ≤ x.toNat) := by
  rw [and_upperBit]
  by_cases hle : 2 ^ 31 ≤ x.toNat
  · rw [if_pos hle, decide_eq_true hle]
    rfl
  · rw [if_neg hle, decide_eq_false hle]
    rfl

theorem sub_gt_self (y d : UInt32) : decide (y - d > y) = decide (y.toNat < d.toNat) := by
  have hd := d.toNat_lt
  rw [decide_eq_decide, gt_iff_lt, UInt32.lt_iff_toNat_lt, UInt32.toNat_sub]
  omega

theorem add_lt_self (y d : UInt32) :
    decide (y + d < y) = decide (2 ^ 32 ≤ y.toNat + d.toNat) := by
  have hd := d.toNat_lt
  rw [decide_eq_decide, UInt32.lt_iff_toNat_lt, UInt32.toNat_add]
  omega

theorem signed33_div1Step {x d : UInt32} {q : Bool} (sr : UInt32)
    (lower : -(d.toNat : Int) ≤ signed33 q x) (upper : signed33 q x < d.toNat) :
    let res := div1Step q false (x &&& 0x80000000 != 0) ((x <<< 1) ||| (sr &&& srTMask)) d
    signed33 res.2 res.1 = next d.toNat (signed33 q x) (sr &&& srTMask != 0) := by
  have hx := x.toNat_lt
  have hd := d.toNat_lt
  have hshift := toNat_shiftIn x sr
  have ht : (sr &&& srTMask).toNat = (sr &&& srTMask != 0).toNat := by
    obtain hzero | hone := and_bit sr (show srTMask.toNat = 2 ^ 0 from rfl)
    · rw [hzero]
      rfl
    · rw [hone]
      rfl
  rw [ht] at hshift
  generalize (x <<< 1) ||| (sr &&& srTMask) = y at hshift ⊢
  generalize (sr &&& srTMask != 0) = t at hshift ⊢
  have htle := Bool.toNat_le t
  have hlow : x.toNat < 2 ^ 31 → y.toNat = 2 * x.toNat + t.toNat := by
    intro hlt
    omega
  have hhigh : 2 ^ 31 ≤ x.toNat → y.toNat + 2 ^ 32 = 2 * x.toNat + t.toNat := by
    intro hle
    omega
  rw [upperBit_ne_zero]
  clear hshift ht
  cases q with
  | false =>
    have hsub : (y - d).toNat = (2 ^ 32 - d.toNat + y.toNat) % 2 ^ 32 := UInt32.toNat_sub _ _
    have hrem : signed33 false x = x.toNat := Int.sub_zero _
    rw [hrem] at lower upper ⊢
    rw [next, if_neg (by omega)]
    show signed33 (if decide (2 ^ 31 ≤ x.toNat) then !decide (y - d > y) else decide (y - d > y))
      (y - d) = _
    rw [sub_gt_self]
    cases hupper : decide (2 ^ 31 ≤ x.toNat) <;> cases hlt : decide (y.toNat < d.toNat) <;>
      simp only [decide_eq_true_eq, decide_eq_false_iff_not] at hupper hlt <;>
      simp only [signed33] <;> norm_num <;> omega
  | true =>
    have hrem : signed33 true x = x.toNat - 2 ^ 32 := rfl
    rw [hrem] at lower upper ⊢
    rw [next, if_pos (by omega)]
    show signed33 (if decide (2 ^ 31 ≤ x.toNat) then !decide (y + d < y) else decide (y + d < y))
      (y + d) = _
    rw [add_lt_self]
    cases hupper : decide (2 ^ 31 ≤ x.toNat) <;> cases hlt : decide (2 ^ 32 ≤ y.toNat + d.toNat) <;>
      simp only [decide_eq_true_eq, decide_eq_false_iff_not] at hupper hlt <;>
      simp only [signed33] <;> norm_num <;> omega
theorem signed33_nonneg (q : Bool) (x : UInt32) : decide (0 ≤ signed33 q x) = !q := by
  have hx := x.toNat_lt
  cases q with
  | false => simp [signed33]
  | true =>
    simp [signed33]
    omega

/-- The divider that the processor is between two instructions. -/
structure Divides (h l d : Fin 16) (divisor : UInt32) (c : Cpu ω) (s : Divider) : Prop where
  slot : c.delayedBranch = false
  m : c.sr &&& srMMask = 0
  divisor : c.reg d = divisor
  rem : s.rem = signed33 (c.sr &&& srQMask != 0) (c.reg h)
  low : s.low = (c.reg l).toNat
  bit : s.bit = c.tFlag

section
variable {env : Env ω} {h l d : Fin 16} {divisor : UInt32} {c : Cpu ω} {s : Divider}

section
variable (divides : Divides h l d divisor c s)
include divides

theorem Divides.advance (inst : UInt16) : Divides h l d divisor (c.advance inst) s := by
  have hgen : ∀ j : Fin 16, (c.advance inst).reg j = c.reg j := by
    intro j
    exact advance_reg c inst (by simp only [regPc]; omega)
  have hsr : (c.advance inst).sr = c.sr := advance_reg c inst (by decide)
  refine ⟨(advance_delayedBranch c inst).trans divides.slot, ?_, ?_, ?_, ?_, ?_⟩
  · rw [hsr, divides.m]
  · rw [hgen d, divides.divisor]
  · rw [hsr, hgen h, divides.rem]
  · rw [hgen l, divides.low]
  · rw [divides.bit, tFlag, tFlag, hsr]

theorem Divides.rotcl (executes : env.Executes calculations) (hl : h ≠ l) (dl : d ≠ l) :
    ∃ c', c.doExecInst env (rotclWord l) = some c' ∧
      Divides h l d divisor c' ⟨s.rem, s.rotated 32, decide (2 ^ 31 ≤ s.low)⟩ := by
  refine ⟨_, doExecInst_executes executes rfl (rotclWord_decoded l) divides.slot, ?_⟩
  apply Divides.advance
  have hassign : c.instUnaryRotclGen (rotclWord l) =
      c.assign l ((c.reg l <<< 1) ||| (c.sr &&& srTMask))
        ((c.sr &&& ~~~srTMask) ||| if 2 ^ 31 ≤ (c.reg l).toNat then srTMask else 0) := by
    rw [← shift_upperBit, instUnaryRotclGen, rotclWord_rn]
    rfl
  have hsr : ∀ k : UInt32, srTMask &&& k = 0 →
      (c.instUnaryRotclGen (rotclWord l)).sr &&& k = c.sr &&& k := by
    intro k hk
    rw [hassign, assign_sr c l.isLt]
    apply replace_and_of_disjoint _ _ hk
    split
    · exact hk
    · exact UInt32.zero_and
  have hgen : ∀ j : Fin 16, j ≠ l → (c.instUnaryRotclGen (rotclWord l)).reg j = c.reg j := by
    intro j hj
    rw [hassign, assign_gen c j.isLt, if_neg (Fin.val_ne_of_ne hj)]
  refine ⟨divides.slot, ?_, ?_, ?_, ?_, ?_⟩
  · rw [hsr _ (by decide), divides.m]
  · rw [hgen d dl, divides.divisor]
  · rw [hsr _ (by decide), hgen h hl, divides.rem]
  · rw [hassign, assign_gen c l.isLt, if_pos rfl, toNat_shiftIn, ← toNat_tFlag,
      ← divides.low, ← divides.bit]
    rfl
  · symm
    apply tFlag_eq_of_and
    rw [hassign, assign_sr c l.isLt, replace_and_of_subset _ _ (by decide), divides.low]
    by_cases hle : 2 ^ 31 ≤ (c.reg l).toNat
    · rw [if_pos hle, if_pos (decide_eq_true hle)]
      rfl
    · rw [if_neg hle, if_neg (by simpa using hle)]
      rfl

theorem Divides.div1 (executes : env.Executes calculations) (hl : h ≠ l) (hd : h ≠ d)
    (lower : -(divisor.toNat : Int) ≤ s.rem) (upper : s.rem < divisor.toNat) :
    ∃ c', c.doExecInst env (div1Word d h) = some c' ∧
      Divides h l d divisor c' ⟨next divisor.toNat s.rem s.bit, s.low,
        decide (0 ≤ next divisor.toNat s.rem s.bit)⟩ := by
  refine ⟨_, doExecInst_executes executes rfl (div1Word_decoded d h) divides.slot, ?_⟩
  apply Divides.advance
  obtain ⟨hrn, hrm⟩ := div1Word_regs d h
  have hm : (c.sr &&& srMMask != 0) = false := by
    rw [divides.m]
    rfl
  obtain ⟨x, q, hres⟩ : ∃ x q, div1Step (c.sr &&& srQMask != 0) false
    (c.reg h &&& 0x80000000 != 0) ((c.reg h <<< 1) ||| (c.sr &&& srTMask)) divisor = (x, q) := ⟨_, _, rfl⟩
  have hassign : c.instBinaryDiv1GenGen (div1Word d h) =
      c.assign h x ((c.sr &&& ~~~(srQMask ||| srTMask)) |||
        ((if q == false then srTMask else 0) ||| if q then srQMask else 0)) := by
    simp only [instBinaryDiv1GenGen, hrn, hrm, divides.divisor, hm, hres]
    rfl
  have hsr : ∀ k : UInt32, (srQMask ||| srTMask) &&& k = 0 → srQMask &&& k = 0 → srTMask &&& k = 0 →
      (c.instBinaryDiv1GenGen (div1Word d h)).sr &&& k = c.sr &&& k := by
    intro k hboth hq ht
    rw [hassign, assign_sr c h.isLt]
    apply replace_and_of_disjoint _ _ hboth
    cases q
    · exact (congrArg (· &&& k) UInt32.or_zero).trans ht
    · exact (congrArg (· &&& k) UInt32.zero_or).trans hq
  have hgen : ∀ j : Fin 16, j ≠ h → (c.instBinaryDiv1GenGen (div1Word d h)).reg j = c.reg j := by
    intro j hj
    rw [hassign, assign_gen c j.isLt, if_neg (Fin.val_ne_of_ne hj)]
  have hnext : next divisor.toNat s.rem s.bit = signed33 q x := by
    have hstep := signed33_div1Step c.sr (divides.rem ▸ lower) (divides.rem ▸ upper)
    rw [hres] at hstep
    rw [hstep, ← divides.rem, divides.bit]
    rfl
  rw [hnext, signed33_nonneg]
  refine ⟨divides.slot, ?_, ?_, ?_, ?_, ?_⟩
  · rw [hsr _ (by decide) (by decide) (by decide), divides.m]
  · rw [hgen d hd.symm, divides.divisor]
  · show signed33 q x = _
    rw [hassign, assign_sr c h.isLt, replace_and_of_subset _ _ (by decide),
      assign_gen c h.isLt, if_pos rfl]
    cases q <;> rfl
  · rw [hgen l hl.symm, divides.low]
  · symm
    apply tFlag_eq_of_and
    rw [hassign, assign_sr c h.isLt, replace_and_of_subset _ _ (by decide)]
    cases q <;> rfl

end

/-! ## The program -/

theorem Divides.div0u (executes : env.Executes calculations) (slot : c.delayedBranch = false) :
    ∃ c', c.doExecInst env div0uWord = some c' ∧
      Divides h l d (c.reg d) c' ⟨(c.reg h).toNat, (c.reg l).toNat, false⟩ := by
  refine ⟨_, doExecInst_executes executes (f := .noargDiv0u) rfl (by decide +kernel) slot, ?_⟩
  apply Divides.advance
  have hgen : ∀ j : Fin 16, c.instNoargDiv0u.reg j = c.reg j := by
    intro j
    rw [instNoargDiv0u, write_reg, if_neg (by simp only [regSr]; omega)]
  have hsr : ∀ k : UInt32, k &&& (srMMask ||| srQMask ||| srTMask) = k →
      c.instNoargDiv0u.sr &&& k = 0 := by
    intro k hk
    rw [Cpu.sr, instNoargDiv0u, write_reg, if_pos rfl, ← hk, UInt32.and_comm k,
      ← UInt32.and_assoc, clear_and_self, UInt32.zero_and]
  refine ⟨slot, hsr _ (by decide), hgen d, ?_, ?_, ?_⟩
  · rw [hsr _ (by decide), hgen h]
    exact (Int.sub_zero _).symm
  · rw [hgen l]
  · symm
    exact tFlag_eq_of_and (hsr _ (by decide))

theorem Divides.step (divides : Divides h l d divisor c s) (executes : env.Executes calculations)
    (hl : h ≠ l) (dl : d ≠ l) (hd : h ≠ d) (lower : -(divisor.toNat : Int) ≤ s.rem)
    (upper : s.rem < divisor.toNat) :
    ∃ c', c.runWords env [rotclWord l, div1Word d h] = some c' ∧
      Divides h l d divisor c' (s.step 32 divisor.toNat) := by
  obtain ⟨c₁, hrotcl, divides₁⟩ := divides.rotcl executes hl dl
  obtain ⟨c₂, hdiv1, divides₂⟩ := divides₁.div1 executes hl hd lower upper
  refine ⟨c₂, ?_, divides₂⟩
  rw [runWords_cons, hrotcl, bind_some, runWords_cons, hdiv1]
  rfl

theorem Divides.loop {dividend : Nat} (executes : env.Executes calculations) (hl : h ≠ l) (dl : d ≠ l)
    (hd : h ≠ d) (divides : Divides h l d divisor c s) (after : After 32 divisor.toNat dividend k s)
    (n : Nat) (le : k + n ≤ 32) :
    ∃ c', c.runWords env (List.replicate n [rotclWord l, div1Word d h]).flatten = some c' ∧
      Divides h l d divisor c' ((Divider.step 32 divisor.toNat)^[n] s) := by
  induction n generalizing c s k with
  | zero => exact ⟨c, rfl, divides⟩
  | succ n ih =>
    obtain ⟨c₁, hstep, divides₁⟩ := divides.step executes hl dl hd after.lower after.upper
    obtain ⟨c₂, hloop, divides₂⟩ := ih divides₁ (after.step (by omega)) (by omega)
    refine ⟨c₂, ?_, divides₂⟩
    rw [List.replicate_succ, List.flatten_cons, runWords_append, hstep, bind_some, hloop]

end

/-- The sequence leaves the quotient in Rl. -/
theorem divisionWords_quotient {env : Env ω} (executes : env.Executes calculations) {c : Cpu ω}
    (slot : c.delayedBranch = false) {h l d : Fin 16} (hl : h ≠ l) (dl : d ≠ l)
    (lt : c.reg h < c.reg d) :
    ∃ c', c.runWords env (divisionWords h l d) = some c' ∧
      (c'.reg l).toNat =
        ((c.reg h).toNat * 2 ^ 32 + (c.reg l).toNat) / (c.reg d).toNat := by
  have hd : h ≠ d := by
    rintro rfl
    exact absurd lt (by simp)
  have hlt : (c.reg h).toNat < (c.reg d).toNat := UInt32.lt_iff_toNat_lt.mp lt
  obtain ⟨c₁, hdiv0u, divides₁⟩ := Divides.div0u (h := h) (l := l) (d := d) executes slot
  have hafter := after_zero hlt (c.reg l).toNat_lt
  obtain ⟨c₂, hloop, divides₂⟩ := divides₁.loop executes hl dl hd hafter 32 le_rfl
  obtain ⟨c₃, hrotcl, divides₃⟩ := divides₂.rotcl executes hl dl
  refine ⟨c₃, ?_, ?_⟩
  · rw [divisionWords, runWords_cons, hdiv0u, bind_some, runWords_append, hloop,
      bind_some, runWords_cons, hrotcl]
    rfl
  · rw [← divides₃.low]
    exact divides hlt (c.reg l).toNat_lt

theorem divisionWords_quotient_small :
    ∃ c' : Cpu Unit, (resetCpu fun i => if i = 2 then 7 else 3).runWords (functionEnv calculations)
        (divisionWords 0 1 2) = some c' ∧
      (c'.reg 1).toNat = (3 * 2 ^ 32 + 3) / 7 :=
  divisionWords_quotient functionEnv_calculations rfl (by decide) (by decide) (by decide)

end Sh4
