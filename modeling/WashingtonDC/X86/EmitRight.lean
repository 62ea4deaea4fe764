import WashingtonDC.X86.EmitDecode

/-!
# Which emitters are right

An emitter is right if it puts the one instruction that it stands for, or raises an error and puts
nothing. This is decided for all emitters, registers, immediates and displacements. The wrong ones:
an immediate or a displacement that is longer than its field; from 128 on the immediate of
`x86asm_addq_imm8_reg`, whose sign is extended; a base of `RBP` or `R13` or an index of `RSP` in an
address with an index; a byte register with number 4 to 7 without a REX prefix;
`x86asm_mov_imm32_indreg32`, which leaves out its immediate; `x86asm_call`, whose displacement does
not count its own length, and `x86asm_call_ptr`, which puts two instructions. A jump to a label that
is too far away raises an error after it was put.
-/
namespace X86

open Body Instr Operand Emitter Nat Option

/-! ## Immediates and displacements -/

def FitsByte (d : Int) : Prop := -0x80 ≤ d ∧ d ≤ 0x7f

instance (d : Int) : Decidable (FitsByte d) := inferInstanceAs (Decidable (_ ∧ _))

/-- A byte register is encoded: below `RSP`, or with a REX prefix, which is there for a register
from `R8` on. -/
def ByteReg (r other : RegNo) : Prop := r.val < 4 ∨ 8 ≤ r.val ∨ 8 ≤ other.val

instance (r other : RegNo) : Decidable (ByteReg r other) := inferInstanceAs (Decidable (_ ∨ _))

/-- The scale is an error, or the base is not `RBP` or `R13` and the index is not `RSP`. -/
def SibFits (base : RegNo) (scale : UInt32) (index : RegNo) : Prop :=
  scaleLog2 scale = none ∨ (base.val ≠ 5 ∧ base.val ≠ 13 ∧ index.val ≠ 4)

instance (base : RegNo) (scale : UInt32) (index : RegNo) : Decidable (SibFits base scale index) :=
  inferInstanceAs (Decidable (_ ∨ _))

theorem signed_byte {v : Nat} (d : Int) (hv : v < 256) (hd : (v : Int) = d % 256) :
    signed 1 v = d ↔ FitsByte d := by
  have hpow : (256 : Int) ^ 1 = 256 := rfl
  simp only [signed, FitsByte, Nat.pow_one, hpow]
  split <;> omega

theorem signed_unsigned_one (d : Int32) :
    signed 1 (unsigned 1 d % 256) = d.toInt ↔ FitsByte d.toInt := by
  have hlt : unsigned 1 d < 256 := by
    simp only [unsigned, Int.pow_succ, Int.pow_zero, Int.one_mul]
    omega
  have hd : (unsigned 1 d : Int) = d.toInt % 256 := by
    simp only [unsigned, Int.pow_succ, Int.pow_zero, Int.one_mul]
    omega
  rw [mod_eq_of_lt hlt]
  exact signed_byte d.toInt hlt hd

theorem signed_unsigned_four (d : Int32) :
    signed 4 (unsigned 4 d % 256 ^ 4) = d.toInt := by
  have hpow : (256 : Int) ^ 4 = 4294967296 := rfl
  have hpow' : (256 : Nat) ^ 4 = 4294967296 := rfl
  have hlow := d.minValue_le_toInt
  have hhigh := d.toInt_lt
  have hmin : Int32.minValue.toInt = -2147483648 := rfl
  simp only [unsigned, signed, hpow, hpow']
  split <;> omega

theorem regOperand_byte {r other : RegNo} {rex : Rex}
    (hrex : rex.present = (decide (8 ≤ r.val) || decide (8 ≤ other.val))) :
    regOperand rex .byte r = .reg .byte r ↔ ByteReg r other := by
  simp only [regOperand, ByteReg, hrex, true_and, Bool.or_eq_false_iff, decide_eq_false_iff_not]
  split
  · next h =>
    constructor
    · intro heq
      cases heq
    · omega
  · next h =>
    constructor
    · omega
    · exact fun _ => rfl

/-! ## The condition -/

def Emitter.Encodable (outp : UInt64) : Emitter → Prop
  | movImm16Reg imm16 _ => imm16.toNat < 2 ^ 16
  | salImm8Reg64 imm8 _ | shllImm8Reg32 imm8 _ | sarlImm8Reg32 imm8 _
  | shrlImm8Reg32 imm8 _ => imm8.toNat < 2 ^ 8
  | cmplImm8Reg32 imm8 _ => imm8.toNat < 2 ^ 8 ∨ 0xffffff80 ≤ imm8.toNat
  | addqImm8Reg imm8 _ => imm8.toNat < 2 ^ 7
  -- It aborts when the function is not behind the code.
  | call dst => 0x7fffffff < (dst - outp).toNat
  | callPtr _ | movImm32Indreg32 _ _ => False
  | movqSibReg base scale index _ | movlSibReg base scale index _
  | movwSibReg base scale index _ | movqRegSib _ base scale index
  | movlRegSib _ base scale index => SibFits base scale index
  | movbDisp8RegReg disp8 src dst => ByteReg dst src ∧ FitsByte disp8.toInt
  | movbRegDisp8Reg src disp8 dst => ByteReg src dst ∧ FitsByte disp8.toInt
  | movlDisp8RegReg disp8 _ _ | movqDisp8RegReg disp8 _ _ | jumpDisp8 _ disp8 =>
    FitsByte disp8.toInt
  | jumpLbl8 _ lbl =>
    match lbl.ptr with
    | some ptr => FitsByte (distance (outp + 2) ptr)
    | none => lbl.nJumpPoints < maxLabelJumps
  | setnzlReg32 r => ByteReg r r
  | _ => True

def Body.Right (body : Body) (instr : Option Instr) : Prop :=
  if body.raises then body.pieces.flatten = []
  else ∃ i ∈ instr, decode body.pieces.flatten = some (i, [])

variable {pieces : List (List UInt8)}

theorem Body.right_of {instr intended : Instr} (h : Decodes pieces instr) :
    (of pieces).Right (some intended) ↔ instr = intended := by
  simp only [Body.Right, of, Bool.false_eq_true, if_false, mem_def,
    Option.some.injEq, exists_eq_left']
  rw [h]
  simp

theorem Body.right_always {instr : Instr} (h : Decodes pieces instr) :
    (of pieces).Right (some instr) ↔ True :=
  (right_of h).trans (iff_true_intro rfl)

theorem Body.not_right {instr : Option Instr} (h : decode pieces.flatten = none) :
    (of pieces).Right instr ↔ False := by
  simp [Body.Right, of, h]

variable {size : Size} {r : RegNo}

theorem Body.right_immReg {op : Op} {v intended r : Nat}
    (h : Decodes pieces ⟨op, [.reg size r, .imm v]⟩) :
    (of pieces).Right (immReg op size intended r) ↔ v = intended := by
  refine (right_of h).trans ?_
  simp only [Instr.mk.injEq, true_and, List.cons.injEq, imm.injEq, and_true]

theorem Body.right_imm8 {op : Op} {v : Nat} (h : Decodes pieces ⟨op, [.reg size r, .imm (v % 256)]⟩) :
    (of pieces).Right (immReg op size v r) ↔ v < 2 ^ 8 :=
  (right_immReg h).trans (mod_eq_iff_lt (by decide))

theorem Body.right_imm32 {op : Op} {v intended r : Nat}
    (h : Decodes pieces ⟨op, [.reg size r, .imm v]⟩) (hv : v = intended) :
    (of pieces).Right (immReg op size intended r) ↔ True :=
  (right_immReg h).trans (iff_true_intro hv)

/-- A field as long as its operand has no sign to extend. -/
theorem extended_bytes {v : Nat} (hv : v < 256 ^ size.bytes) : extended size.bytes size v = v := by
  have hcast : ((256 : Int) ^ size.bytes) = ((256 ^ size.bytes : Nat) : Int) := by push_cast; rfl
  simp only [extended, signed, hcast]
  split
  · rw [Int.emod_eq_of_lt (by omega) (by omega), Int.toNat_natCast]
  · rw [Int.sub_emod_right, Int.emod_eq_of_lt (by omega) (by omega), Int.toNat_natCast]

theorem extended_long (v : UInt32) : extended 4 .long v.toNat = v.toNat :=
  @extended_bytes .long _ v.toNat_lt

theorem extended_quad_eq_iff (v : UInt8) :
    extended 1 .quad (v.toNat % 256) = v.toNat ↔ v.toNat < 2 ^ 7 := by
  have hv := v.toNat_lt
  simp only [extended, signed, Size.bytes]
  split <;> omega

theorem extended_eq_simm8_iff (v : UInt32) :
    extended 1 .long (v.toNat % 256) = simm8 v ↔ v.toNat < 2 ^ 8 ∨ 0xffffff80 ≤ v.toNat := by
  have hv := v.toNat_lt
  by_cases hbyte : v.toNat < 2 ^ 8
  · rw [simm8, if_pos hbyte, show v.toNat % 256 = v.toNat from mod_eq_of_lt hbyte]
    exact iff_of_true rfl (.inl hbyte)
  · simp only [simm8, hbyte, if_false, false_or, extended, signed, Size.bytes]
    split <;> omega

theorem Body.right_disp8 {base : RegNo} {d : Int32}
    (h : Decodes pieces ⟨.mov, [.reg size r, .mem size (baseDisp base (signed 1 (unsigned 1 d % 256)))]⟩) :
    (of pieces).Right (load size (baseDisp base d.toInt) r) ↔ FitsByte d.toInt := by
  refine (right_of h).trans ?_
  simp only [Instr.mk.injEq, true_and, List.cons.injEq, mem.injEq, baseDisp,
    Address.based.injEq, and_true, signed_unsigned_one]

section
variable {narrow w : Bool} {opcode log2 : Nat} {reg base index : RegNo} {scale : UInt32}

theorem lowBits_eq_five {r : Nat} : lowBits r = 5 ↔ r = 5 ∨ r = 13 := by
  simp only [lowBits]
  split <;> omega

variable {arrange : Operand → Operand → List Operand}

theorem right_sib {form : Form}
    (arranged : Arranged form .mov .operand .operand arrange) (hop : Opcode (put8 opcode) form)
    (hscale : scaleLog2 scale = some log2) :
    (Body.of (sibPieces narrow w opcode reg base log2 index)).Right
        (some ⟨.mov, arrange (.reg (sizeOf narrow w) reg)
          (.mem (sizeOf narrow w) (scaled base scale index))⟩) ↔
      base.val ≠ 5 ∧ base.val ≠ 13 ∧ index.val ≠ 4 := by
  obtain ⟨hlog2, hpow⟩ := scaleLog2_eq_some hscale
  have hext : extend (rexOfSib w reg base index).r (lowBits reg) = reg := extend_lowBits reg
  have hdecode := @decode_sibPieces _ narrow w opcode log2 reg base index hop
  simp only [arranged.operands, modRm_sib_regs hlog2, lowBits_eq_five, hpow] at hdecode
  by_cases hbase : base.val = 5 ∨ base.val = 13
  · -- The four bytes of a displacement are missing.
    simp only [if_pos hbase, map_none] at hdecode
    refine (not_right hdecode).trans ?_
    rcases hbase with h | h <;> simp [h]
  · simp only [if_neg hbase, map_some, hext,
      Width.size_operand, regOperand_of_ne (sizeOf_ne_byte narrow w)] at hdecode
    refine (right_of hdecode).trans ?_
    rw [not_or] at hbase
    simp only [Instr.mk.injEq, true_and, arranged.inj]
    by_cases hindex : index.val = 4
    · simp [hindex, scaled]
    · simp [scaled, hbase, hindex]

theorem right_emitSib (narrow w : Bool) {form : Form} (arranged : Arranged form .mov .operand .operand arrange)
    (hop : Opcode (put8 opcode) form) :
    (emitSib (sizePieces narrow) (wBit w) opcode reg base scale index).Right
        (some ⟨.mov, arrange (.reg (sizeOf narrow w) reg)
          (.mem (sizeOf narrow w) (scaled base scale index))⟩) ↔ SibFits base scale index := by
  cases hscale : scaleLog2 scale with
  | none => simp [emitSib, SibFits, hscale, Body.Right]
  | some log2 =>
    have h := @right_sib narrow w opcode log2 reg base index scale arrange form arranged hop hscale
    simp only [SibFits, hscale, reduceCtorEq, false_or, ← h]
    simp only [emitSib, hscale]
    rfl
end

theorem right_byte {form : Form} {arrange : Operand → Operand → List Operand}
    (arranged : Arranged form .mov .byte .byte arrange) {opcode : Nat}
    (hop : Opcode (put8 opcode) form) (d : Int32) (reg base : RegNo) :
    (of (emitModRegRm 0 opcode 1 reg base ++ [put8 (unsigned 1 d)])).Right
        (some ⟨.mov, arrange (.reg .byte reg) (.mem .byte (baseDisp base d.toInt))⟩) ↔
      ByteReg reg base ∧ FitsByte d.toInt := by
  have h := @decodes_arranged false false 1 reg base [put8 (unsigned 1 d)] _ opcode _ _ _ _ _ _
    arranged hop (.disp8 (unsigned 1 d)) (by simp)
  have hbyte := @regOperand_byte reg base (rexOf false reg base) (by simp [rexOf])
  refine (right_of h).trans ?_
  simp only [Width.size, Place.operand, Instr.mk.injEq, true_and, arranged.inj, mem.injEq, baseDisp,
    Address.based.injEq, signed_unsigned_one, hbyte]

theorem right_set (r : RegNo) :
    (Body.of (emitModRegRm2 0 0x0f 0x95 3 0 r)).Right (unary (.set .ne) .byte r) ↔
      ByteReg r r := by
  have h := @decodes_set 0x95 (.set .ne) (.twoByte rfl) r
  have hbyte := @regOperand_byte r r (rexOf false 0 r) (by simp [rexOf])
  refine (right_of h).trans ?_
  simp only [Instr.mk.injEq, true_and, List.cons.injEq, and_true, hbyte]

/-! ## Jumps and calls -/

theorem Jump.opcode_form (jump : Jump) : Opcode (put8 jump.opcode) (.rel jump.op 1) := by
  cases jump <;> exact .oneByte rfl

theorem right_jumpDisp8 (jump : Jump) (d : Int32) :
    (Body.of [put8 jump.opcode, put8 (unsigned 1 d)]).Right (some ⟨jump.op, [.rel d.toInt]⟩) ↔
      FitsByte d.toInt := by
  have h := decodes_rel jump.opcode_form (unsigned 1 d)
  refine (right_of h).trans ?_
  simp only [Instr.mk.injEq, true_and, List.cons.injEq, and_true, rel.injEq]
  exact signed_unsigned_one d

theorem right_jumpLbl8 (jump : Jump) (outp : UInt64) (lbl : Lbl8) :
    (emitJumpLbl8 jump outp lbl).Right
        (some ⟨jump.op, [.rel ((lbl.ptr.map (distance (outp + 2))).getD 0)]⟩) ↔
      (Emitter.jumpLbl8 jump lbl).Encodable outp := by
  have hput : ([put8 jump.opcode, put8 0] : List (List UInt8)).flatten ≠ [] := by
    simp [put8, leBytes]
  cases hptr : lbl.ptr with
  | some ptr =>
    simp only [emitJumpLbl8, Emitter.Encodable, hptr, map_some, getD_some]
    by_cases hfar : 0x7f < distance (outp + 2) ptr ∨ distance (outp + 2) ptr < -0x80
    · simp only [if_pos hfar, Body.Right, if_true, hput, false_iff, FitsByte]
      omega
    · have h := decodes_rel jump.opcode_form (distance (outp + 2) ptr % 256).toNat
      simp only [if_neg hfar]
      refine (right_of h).trans ?_
      simp only [Instr.mk.injEq, true_and, List.cons.injEq, and_true, rel.injEq]
      rw [Nat.pow_one, mod_eq_of_lt (by omega)]
      exact signed_byte _ (by omega) (by omega)
  | none =>
    simp only [emitJumpLbl8, Emitter.Encodable, hptr, map_none, getD_none]
    by_cases hmany : maxLabelJumps ≤ lbl.nJumpPoints
    · simp only [Body.Right, hmany, decide_true, if_true, hput, false_iff, not_lt]
    · have h := decodes_rel jump.opcode_form 0
      simp only [hmany, decide_false]
      refine (right_of h).trans ?_
      exact iff_of_true rfl (Nat.lt_of_not_le hmany)

theorem right_call (outp dst : UInt64) :
    (emitCall outp dst).Right (some ⟨.call, [.rel (distance (outp + 5) dst)]⟩) ↔
      0x7fffffff < (dst - outp).toNat := by
  by_cases hfar : 0x7fffffff < (dst - outp).toNat
  · simp [emitCall, hfar, Body.Right]
  · have h := @decodes_rel 0xe8 4 .call (.oneByte rfl) (dst - outp).toNat
    simp only [emitCall, if_neg hfar]
    refine (right_of h).trans ?_
    simp only [Instr.mk.injEq, true_and, List.cons.injEq, and_true, rel.injEq, iff_false,
      hfar]
    have hsub : (dst - outp).toNat = (2 ^ 64 - outp.toNat + dst.toNat) % 2 ^ 64 :=
      UInt64.toNat_sub dst outp
    have hadd : (outp + 5).toNat = (outp.toNat + 5) % 2 ^ 64 := UInt64.toNat_add outp 5
    have hpow : (256 : Nat) ^ 4 = 4294967296 := rfl
    have ho := outp.toNat_lt
    simp only [signed, distance, hpow, hadd]
    rw [mod_eq_of_lt (by omega), if_pos (by omega), Int.bmod_def]
    omega

/-! ## All emitters -/

theorem decode_callPtr (ptr : UInt64) :
    (Body.of (emitMovImm64Reg64 ptr 10 ++ emitCallReg 10)).Right none ↔ False := by
  simp [Body.Right, Body.of]

theorem Emitter.body_right_iff (outp : UInt64) (e : Emitter) :
    (e.body outp).Right (e.instr outp) ↔ e.Encodable outp := by
  cases e with
  | callReg r | jmpqReg64 r => exact right_always (decodes_quad (by decide) rfl r)
  | movImm16Reg v r =>
    have h := @decodes_unary 0xc7 0 .mov _ true false .imm _ [put16 v.toNat]
      (.oneByte rfl) (by decide) rfl (lastOperand_imm .word v.toNat) r
    have hword : extended 2 .word (v.toNat % 256 ^ 2) = v.toNat % 256 ^ 2 :=
      @extended_bytes .word _ (mod_lt _ (by decide))
    rw [immLen, hword] at h
    exact (right_immReg h).trans (mod_eq_iff_lt (by decide))
  | movImm32Reg32 v r | andlImm32Reg32 v r | cmplImm32Reg32 v r | orlImm32Reg32 v r
  | xorlImm32Reg32 v r | testlImm32Reg32 v r =>
    exact right_imm32 (decodes_imm32 false (.oneByte rfl) (by decide) rfl v r)
      (extended_long v)
  | salImm8Reg64 v r =>
    exact right_imm8 (decodes_unary false true (.oneByte rfl) (by decide) rfl (lastOperand_imm8 _ _) r)
  | xorReg64Reg64 src dst | addqReg64Reg64 src dst =>
    exact right_always (decodes_dstSrc true (.oneByte rfl) src dst)
  | xorlReg32Reg32 src dst | addlReg32Reg32 src dst =>
    exact right_always (decodes_dstSrc false (.oneByte rfl) src dst)
  | orReg64Reg64 src dst | movReg64Reg64 src dst | cmpqReg64Reg64 src dst
  | testqReg64Reg64 src dst =>
    exact right_always (decodes_srcDst true (.oneByte rfl) src dst)
  | orlReg32Reg32 src dst | sublReg32Reg32 src dst | movReg32Reg32 src dst
  | andlReg32Reg32 src dst | cmplReg32Reg32 src dst | testlReg32Reg32 src dst =>
    exact right_always (decodes_srcDst false (.oneByte rfl) src dst)
  | ret => exact right_always decodes_ret
  | movImm64Reg64 v r => exact right_always (decodes_movImm64Reg64 v r)
  | call dst => exact right_call outp dst
  | callPtr ptr => exact decode_callPtr ptr
  | movImm32Indreg32 v r => exact not_right (decode_movImm32Indreg32 r)
  | movReg32Indreg32 src dst =>
    exact right_always (decodes_store false (.oneByte rfl) src dst)
  | movqReg64Indreg64 src dst =>
    exact right_always (decodes_store true (.oneByte rfl) src dst)
  | movqIndregReg src dst =>
    exact right_always (decodes_load false true (.oneByte rfl) src dst)
  | movqRiprelReg v dst => exact right_always (decodes_ripRel arranged_load (.oneByte rfl))
  | movqRegRiprel dst v => exact right_always (decodes_ripRel arranged_store (.oneByte rfl))
  | movqSibReg base scale index dst =>
    exact right_emitSib false true arranged_load (.oneByte rfl)
  | movlSibReg base scale index dst =>
    exact right_emitSib false false arranged_load (.oneByte rfl)
  | movwSibReg base scale index dst =>
    exact right_emitSib true false arranged_load (.oneByte rfl)
  | movqRegSib src base scale index =>
    exact right_emitSib false true arranged_store (.oneByte rfl)
  | movlRegSib src base scale index =>
    exact right_emitSib false false arranged_store (.oneByte rfl)
  | movIndreg32Reg32 src dst =>
    exact right_always (decodes_load false false (.oneByte rfl) src dst)
  | movIndreg16Reg16 src dst =>
    exact right_always (decodes_load true false (.oneByte rfl) src dst)
  | movbDisp8RegReg d src dst => exact right_byte arranged_load (.oneByte rfl) d dst src
  | movbRegDisp8Reg src d dst => exact right_byte arranged_store (.oneByte rfl) d src dst
  | movlDisp8RegReg d src dst =>
    exact right_disp8 (decodes_loadDisp false (.oneByte rfl) (.disp8 _) src dst)
  | movlDisp32RegReg d src dst =>
    have h := @decodes_loadDisp 0x8b .mov false 2 _ _ (.oneByte rfl)
      (.disp32 (unsigned 4 d)) src dst
    rw [signed_unsigned_four] at h
    exact right_always h
  | movqDisp8RegReg d src dst =>
    exact right_disp8 (decodes_loadDisp true (.oneByte rfl) (.disp8 _) src dst)
  | movqDisp32RegReg d src dst =>
    have h := @decodes_loadDisp 0x8b .mov true 2 _ _ (.oneByte rfl)
      (.disp32 (unsigned 4 d)) src dst
    rw [signed_unsigned_four] at h
    exact right_always h
  | addImm32Eax v | xorlImm32Eax v =>
    refine right_imm32 ?_ (extended_long v)
    exact decodes_accImm false (.oneByte rfl) v
  | pushqReg64 r =>
    exact right_always
      (decodes_opReg (.inl rfl) (fun low hlow => (oneByteForm_opReg low hlow).1) r)
  | popqReg64 r =>
    exact right_always
      (decodes_opReg (.inr rfl) (fun low hlow => (oneByteForm_opReg low hlow).2.1) r)
  | andImm32Rax v | xorImm32Rax v =>
    exact right_always (decodes_accImm true (.oneByte rfl) v)
  | cmpImm32Reg64 v r =>
    exact right_always (decodes_imm32 true (.oneByte rfl) (by decide) rfl v r)
  | notlReg32 r | inclReg32 r | mullReg32 r | neglReg32 r =>
    exact right_always (decodes_reg false (.oneByte rfl) (by decide) rfl r)
  | notReg64 r =>
    exact right_always (decodes_reg true (.oneByte rfl) (by decide) rfl r)
  | movsxIndreg16Reg32 src dst | movzxwIndregReg src dst =>
    exact right_always (decodes_twoLoad .word (.twoByte rfl) src dst)
  | cmplImm8Reg32 v r =>
    exact (right_immReg (decodes_unary false false (.oneByte rfl) (by decide) rfl (lastOperand_simm8 _ _) r)).trans
      (extended_eq_simm8_iff v)
  | shllImm8Reg32 v r | sarlImm8Reg32 v r | shrlImm8Reg32 v r =>
    exact right_imm8 (decodes_unary false false (.oneByte rfl) (by decide) rfl (lastOperand_imm8 _ _) r)
  | jumpDisp8 jump d => exact right_jumpDisp8 jump d
  | jumpLbl8 jump lbl => exact right_jumpLbl8 jump outp lbl
  | movsxReg16Reg32 src dst =>
    exact right_always (decodes_two .word (.twoByte rfl) (by decide) src dst)
  | cmovnelReg32Reg32 src dst | cmovelReg32Reg32 src dst | cmovalReg32Reg32 src dst
  | cmovglReg32Reg32 src dst | cmovaelReg32Reg32 src dst | cmovgelReg32Reg32 src dst =>
    exact right_always (decodes_two .operand (.twoByte rfl) (by decide) src dst)
  | addqImm8Reg v r =>
    exact (right_immReg (decodes_unary false true (.oneByte rfl) (by decide) rfl (lastOperand_simm8 _ _) r)).trans
      (extended_quad_eq_iff v)
  | shrlClReg32 r | sarlClReg32 r | shllClReg32 r =>
    exact right_always (decodes_clReg (.oneByte rfl) (by decide) rfl r)
  | setnzlReg32 r => exact right_set r

/-! ## The buffer -/

theorem Buffer.puts_all {buf : Buffer}
    (all : (buf.puts pieces).2 = true) : (buf.puts pieces).1 = pieces.flatten := by
  induction pieces generalizing buf with
  | nil => rfl
  | cons piece pieces ih =>
    cases hput : buf.put piece with
    | none => simp [puts, hput] at all
    | some buf' =>
      simp only [puts, hput] at all ⊢
      rw [ih all, List.flatten_cons]

def Emitter.HasRoom (e : Emitter) (buf : Buffer) : Prop :=
  (buf.puts (e.body buf.outp).pieces).2 = true

instance (e : Emitter) (buf : Buffer) : Decidable (e.HasRoom buf) :=
  inferInstanceAs (Decidable (_ = true))

theorem Emitter.right_iff_of_hasRoom {e : Emitter} {buf : Buffer} (room : e.HasRoom buf) :
    e.Right buf ↔ e.Encodable buf.outp := by
  have hall : (buf.puts (e.body buf.outp).pieces).2 = true := room
  have hright : e.Right buf ↔ (e.body buf.outp).Right (e.instr buf.outp) := by
    simp only [Emitter.Right, emit, Body.Right, hall, Bool.not_true, Bool.false_or,
      Buffer.puts_all hall]
  rw [hright, e.body_right_iff]

/-- With room in the buffer an emitter is right exactly when its instruction can be encoded. When
the buffer cannot grow it is right if nothing was put before. -/
theorem Emitter.right_iff (e : Emitter) (buf : Buffer) :
    e.Right buf ↔
      (e.HasRoom buf → e.Encodable buf.outp) ∧ (¬e.HasRoom buf → (e.emit buf).bytes = []) := by
  by_cases hroom : e.HasRoom buf
  · rw [right_iff_of_hasRoom hroom]
    simp [hroom]
  · have hall : (buf.puts (e.body buf.outp).pieces).2 = false := by
      simpa [HasRoom] using hroom
    have hraised : (e.emit buf).raised = true := by
      simp [emit, hall]
    simp [Emitter.Right, hraised, hroom]

def freshBuffer : Buffer := ⟨0x1000, 32, 32, fun _ => true⟩

/-- An immediate that is left out, a base that cannot be encoded, a high byte instead of a low one,
a call past its function, a displacement that is cut off, an immediate whose sign is extended, and
two bytes before an error. -/
theorem emitters_not_right :
    (¬(Emitter.movImm32Indreg32 1 0).Right freshBuffer) ∧
      (¬(Emitter.movlSibReg 5 1 0 0).Right freshBuffer) ∧
      (¬(Emitter.movlRegSib 0 0 1 4).Right freshBuffer) ∧
      (¬(Emitter.movbDisp8RegReg 0 0 4).Right freshBuffer) ∧
      (¬(Emitter.setnzlReg32 6).Right freshBuffer) ∧
      (¬(Emitter.call 0x1100).Right freshBuffer) ∧
      (¬(Emitter.movlDisp8RegReg 200 0 0).Right freshBuffer) ∧
      (¬(Emitter.addqImm8Reg 200 0).Right freshBuffer) ∧
      ¬(Emitter.jumpLbl8 .jmp ⟨some 0x2000, 0⟩).Right freshBuffer := by
  have hwrong : ∀ e : Emitter, e.HasRoom freshBuffer → ¬e.Encodable freshBuffer.outp →
      ¬e.Right freshBuffer := fun e room => mt (right_iff_of_hasRoom room).mp
  refine ⟨hwrong _ (by decide) id, hwrong _ (by decide) ?_, hwrong _ (by decide) ?_,
    hwrong _ (by decide) ?_, hwrong _ (by decide) ?_, hwrong _ (by decide) ?_,
    hwrong _ (by decide) ?_, hwrong _ (by decide) ?_, hwrong _ (by decide) ?_⟩
  · show ¬SibFits 5 1 0
    decide
  · show ¬SibFits 0 1 4
    decide
  · show ¬(ByteReg 4 0 ∧ FitsByte 0)
    decide
  · show ¬ByteReg 6 6
    decide
  · show ¬0x7fffffff < ((0x1100 : UInt64) - 0x1000).toNat
    decide
  · show ¬FitsByte 200
    decide
  · show ¬200 < 2 ^ 7
    decide
  · show ¬FitsByte (distance 0x1002 0x2000)
    decide

end X86
