import WashingtonDC.X86.Emit

/-!
# The emitters and the encoding

For which registers, immediates and displacements the bytes of an emitter are the instruction that
it stands for.
-/
namespace X86

open List UInt8 Option

/-! ## Numbers and bytes -/

theorem leBytes_length (n v : Nat) : (leBytes n v).length = n := by
  induction n generalizing v with
  | zero => rfl
  | succ n ih => rw [leBytes, length_cons, ih]

theorem leNat_leBytes (n v : Nat) : leNat (leBytes n v) = v % 256 ^ n := by
  induction n generalizing v with
  | zero => rw [leBytes, leNat, pow_zero, Nat.mod_one]
  | succ n ih =>
    have hbyte : (ofNat v).toNat = v % 256 := toNat_ofNat'
    rw [leBytes, leNat, ih, hbyte, Nat.pow_succ']
    exact Nat.mod_mul.symm

@[simp] theorem field_leBytes (n v : Nat) (rest : List UInt8) :
    field n (leBytes n v ++ rest) = some (v % 256 ^ n, rest) := by
  have hlen := leBytes_length n v
  rw [field, if_pos (by rw [length_append]; omega), take_left' hlen, drop_left' hlen,
    leNat_leBytes]

theorem displacement_put8 (v : Nat) (rest : List UInt8) :
    displacement 1 (put8 v ++ rest) = some (signed 1 (v % 256), rest) := by
  simp [displacement, put8]

theorem displacement_put32 (v : Nat) (rest : List UInt8) :
    displacement 2 (put32 v ++ rest) = some (signed 4 (v % 256 ^ 4), rest) := by
  simp [displacement, put32]

/-! ## Prefixes -/

def rexNum (w r x b : Bool) : Nat := 8 * w.toNat + 4 * r.toNat + 2 * x.toNat + b.toNat

def sizePieces (narrow : Bool) : List (List UInt8) := if narrow then [put8 0x66] else []

variable {o : UInt8} {form : Form}

theorem takeRex_putRex (w r x b : Bool) (ho : o.toNat / 16 ≠ 4) (rest : List UInt8) :
    takeRex ((putRex (rexNum w r x b)).flatten ++ o :: rest) =
      (⟨w || r || x || b, w, r, x, b⟩, o :: rest) := by
  cases w <;> cases r <;> cases x <;> cases b <;>
    first
    | rfl
    | exact if_neg ho

/-- The opcode `ops` has a form, and it is not a prefix. -/
structure Opcode (ops : List UInt8) (form : Form) : Prop where
  first : ∃ o os, ops = o :: os ∧ o.toNat / 16 ≠ 4 ∧ o ≠ 0x66
  form : ∀ rest, opcodeForm (ops ++ rest) = some (form, rest)

theorem decode_of_ne (ho : o ≠ 0x66) (rest : List UInt8) :
    decode (o :: rest) = decodeSized false (o :: rest) := by
  unfold decode
  split
  · next h => exact absurd (cons.inj h).1 ho
  · rfl

theorem decode_sized (narrow w r x b : Bool) (ho : o ≠ 0x66) (rest : List UInt8) :
    decode ((sizePieces narrow).flatten ++ ((putRex (rexNum w r x b)).flatten ++ o :: rest)) =
      decodeSized narrow ((putRex (rexNum w r x b)).flatten ++ o :: rest) := by
  cases narrow with
  | true => rfl
  | false =>
    cases w <;> cases r <;> cases x <;> cases b <;>
      first
      | exact decode_of_ne ho rest
      | exact decode_of_ne (by decide) _

theorem Opcode.decode {ops : List UInt8} (opcode : Opcode ops form) (narrow w r x b : Bool)
    (rest : List UInt8) :
    X86.decode ((sizePieces narrow).flatten ++
        ((putRex (rexNum w r x b)).flatten ++ (ops ++ rest))) =
      operands ⟨w || r || x || b, w, r, x, b⟩
        (operandSize narrow ⟨w || r || x || b, w, r, x, b⟩) form rest := by
  obtain ⟨o, os, rfl, hrex, hsize⟩ := opcode.first
  have hform := opcode.form rest
  rw [cons_append] at hform ⊢
  rw [decode_sized narrow w r x b hsize, decodeSized, takeRex_putRex w r x b hrex]
  simp only [hform, bind_eq_bind, bind_some]

theorem Opcode.oneByte {n : Nat} (hform : oneByteForm n = some form)
    (hn : n < 256 ∧ n / 16 ≠ 4 ∧ n ≠ 0x66 ∧ n ≠ 0x0f := by decide) : Opcode (put8 n) form := by
  obtain ⟨hlt, hrex, hsize, htwo⟩ := hn
  have hval : (ofNat n).toNat = n := by
    rw [toNat_ofNat', Nat.mod_eq_of_lt hlt]
  refine ⟨⟨ofNat n, [], rfl, by rwa [hval], ?_⟩, ?_⟩
  · intro heq
    exact hsize (hval.symm.trans (congrArg UInt8.toNat heq))
  · intro rest
    have hne : ofNat n ≠ 0x0f := fun heq => htwo (hval.symm.trans (congrArg UInt8.toNat heq))
    change opcodeForm (ofNat n :: rest) = _
    unfold opcodeForm
    split
    · next h => exact absurd (cons.inj h).1 hne
    · next h =>
      obtain ⟨rfl, rfl⟩ := cons.inj h
      rw [hval, hform]
      rfl
    · next h => cases h

theorem Opcode.twoByte {n : Nat} (hform : twoByteForm n = some form) (hn : n < 256 := by decide) :
    Opcode (put8 0x0f ++ put8 n) form := by
  have hval : (ofNat n).toNat = n := by
    rw [toNat_ofNat', Nat.mod_eq_of_lt hn]
  refine ⟨⟨0x0f, [ofNat n], rfl, by decide, by decide⟩, ?_⟩
  intro rest
  change (twoByteForm (ofNat n).toNat).map (fun form => (form, rest)) = _
  rw [hval, hform]
  rfl

/-! ## ModR/M -/

theorem modRm_byte : ∀ mod < 4, ∀ reg < 8, ∀ rm < 8,
    let byte := (ofNat (mod <<< 6 ||| reg <<< 3 ||| rm)).toNat
    byte / 64 = mod ∧ byte / 8 % 8 = reg ∧ byte % 8 = rm := by
  decide

theorem lowBits_lt (r : RegNo) : lowBits r < 8 := by
  unfold lowBits
  split <;> omega

@[simp] theorem extend_lowBits (r : Nat) : extend (decide (8 ≤ r)) (lowBits r) = r := by
  by_cases h : 8 ≤ r
  · simp only [extend, lowBits, h, decide_true, if_true]
    omega
  · simp [extend, lowBits, h]

section
variable {mod reg rm : Nat} (rex : Rex)

theorem modRm_direct (hreg : reg < 8) (hrm : rm < 8) (rest : List UInt8) :
    modRm rex ((putModRegRm 3 reg rm false).flatten ++ rest) =
      some (⟨reg, fun size => regOperand rex size (extend rex.b rm)⟩, rest) := by
  obtain ⟨hmod, hreg', hrm'⟩ := modRm_byte 3 (by decide) reg hreg rm hrm
  have hput : (putModRegRm 3 reg rm false).flatten ++ rest =
      ofNat (3 <<< 6 ||| reg <<< 3 ||| rm) :: rest := by
    simp [putModRegRm, put8, leBytes]
  rw [hput]
  simp only [modRm, hmod, hreg', hrm', if_true]

theorem modRm_memory (hmod : mod < 3) (hreg : reg < 8) (hrm : rm < 8) (hx : rex.x = false)
    (base : ¬(rm = 5 ∧ mod = 0)) {bytes rest : List UInt8} {d : Int}
    (hdisp : displacement mod bytes = some (d, rest)) :
    modRm rex ((putModRegRm mod reg rm false).flatten ++ bytes) =
      some (⟨reg, fun size => .mem size (.based (some (extend rex.b rm)) none d)⟩, rest) := by
  obtain ⟨hmod', hreg', hrm'⟩ := modRm_byte mod (by omega) reg hreg rm hrm
  have hne : mod ≠ 3 := by omega
  by_cases hsib : rm = 4
  · subst hsib
    have hput : (putModRegRm mod reg 4 false).flatten ++ bytes =
        ofNat (mod <<< 6 ||| reg <<< 3 ||| 4) :: 0x24 :: bytes := by
      simp [putModRegRm, put8, leBytes, hne]
    have hbase : ¬((0x24 : UInt8).toNat % 8 = 5 ∧ mod = 0) := by simp
    rw [hput]
    simp only [modRm, hmod', hreg', hrm', if_neg hne, memAddress, if_true, sibAddress,
      if_neg hbase, hdisp, hx]
    rfl
  · have hput : (putModRegRm mod reg rm false).flatten ++ bytes =
        ofNat (mod <<< 6 ||| reg <<< 3 ||| rm) :: bytes := by
      simp [putModRegRm, put8, leBytes, hsib]
    rw [hput]
    simp only [modRm, hmod', hreg', hrm', if_neg hne, memAddress, if_neg hsib, if_neg base,
      hdisp, map_some]

theorem modRm_indirect (hreg : reg < 8) (hrm : rm < 8) (hx : rex.x = false) (rest : List UInt8) :
    modRm rex ((putModRegRm 0 reg rm (decide (rm = 5))).flatten ++ rest) =
      some (⟨reg, fun size => .mem size (.based (some (extend rex.b rm)) none 0)⟩, rest) := by
  by_cases hbase : rm = 5
  · subst hbase
    have hput : (putModRegRm 0 reg 5 (decide (5 = 5))).flatten ++ rest =
        (putModRegRm 1 reg 5 false).flatten ++ (put8 0 ++ rest) := by
      simp [putModRegRm]
    rw [hput]
    exact modRm_memory rex (by decide) hreg hrm hx (by decide) (displacement_put8 0 rest)
  · rw [decide_eq_false hbase]
    exact modRm_memory rex (by decide) hreg hrm hx (by simp [hbase]) rfl

theorem modRm_ripRel (hreg : reg < 8) (v : Nat) (rest : List UInt8) :
    modRm rex (put8 (0 <<< 6 ||| reg <<< 3 ||| 5) ++ (put32 v ++ rest)) =
      some (⟨reg, fun size => .mem size (.ripRel (signed 4 (v % 256 ^ 4)))⟩, rest) := by
  obtain ⟨hmod, hreg', hrm⟩ := modRm_byte 0 (by decide) reg hreg 5 (by decide)
  change modRm rex (ofNat (0 <<< 6 ||| reg <<< 3 ||| 5) :: (put32 v ++ rest)) = _
  simp only [modRm, hmod, hreg', hrm, memAddress]
  simp [displacement_put32]

theorem sib_byte : ∀ log2 < 4, ∀ index < 8, ∀ base < 8,
    let byte := (ofNat (base ||| index <<< 3 ||| log2 <<< 6)).toNat
    byte / 64 = log2 ∧ byte / 8 % 8 = index ∧ byte % 8 = base := by
  decide

theorem modRm_sib (hreg : reg < 8) {log2 index base : Nat} (hlog2 : log2 < 4) (hindex : index < 8)
    (hbase : base < 8) (rest : List UInt8) :
    modRm rex (put8 (0 <<< 6 ||| reg <<< 3 ||| 4) ++
        (put8 (base ||| index <<< 3 ||| log2 <<< 6) ++ rest)) =
      (if base = 5 then (displacement 2 rest).map fun (disp, rest) =>
          (⟨reg, fun size => .mem size (.based none
            (if extend rex.x index = 4 then none else some (extend rex.x index, 2 ^ log2)) disp)⟩,
            rest)
        else some (⟨reg, fun size => .mem size (.based (some (extend rex.b base))
          (if extend rex.x index = 4 then none else some (extend rex.x index, 2 ^ log2)) 0)⟩,
          rest)) := by
  obtain ⟨hmod, hreg', hrm⟩ := modRm_byte 0 (by decide) reg hreg 4 (by decide)
  obtain ⟨hlog2', hindex', hbase'⟩ := sib_byte log2 hlog2 index hindex base hbase
  change modRm rex (ofNat (0 <<< 6 ||| reg <<< 3 ||| 4) ::
    ofNat (base ||| index <<< 3 ||| log2 <<< 6) :: rest) = _
  simp only [modRm, hmod, hreg', hrm, memAddress, if_true, sibAddress, hlog2', hindex', hbase',
    and_true]
  by_cases h : base = 5
  · simp only [if_pos h, Option.map_map]
    rfl
  · simp only [if_neg h, displacement, map_some]
    rfl
end

/-! ## Instructions with a ModR/M byte -/

def Decodes (pieces : List (List UInt8)) (instr : Instr) : Prop :=
  decode pieces.flatten = some (instr, [])

def wBit : Bool → Nat
  | true => rexW
  | false => 0

def sizeOf (narrow w : Bool) : Size := if w then .quad else if narrow then .word else .long

@[simp] theorem Width.size_operand (size : Size) : Width.operand.size size = size := rfl

theorem sizeOf_ne_byte (narrow w : Bool) : sizeOf narrow w ≠ .byte := by
  cases narrow <;> cases w <;> decide

def rexOf (w : Bool) (reg rm : Nat) : Rex :=
  ⟨w || decide (8 ≤ reg) || false || decide (8 ≤ rm), w, decide (8 ≤ reg), false, decide (8 ≤ rm)⟩

theorem withBit_two (w : Bool) (reg rm : Nat) :
    withBit (withBit (wBit w) rexR reg) rexB rm =
      rexNum w (decide (8 ≤ reg)) false (decide (8 ≤ rm)) := by
  cases w <;> by_cases hreg : 8 ≤ reg <;> by_cases hrm : 8 ≤ rm <;>
    simp only [withBit, wBit, rexNum, hreg, hrm, if_true, if_false, decide_true, decide_false] <;>
    rfl

section
variable {narrow w : Bool} {mod : Nat} {reg rm : RegNo} {tail : List (List UInt8)} {form : Form}

theorem decode_modRegRm {opcode : Nat} (hop : Opcode (put8 opcode) form) :
    decode (sizePieces narrow ++ emitModRegRm (wBit w) opcode mod reg rm ++ tail).flatten =
      operands (rexOf w reg rm) (sizeOf narrow w) form
        ((putModRegRm mod (lowBits reg) (lowBits rm)
          (decide (lowBits rm = 5 ∧ mod = 0))).flatten ++ tail.flatten) := by
  have hdecode := hop.decode narrow w (decide (8 ≤ reg.val)) false (decide (8 ≤ rm.val))
    ((putModRegRm mod (lowBits reg) (lowBits rm)
      (decide (lowBits rm = 5 ∧ mod = 0))).flatten ++ tail.flatten)
  simp only [emitModRegRm, withBit_two, flatten_append, flatten_cons, flatten_nil,
    append_nil, append_assoc]
  exact hdecode

theorem decode_modRegRm2 {opcode : Nat} (hop : Opcode (put8 0x0f ++ put8 opcode) form)
    (hmod : mod = 0 ∨ mod = 3) :
    decode (emitModRegRm2 (wBit w) 0x0f opcode mod reg rm).flatten =
      operands (rexOf w reg rm) (sizeOf false w) form
        ((putModRegRm mod (lowBits reg) (lowBits rm)
          (decide (lowBits rm = 5 ∧ mod = 0))).flatten ++ []) := by
  have hplace : mod ≠ 3 ↔ mod = 0 := by omega
  have hdecode := hop.decode false w (decide (8 ≤ reg.val)) false (decide (8 ≤ rm.val))
    ((putModRegRm mod (lowBits reg) (lowBits rm)
      (decide (lowBits rm = 5 ∧ mod = 0))).flatten ++ [])
  simp only [emitModRegRm2, withBit_two, hplace, flatten_append, flatten_cons,
    flatten_nil, append_nil, append_assoc] at hdecode ⊢
  exact hdecode

@[simp] theorem regOperand_of_ne {rex : Rex} {size : Size} {r : Nat} (hsize : size ≠ .byte) :
    regOperand rex size r = .reg size r :=
  if_neg fun h => hsize h.1

/-- The operand of a `mod`: a register, or memory at a register with a displacement. -/
inductive Place
  | direct
  | based (disp : Int)

/-- The pieces of `mod` and of the displacement stand for a place. -/
inductive Encodes : Place → Nat → List UInt8 → Prop
  | direct : Encodes .direct 3 []
  | indirect : Encodes (.based 0) 0 []
  | disp8 (v : Nat) : Encodes (.based (signed 1 (v % 256))) 1 (put8 v)
  | disp32 (v : Nat) : Encodes (.based (signed 4 (v % 256 ^ 4))) 2 (put32 v)

def Place.operand (rex : Rex) (r : RegNo) (place : Place) (size : Size) : Operand :=
  match place with
  | .direct => regOperand rex size r
  | .based disp => .mem size (baseDisp r disp)

theorem Encodes.modRm {place : Place} {disp : List UInt8} (encodes : Encodes place mod disp)
    (w : Bool) (reg rm : RegNo) (rest : List UInt8) :
    X86.modRm (rexOf w reg rm) ((putModRegRm mod (lowBits reg) (lowBits rm)
        (decide (lowBits rm = 5 ∧ mod = 0))).flatten ++ (disp ++ rest)) =
      some (⟨lowBits reg, place.operand (rexOf w reg rm) rm⟩, rest) := by
  have hreg := lowBits_lt reg
  have hrm := lowBits_lt rm
  have hext : extend (rexOf w reg rm).b (lowBits rm) = rm := extend_lowBits rm
  cases encodes with
  | direct =>
    have h := modRm_direct (rexOf w reg rm) hreg hrm rest
    rw [hext] at h
    simp only [show ¬(3 : Nat) = 0 by decide, and_false, decide_false, nil_append]
    exact h
  | indirect =>
    have h := modRm_indirect (rexOf w reg rm) hreg hrm rfl rest
    rw [hext] at h
    simp only [and_true, nil_append]
    exact h
  | disp8 v =>
    have h := modRm_memory (rexOf w reg rm) (by decide : 1 < 3) hreg hrm rfl (by simp)
      (displacement_put8 v rest)
    rw [hext] at h
    simp only [show ¬(1 : Nat) = 0 by decide, and_false, decide_false]
    exact h
  | disp32 v =>
    have h := modRm_memory (rexOf w reg rm) (by decide : 2 < 3) hreg hrm rfl (by simp)
      (displacement_put32 v rest)
    rw [hext] at h
    simp only [show ¬(2 : Nat) = 0 by decide, and_false, decide_false]
    exact h

theorem extend_rexOf {reg rm : Nat} : extend (rexOf w reg rm).r (lowBits reg) = reg :=
  extend_lowBits reg

variable {opcode : Nat} {op : Op} {place : Place} {disp : List UInt8} {rmWidth regWidth : Width}

/-- A form with a register and an operand of the ModR/M byte, in either order. -/
structure Arranged (form : Form) (op : Op) (regWidth rmWidth : Width)
    (arrange : Operand → Operand → List Operand) : Prop where
  operands : ∀ rex size bytes, X86.operands rex size form bytes = (modRm rex bytes).map fun p =>
    (⟨op, arrange (regOperand rex (regWidth.size size) (extend rex.r p.1.reg))
      (p.1.operand (rmWidth.size size))⟩, p.2)
  inj : ∀ {r m r' m'}, arrange r m = arrange r' m' ↔ r = r' ∧ m = m'

theorem arranged_load : Arranged (.regRm op regWidth rmWidth) op regWidth rmWidth fun r m => [r, m] :=
  ⟨fun _ _ _ => rfl, by simp⟩

theorem arranged_store : Arranged (.rmReg op rmWidth regWidth) op regWidth rmWidth fun r m => [m, r] :=
  ⟨fun _ _ _ => rfl, by simp [and_comm]⟩

variable {arrange : Operand → Operand → List Operand}

theorem decodes_arranged (arranged : Arranged form op regWidth rmWidth arrange)
    (hop : Opcode (put8 opcode) form) (encodes : Encodes place mod disp)
    (htail : tail.flatten = disp) :
    Decodes (sizePieces narrow ++ emitModRegRm (wBit w) opcode mod reg rm ++ tail)
      ⟨op, arrange (regOperand (rexOf w reg rm) (regWidth.size (sizeOf narrow w)) reg)
        (place.operand (rexOf w reg rm) rm (rmWidth.size (sizeOf narrow w)))⟩ := by
  have hmod := encodes.modRm w reg rm []
  rw [append_nil] at hmod
  simp only [Decodes, decode_modRegRm hop, arranged.operands, htail, hmod, map_some, extend_rexOf]

theorem decodes_group {member : Nat → Option (Op × Width × Last)} {width : Width} {last : Last}
    {operands : List Operand} {n : Nat} (hop : Opcode (put8 opcode) (.group member)) (hn : n < 8)
    (hmember : member n = some (op, width, last))
    (hlast : lastOperand (sizeOf narrow w) last tail.flatten = some (operands, [])) :
    Decodes (sizePieces narrow ++ emitModRegRm (wBit w) opcode 3 n rm ++ tail)
      ⟨op, regOperand (rexOf w n rm) (width.size (sizeOf narrow w)) rm :: operands⟩ := by
  have hdigit : lowBits n = n := if_neg (by omega)
  have hmod := Encodes.direct.modRm w ⟨n, by omega⟩ rm tail.flatten
  have hdecode := @decode_modRegRm narrow w 3 ⟨n, by omega⟩ rm tail _ opcode hop
  simp only [hdigit, nil_append] at hmod hdecode
  simp only [Decodes, hdecode, X86.operands, hmod, bind_eq_bind, bind_some, hmember,
    hlast]
  rfl

end

/-! ## Families of emitters -/

section
variable {opcode n : Nat} {op : Op} {member : Nat → Option (Op × Width × Last)}

theorem decodes_srcDst (w : Bool) (hop : Opcode (put8 opcode) (.rmReg op .operand .operand))
    (src dst : RegNo) :
    Decodes (emitModRegRm (wBit w) opcode 3 src dst)
      ⟨op, [.reg (sizeOf false w) dst, .reg (sizeOf false w) src]⟩ := by
  have h := @decodes_arranged false w 3 src dst [] _ _ _ _ _ _ _ _ arranged_store hop .direct rfl
  simpa [Place.operand, sizeOf_ne_byte, sizePieces] using h

theorem decodes_dstSrc (w : Bool) (hop : Opcode (put8 opcode) (.regRm op .operand .operand))
    (src dst : RegNo) :
    Decodes (emitModRegRm (wBit w) opcode 3 dst src)
      ⟨op, [.reg (sizeOf false w) dst, .reg (sizeOf false w) src]⟩ := by
  have h := @decodes_arranged false w 3 dst src [] _ _ _ _ _ _ _ _ arranged_load hop .direct rfl
  simpa [Place.operand, sizeOf_ne_byte, sizePieces] using h

theorem decodes_store (w : Bool) (hop : Opcode (put8 opcode) (.rmReg op .operand .operand))
    (src dst : RegNo) :
    Decodes (emitModRegRm (wBit w) opcode 0 src dst)
      ⟨op, [.mem (sizeOf false w) (baseDisp dst 0), .reg (sizeOf false w) src]⟩ := by
  have h := @decodes_arranged false w 0 src dst [] _ _ _ _ _ _ _ _ arranged_store hop .indirect rfl
  simpa [Place.operand, sizeOf_ne_byte, sizePieces] using h

theorem decodes_load (narrow w : Bool) (hop : Opcode (put8 opcode) (.regRm op .operand .operand))
    (src dst : RegNo) :
    Decodes (sizePieces narrow ++ emitModRegRm (wBit w) opcode 0 dst src)
      ⟨op, [.reg (sizeOf narrow w) dst, .mem (sizeOf narrow w) (baseDisp src 0)]⟩ := by
  have h := @decodes_arranged narrow w 0 dst src [] _ _ _ _ _ _ _ _ arranged_load hop .indirect rfl
  simpa [Place.operand, sizeOf_ne_byte] using h

theorem decodes_loadDisp (w : Bool) {mod : Nat} {d : Int} {disp : List UInt8}
    (hop : Opcode (put8 opcode) (.regRm op .operand .operand))
    (encodes : Encodes (.based d) mod disp) (src dst : RegNo) :
    Decodes (emitModRegRm (wBit w) opcode mod dst src ++ [disp])
      ⟨op, [.reg (sizeOf false w) dst, .mem (sizeOf false w) (baseDisp src d)]⟩ := by
  have h := @decodes_arranged false w mod dst src [disp] _ _ _ _ _ _ _ _ arranged_load hop encodes (by simp)
  simpa [Place.operand, sizeOf_ne_byte, sizePieces] using h

theorem decodes_unary (narrow w : Bool) {last : Last} {operands : List Operand}
    {tail : List (List UInt8)} (hop : Opcode (put8 opcode) (.group member)) (hn : n < 8)
    (hmember : member n = some (op, .operand, last))
    (hlast : lastOperand (sizeOf narrow w) last tail.flatten = some (operands, [])) (r : RegNo) :
    Decodes (sizePieces narrow ++ emitModRegRm (wBit w) opcode 3 n r ++ tail)
      ⟨op, .reg (sizeOf narrow w) r :: operands⟩ := by
  have h := @decodes_group narrow w r tail _ _ _ _ _ _ _ hop hn hmember hlast
  simpa [sizeOf_ne_byte] using h

theorem decodes_reg (w : Bool) (hop : Opcode (put8 opcode) (.group member)) (hn : n < 8)
    (hmember : member n = some (op, .operand, .nothing)) (r : RegNo) :
    Decodes (emitModRegRm (wBit w) opcode 3 n r) ⟨op, [.reg (sizeOf false w) r]⟩ := by
  have h := @decodes_unary _ _ _ _ false w _ _ [] hop hn hmember rfl r
  simpa [sizePieces] using h

theorem decodes_clReg (hop : Opcode (put8 opcode) (.group member)) (hn : n < 8)
    (hmember : member n = some (op, .operand, .cl)) (r : RegNo) :
    Decodes (emitModRegRm 0 opcode 3 n r) ⟨op, [.reg .long r, .reg .byte 1]⟩ := by
  have h := @decodes_unary _ _ _ _ false false _ _ [] hop hn hmember rfl r
  simpa [sizePieces, sizeOf, wBit] using h

theorem decodes_quad (hn : n < 8) (hmember : jumpGroup n = some (op, .quad, .nothing)) (r : RegNo) :
    Decodes (emitModRegRm 0 0xff 3 n r) ⟨op, [.reg .quad r]⟩ := by
  have h := @decodes_group false false r [] 0xff op _ _ _ _ _ (.oneByte rfl) hn
    hmember rfl
  simpa [sizePieces, wBit, Width.size] using h

theorem lastOperand_imm8 (size : Size) (v : Nat) :
    lastOperand size .imm8 [put8 v].flatten = some ([.imm (v % 256)], []) := by
  have h := field_leBytes 1 v []
  rw [append_nil] at h
  simp [lastOperand, put8, h]

theorem lastOperand_simm8 (size : Size) (v : Nat) :
    lastOperand size .simm8 [put8 v].flatten = some ([.imm (extended 1 size (v % 256))], []) := by
  have h := field_leBytes 1 v []
  rw [append_nil] at h
  simp [lastOperand, put8, h]

theorem lastOperand_imm (size : Size) (v : Nat) :
    lastOperand size .imm [leBytes (immLen size) v].flatten =
      some ([.imm (extended (immLen size) size (v % 256 ^ immLen size))], []) := by
  have h := field_leBytes (immLen size) v []
  rw [append_nil] at h
  simp [lastOperand, h]

theorem decodes_imm32 (w : Bool) (hop : Opcode (put8 opcode) (.group member)) (hn : n < 8)
    (hmember : member n = some (op, .operand, .imm)) (v : UInt32) (r : RegNo) :
    Decodes (emitModRegRm (wBit w) opcode 3 n r ++ [put32 v.toNat])
      ⟨op, [.reg (sizeOf false w) r, .imm (extended 4 (sizeOf false w) v.toNat)]⟩ := by
  have hlen : immLen (sizeOf false w) = 4 := by cases w <;> rfl
  have hv : v.toNat % 256 ^ 4 = v.toNat := Nat.mod_eq_of_lt v.toNat_lt
  have hlast := lastOperand_imm (sizeOf false w) v.toNat
  rw [hlen, hv] at hlast
  exact decodes_unary false w hop hn hmember hlast r

theorem decodes_regRm2 {rmWidth : Width}
    (hop : Opcode (put8 0x0f ++ put8 opcode) (.regRm op .operand rmWidth))
    (encodes : Encodes place mod []) (hmod : mod = 0 ∨ mod = 3) (reg rm : RegNo) :
    Decodes (emitModRegRm2 0 0x0f opcode mod reg rm)
      ⟨op, [.reg .long reg, place.operand (rexOf false reg rm) rm (rmWidth.size .long)]⟩ := by
  have hmodRm := encodes.modRm false reg rm []
  refine (@decode_modRegRm2 false mod reg rm _ opcode hop hmod).trans ?_
  rw [nil_append] at hmodRm
  simp only [operands, hmodRm, map_some, extend_rexOf]
  rfl

theorem decodes_two (rmWidth : Width)
    (hop : Opcode (put8 0x0f ++ put8 opcode) (.regRm op .operand rmWidth))
    (hwidth : rmWidth ≠ .byte) (src dst : RegNo) :
    Decodes (emitModRegRm2 0 0x0f opcode 3 dst src)
      ⟨op, [.reg .long dst, .reg (rmWidth.size .long) src]⟩ := by
  have hsize : rmWidth.size .long ≠ .byte := by cases rmWidth <;> simp_all [Width.size]
  have h := decodes_regRm2 hop .direct (.inr rfl) dst src
  simpa [Place.operand, hsize] using h

theorem decodes_twoLoad (rmWidth : Width)
    (hop : Opcode (put8 0x0f ++ put8 opcode) (.regRm op .operand rmWidth)) (src dst : RegNo) :
    Decodes (emitModRegRm2 0 0x0f opcode 0 dst src)
      ⟨op, [.reg .long dst, .mem (rmWidth.size .long) (baseDisp src 0)]⟩ :=
  decodes_regRm2 hop .indirect (.inl rfl) dst src

theorem decodes_set
    (hop : Opcode (put8 0x0f ++ put8 opcode) (.group fun _ => some (op, .byte, .nothing)))
    (r : RegNo) :
    Decodes (emitModRegRm2 0 0x0f opcode 3 0 r) ⟨op, [regOperand (rexOf false 0 r) .byte r]⟩ := by
  have hmod := Encodes.direct.modRm false 0 r []
  refine (@decode_modRegRm2 false 3 0 r _ opcode hop (.inr rfl)).trans ?_
  rw [nil_append] at hmod
  simp only [operands, hmod]
  rfl

theorem decode_movImm32Indreg32 (r : RegNo) :
    decode (emitModRegRm 0 0xc7 0 0 r).flatten = none := by
  have hmod := Encodes.indirect.modRm false 0 r []
  have hdecode := @decode_modRegRm false false 0 0 r [] _ 0xc7 (.oneByte rfl)
  simp only [sizePieces, Bool.false_eq_true, if_false, nil_append, append_nil,
    flatten_nil] at hdecode hmod
  refine hdecode.trans ?_
  simp only [operands, hmod]
  rfl

/-! ## Operands without a ModR/M byte -/

theorem withBit_one (r : Nat) : withBit 0 rexB r = rexNum false false false (decide (8 ≤ r)) := by
  by_cases h : 8 ≤ r
  · simp only [withBit, h, if_true, decide_true]
    rfl
  · simp only [withBit, h, if_false, decide_false]
    rfl

theorem opcode_or_lowBits (r : RegNo) {base : Nat} (hbase : base = 0x50 ∨ base = 0x58 ∨ base = 0xb8) :
    base ||| lowBits r = base + lowBits r := by
  have hall : ∀ low < 8, 0x50 ||| low = 0x50 + low ∧ 0x58 ||| low = 0x58 + low ∧
      0xb8 ||| low = 0xb8 + low := by decide
  obtain ⟨h50, h58, hb8⟩ := hall _ (lowBits_lt r)
  rcases hbase with rfl | rfl | rfl
  · exact h50
  · exact h58
  · exact hb8

theorem oneByteForm_opReg : ∀ low < 8,
    oneByteForm (0x50 + low) = some (.opReg .push low) ∧
      oneByteForm (0x58 + low) = some (.opReg .pop low) ∧
      oneByteForm (0xb8 + low) = some (.opRegImm low) := by
  intro low hlow
  have h50 : (0x50 + low) % 8 = low := by omega
  have h58 : (0x58 + low) % 8 = low := by omega
  have hb8 : (0xb8 + low) % 8 = low := by omega
  unfold oneByteForm
  refine ⟨?_, ?_, ?_⟩
  · rw [if_neg (by omega), if_neg (by omega), if_pos (by omega), h50]
  · rw [if_neg (by omega), if_neg (by omega), if_neg (by omega), if_pos (by omega), h58]
  · rw [if_neg (by omega), if_neg (by omega), if_neg (by omega), if_neg (by omega),
      if_neg (by omega), if_neg (by omega), if_pos (by omega), hb8]

theorem decodes_opReg {base : Nat} (hbase : base = 0x50 ∨ base = 0x58)
    (hform : ∀ low < 8, oneByteForm (base + low) = some (.opReg op low)) (r : RegNo) :
    Decodes (emitOpReg base r) ⟨op, [.reg .quad r]⟩ := by
  have hlow := lowBits_lt r
  have hor : base ||| lowBits r = base + lowBits r :=
    opcode_or_lowBits r (by rcases hbase with h | h <;> simp [h])
  have hop : Opcode (put8 (base + lowBits r)) (.opReg op (lowBits r)) :=
    .oneByte (hform _ hlow) (by rcases hbase with rfl | rfl <;> omega)
  have hdecode := hop.decode false false false false (decide (8 ≤ r.val)) []
  have hext := extend_lowBits r.val
  simp only [Decodes, emitOpReg, withBit_one, hor, flatten_append, flatten_cons,
    flatten_nil, append_nil, sizePieces, Bool.false_eq_true, if_false,
    nil_append] at hdecode ⊢
  rw [hdecode]
  simp only [operands, hext]

theorem decodes_movImm64Reg64 (v : UInt64) (r : RegNo) :
    Decodes (emitMovImm64Reg64 v r) ⟨.mov, [.reg .quad r, .imm v.toNat]⟩ := by
  have hlow := lowBits_lt r
  have hor : 0xb8 ||| lowBits r = 0xb8 + lowBits r := opcode_or_lowBits r (.inr (.inr rfl))
  have hop : Opcode (put8 (0xb8 + lowBits r)) (.opRegImm (lowBits r)) :=
    .oneByte (oneByteForm_opReg _ hlow).2.2 (by omega)
  have hrex : [put8 (withBit (0x40 ||| rexW) rexB r)] =
      putRex (rexNum true false false (decide (8 ≤ r.val))) := by
    by_cases h : 8 ≤ r.val
    · simp only [withBit, h, if_true, decide_true]
      rfl
    · simp only [withBit, h, if_false, decide_false]
      rfl
  have hdecode := hop.decode false true false false (decide (8 ≤ r.val)) (put64 v.toNat ++ [])
  have hpieces : (emitMovImm64Reg64 v r).flatten =
      (putRex (rexNum true false false (decide (8 ≤ r.val)))).flatten ++
        (put8 (0xb8 + lowBits r) ++ (put64 v.toNat ++ [])) := by
    rw [← hrex, emitMovImm64Reg64, hor]
    simp
  have hv : v.toNat % 256 ^ 8 = v.toNat := Nat.mod_eq_of_lt v.toNat_lt
  simp only [Decodes, hpieces]
  refine hdecode.trans ?_
  simp only [operands, operandSize, put64, if_true, Size.bytes, field_leBytes, hv, extend_lowBits]
  rfl

theorem decodes_accImm (w : Bool) (hop : Opcode (put8 opcode) (.accImm op)) (v : UInt32) :
    Decodes (putRex (wBit w) ++ [put8 opcode, put32 v.toNat])
      ⟨op, [.reg (sizeOf false w) 0, .imm (extended 4 (sizeOf false w) v.toNat)]⟩ := by
  have hlen : immLen (sizeOf false w) = 4 := by cases w <;> rfl
  have hrex : wBit w = rexNum w false false false := by cases w <;> rfl
  have hsize : operandSize false ⟨w || false || false || false, w, false, false, false⟩ =
      sizeOf false w := by cases w <;> rfl
  have hv : v.toNat % 256 ^ 4 = v.toNat := Nat.mod_eq_of_lt v.toNat_lt
  have hdecode := hop.decode false w false false false (put32 v.toNat ++ [])
  have hpieces : (putRex (wBit w) ++ [put8 opcode, put32 v.toNat]).flatten =
      (putRex (rexNum w false false false)).flatten ++
        (put8 opcode ++ (put32 v.toNat ++ [])) := by
    simp [hrex]
  simp only [Decodes, hpieces]
  refine hdecode.trans ?_
  rw [hsize]
  simp only [operands, hlen, put32, field_leBytes, hv]
  rfl

theorem decodes_rel (hop : Opcode (put8 opcode) (.rel op n)) (v : Nat) :
    Decodes [put8 opcode, leBytes n v] ⟨op, [.rel (signed n (v % 256 ^ n))]⟩ := by
  have hdecode := hop.decode false false false false false (leBytes n v ++ [])
  have hpieces : [put8 opcode, leBytes n v].flatten = put8 opcode ++ (leBytes n v ++ []) := by simp
  simp only [Decodes, hpieces]
  refine Eq.trans hdecode ?_
  simp only [operands, field_leBytes]
  rfl

theorem decodes_ret : Decodes [put8 0xc3] ⟨.ret, []⟩ := by
  rfl

end

/-! ## Other addresses -/

theorem withBit_reg (w : Bool) (reg : Nat) :
    withBit (wBit w) rexR reg = rexNum w (decide (8 ≤ reg)) false false := by
  cases w <;> by_cases hreg : 8 ≤ reg <;>
    simp only [withBit, wBit, hreg, if_true, if_false, decide_true, decide_false] <;> rfl

section
variable {opcode : Nat} {op : Op} {reg : RegNo} {v : UInt32}

theorem decode_ripRel (hop : Opcode (put8 opcode) form) :
    decode (emitModRegRmRiprel rexW opcode 0 reg ++ [put32 v.toNat]).flatten =
      operands (rexOf true reg 0) .quad form
        (put8 (0 <<< 6 ||| lowBits reg <<< 3 ||| 5) ++ (put32 v.toNat ++ [])) := by
  have hdecode := hop.decode false true (decide (8 ≤ reg.val)) false false
    (put8 (0 <<< 6 ||| lowBits reg <<< 3 ||| 5) ++ (put32 v.toNat ++ []))
  have hrex : withBit rexW rexR reg = rexNum true (decide (8 ≤ reg.val)) false false :=
    withBit_reg true reg
  simp only [emitModRegRmRiprel, hrex, flatten_append, flatten_cons, flatten_nil,
    append_nil, append_assoc] at hdecode ⊢
  exact hdecode

theorem modRm_ripRel_reg :
    modRm (rexOf true reg 0) (put8 (0 <<< 6 ||| lowBits reg <<< 3 ||| 5) ++ (put32 v.toNat ++ [])) =
      some (⟨lowBits reg, fun size => .mem size (.ripRel (signed 4 v.toNat))⟩, []) := by
  have hv : v.toNat % 256 ^ 4 = v.toNat := Nat.mod_eq_of_lt v.toNat_lt
  have hmod := modRm_ripRel (rexOf true reg 0) (lowBits_lt reg) v.toNat []
  rwa [hv] at hmod

theorem decodes_ripRel {arrange : Operand → Operand → List Operand}
    (arranged : Arranged form op .operand .operand arrange) (hop : Opcode (put8 opcode) form) :
    Decodes (emitModRegRmRiprel rexW opcode 0 reg ++ [put32 v.toNat])
      ⟨op, arrange (.reg .quad reg) (.mem .quad (.ripRel (signed 4 v.toNat)))⟩ := by
  rw [Decodes, decode_ripRel hop]
  simp only [arranged.operands, modRm_ripRel_reg, extend_rexOf, map_some, Width.size_operand]
  rfl
end

def rexOfSib (w : Bool) (reg base index : Nat) : Rex :=
  ⟨w || decide (8 ≤ reg) || decide (8 ≤ index) || decide (8 ≤ base), w, decide (8 ≤ reg),
    decide (8 ≤ index), decide (8 ≤ base)⟩

theorem withBit_sib (w : Bool) (reg base index : Nat) :
    withBit (withBit (withBit (withBit (wBit w) rexB base) rexX index) rexR reg) rexB 4 =
      rexNum w (decide (8 ≤ reg)) (decide (8 ≤ index)) (decide (8 ≤ base)) := by
  cases w <;> by_cases hreg : 8 ≤ reg <;> by_cases hbase : 8 ≤ base <;>
    by_cases hindex : 8 ≤ index <;>
    simp only [withBit, wBit, hreg, hbase, hindex, if_true, if_false, decide_true, decide_false,
      show ¬(8 : Nat) ≤ 4 by decide] <;>
    rfl

theorem scaleLog2_eq_some {scale : UInt32} {log2 : Nat} (h : scaleLog2 scale = some log2) :
    log2 < 4 ∧ 2 ^ log2 = scale.toNat := by
  simp only [scaleLog2] at h
  split_ifs at h with h1 h2 h4 h8
  all_goals
    cases h
    subst_vars
    exact ⟨by decide, rfl⟩

section
variable {narrow w : Bool} {opcode log2 : Nat} {reg base index : RegNo}

def sibPieces (narrow w : Bool) (opcode : Nat) (reg base : RegNo) (log2 : Nat) (index : RegNo) :
    List (List UInt8) :=
  sizePieces narrow ++
    emitModRegRmSib (withBit (withBit (wBit w) rexB base) rexX index) opcode 0 reg 4 ++
    [put8 (lowBits base ||| lowBits index <<< 3 ||| log2 <<< 6)]

theorem decode_sibPieces (hop : Opcode (put8 opcode) form) :
    decode (sibPieces narrow w opcode reg base log2 index).flatten =
      operands (rexOfSib w reg base index) (sizeOf narrow w) form
        (put8 (0 <<< 6 ||| lowBits reg <<< 3 ||| 4) ++
          (put8 (lowBits base ||| lowBits index <<< 3 ||| log2 <<< 6) ++ [])) := by
  have hdecode := hop.decode narrow w (decide (8 ≤ reg.val)) (decide (8 ≤ index.val))
    (decide (8 ≤ base.val)) (put8 (0 <<< 6 ||| lowBits reg <<< 3 ||| 4) ++
      (put8 (lowBits base ||| lowBits index <<< 3 ||| log2 <<< 6) ++ []))
  have hfour : lowBits 4 = 4 := rfl
  simp only [sibPieces, emitModRegRmSib, withBit_sib, hfour, flatten_append,
    flatten_cons, flatten_nil, append_nil, append_assoc] at hdecode ⊢
  exact hdecode

theorem modRm_sib_regs (hlog2 : log2 < 4) :
    modRm (rexOfSib w reg base index) (put8 (0 <<< 6 ||| lowBits reg <<< 3 ||| 4) ++
        (put8 (lowBits base ||| lowBits index <<< 3 ||| log2 <<< 6) ++ [])) =
      if lowBits base = 5 then none
      else some (⟨lowBits reg, fun size => .mem size (.based (some base.val)
        (if index.val = 4 then none else some (index.val, 2 ^ log2)) 0)⟩, []) := by
  have hbase : extend (rexOfSib w reg base index).b (lowBits base) = base := extend_lowBits base
  have hindex : extend (rexOfSib w reg base index).x (lowBits index) = index := extend_lowBits index
  rw [modRm_sib _ (lowBits_lt reg) hlog2 (lowBits_lt index) (lowBits_lt base), hbase, hindex]
  rfl

end

end X86
