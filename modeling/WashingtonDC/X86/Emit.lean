import WashingtonDC.X86.Decode

/-!
# Emitters of x86-64 code

The emitters of `emit_x86_64.c`: the bytes that each of them puts into the code buffer, and the
instruction that its name and its parameters stand for. Parameters are in the order of the source,
which is that of the GNU assembler, the source operand first. `x86asm_call_ptr` stands for two
instructions. The bytes are put in pieces, and the buffer may refuse to grow before any of them.
-/
namespace X86

/-- A register, `RAX` to `R15`. -/
abbrev RegNo := Fin 16

/-! ## Putting bytes -/

/-- The lowest `n` bytes of a number, the lowest first. -/
def leBytes : Nat → Nat → List UInt8
  | 0, _ => []
  | n + 1, v => UInt8.ofNat v :: leBytes n (v / 256)

def put8 (v : Nat) : List UInt8 := leBytes 1 v

def put16 (v : Nat) : List UInt8 := leBytes 2 v

def put32 (v : Nat) : List UInt8 := leBytes 4 v

def put64 (v : Nat) : List UInt8 := leBytes 8 v

/-- The bits of a signed number when `n` bytes of it are put. -/
def unsigned (n : Nat) (d : Int32) : Nat := (d.toInt % 256 ^ n).toNat

/-- The code buffer: where it goes on, how many bytes are left of how many, and whether
`exec_mem_grow` can make it as long as given. -/
structure Buffer where
  outp : UInt64
  outpLen : Nat
  allocLen : Nat
  canGrow : Nat → Bool

namespace Buffer

/-- `X86_64_GROW_SIZE`. -/
abbrev growSize : Nat := 32

/-- `try_grow`; without a result it raises an error. -/
def tryGrow (buf : Buffer) : Option Buffer :=
  if buf.canGrow (buf.allocLen + growSize) then
    some { buf with allocLen := buf.allocLen + growSize, outpLen := buf.outpLen + growSize }
  else none

/-- The functions `put8` to `put64`. One turn of growing is enough for eight bytes. -/
def put (buf : Buffer) (piece : List UInt8) : Option Buffer :=
  let take (buf : Buffer) : Buffer :=
    { buf with outp := buf.outp + UInt64.ofNat piece.length, outpLen := buf.outpLen - piece.length }
  if piece.length ≤ buf.outpLen then some (take buf) else buf.tryGrow.map take

/-- The bytes that are put of some pieces, and whether all of them are. -/
def puts (buf : Buffer) : List (List UInt8) → List UInt8 × Bool
  | [] => ([], true)
  | piece :: pieces =>
    match buf.put piece with
    | none => ([], false)
    | some buf => (piece ++ (buf.puts pieces).1, (buf.puts pieces).2)

end Buffer

/-! ## ModR/M and SIB -/

/-- `REX_W`, `REX_R`, `REX_X` and `REX_B`. -/
abbrev rexW : Nat := 8
abbrev rexR : Nat := 4
abbrev rexX : Nat := 2
abbrev rexB : Nat := 1

/-- A register number without its highest bit, which goes to the REX prefix. -/
def lowBits (r : Nat) : Nat := if 8 ≤ r then r - 8 else r

def withBit (rex bit r : Nat) : Nat := if 8 ≤ r then rex ||| bit else rex

def putRex (rex : Nat) : List (List UInt8) := if rex ≠ 0 then [put8 (rex ||| 0x40)] else []

/-- The ModR/M byte. A base of `RBP` gets a displacement of zero if `sibRbp` is set, one of `RSP`
gets a SIB byte. -/
def putModRegRm (mod reg rm : Nat) (sibRbp : Bool) : List (List UInt8) :=
  if sibRbp then [put8 (1 <<< 6 ||| reg <<< 3 ||| rm), put8 0]
  else put8 (mod <<< 6 ||| reg <<< 3 ||| rm) ::
    if rm = 4 ∧ mod ≠ 3 then [put8 (4 <<< 3 ||| 4)] else []

def emitModRegRm (rex opcode mod reg rm : Nat) : List (List UInt8) :=
  let rex := withBit (withBit rex rexR reg) rexB rm
  let sibRbp := decide (lowBits rm = 5 ∧ mod = 0)
  putRex rex ++ [put8 opcode] ++ putModRegRm mod (lowBits reg) (lowBits rm) sibRbp

def emitModRegRmSib (rex opcode mod reg rm : Nat) : List (List UInt8) :=
  let rex := withBit (withBit rex rexR reg) rexB rm
  putRex rex ++ [put8 opcode] ++ [put8 (mod <<< 6 ||| lowBits reg <<< 3 ||| lowBits rm)]

def emitModRegRmRiprel (rex opcode mod reg : Nat) : List (List UInt8) :=
  putRex (withBit rex rexR reg) ++ [put8 opcode] ++ [put8 (mod <<< 6 ||| lowBits reg <<< 3 ||| 5)]

def emitModRegRm2 (rex opcode1 opcode2 mod reg rm : Nat) : List (List UInt8) :=
  let rex := withBit (withBit rex rexR reg) rexB rm
  let sibRbp := decide (lowBits rm = 5 ∧ mod ≠ 3)
  putRex rex ++ [put8 opcode1, put8 opcode2] ++
    putModRegRm mod (lowBits reg) (lowBits rm) sibRbp

/-! ## The emitters -/

/-- The jumps with an opcode of one byte. -/
inductive Jump
  | jmp | jz | jnz | ja | jbe | jb | jl | jle | jnge | jns
deriving DecidableEq

namespace Jump

def opcode : Jump → Nat
  | jmp => 0xeb
  | jz => 0x74
  | jnz => 0x75
  | ja => 0x77
  | jbe => 0x76
  | jb => 0x72
  | jl => 0x7c
  | jle => 0x7e
  | jnge => 0x7c
  | jns => 0x79

def op : Jump → Op
  | jmp => .jmp
  | jz => .jcc .e
  | jnz => .jcc .ne
  | ja => .jcc .a
  | jbe => .jcc .be
  | jb => .jcc .b
  | jl => .jcc .l
  | jle => .jcc .le
  | jnge => .jcc .l
  | jns => .jcc .ns

end Jump

/-- `struct x86asm_lbl8`: where the label is, once it is defined, and the number of jumps that wait
for it. -/
structure Lbl8 where
  ptr : Option UInt64
  nJumpPoints : Nat

/-- `MAX_LABEL_JUMPS`. -/
abbrev maxLabelJumps : Nat := 32

def distance (start stop : UInt64) : Int := Int.bmod (stop.toNat - start.toNat) (2 ^ 64)

/-- A call of an emitter. Immediates and displacements have the types of the parameters. -/
inductive Emitter
  | callReg (regNo : RegNo)
  | jmpqReg64 (regNo : RegNo)
  | movImm16Reg (imm16 : UInt32) (regNo : RegNo)
  | movImm32Reg32 (imm32 : UInt32) (regNo : RegNo)
  | salImm8Reg64 (imm8 : UInt32) (regNo : RegNo)
  | xorReg64Reg64 (regSrc regDst : RegNo)
  | xorlReg32Reg32 (regSrc regDst : RegNo)
  | orReg64Reg64 (regSrc regDst : RegNo)
  | orlReg32Reg32 (regSrc regDst : RegNo)
  | ret
  | movImm64Reg64 (imm64 : UInt64) (regNo : RegNo)
  | call (dst : UInt64)
  | callPtr (ptr : UInt64)
  | movImm32Indreg32 (imm32 : UInt32) (regNo : RegNo)
  | movReg32Indreg32 (regSrc regDst : RegNo)
  | movqReg64Indreg64 (regSrc regDst : RegNo)
  | movReg64Reg64 (regSrc regDst : RegNo)
  | movqIndregReg (regSrc regDst : RegNo)
  | movqRiprelReg (relptr : UInt32) (regDst : RegNo)
  | movqRegRiprel (regDst : RegNo) (relptr : UInt32)
  | movqSibReg (regBase : RegNo) (scale : UInt32) (regIndex regDst : RegNo)
  | movlSibReg (regBase : RegNo) (scale : UInt32) (regIndex regDst : RegNo)
  | movwSibReg (regBase : RegNo) (scale : UInt32) (regIndex regDst : RegNo)
  | movqRegSib (regSrc regBase : RegNo) (scale : UInt32) (regIndex : RegNo)
  | movlRegSib (regSrc regBase : RegNo) (scale : UInt32) (regIndex : RegNo)
  | movIndreg32Reg32 (regSrc regDst : RegNo)
  | movIndreg16Reg16 (regSrc regDst : RegNo)
  | movbDisp8RegReg (disp8 : Int32) (regSrc regDst : RegNo)
  | movbRegDisp8Reg (regSrc : RegNo) (disp8 : Int32) (regDst : RegNo)
  | movlDisp8RegReg (disp8 : Int32) (regSrc regDst : RegNo)
  | movlDisp32RegReg (disp32 : Int32) (regSrc regDst : RegNo)
  | movqDisp8RegReg (disp8 : Int32) (regSrc regDst : RegNo)
  | movqDisp32RegReg (disp32 : Int32) (regSrc regDst : RegNo)
  | addImm32Eax (imm32 : UInt32)
  | addlReg32Reg32 (regSrc regDst : RegNo)
  | addqReg64Reg64 (regSrc regDst : RegNo)
  | sublReg32Reg32 (regSrc regDst : RegNo)
  | movReg32Reg32 (regSrc regDst : RegNo)
  | pushqReg64 (reg : RegNo)
  | popqReg64 (reg : RegNo)
  | andImm32Rax (imm32 : UInt32)
  | andlImm32Reg32 (imm32 : UInt32) (regNo : RegNo)
  | andlReg32Reg32 (regSrc regDst : RegNo)
  | cmpImm32Reg64 (imm32 : UInt32) (reg64 : RegNo)
  | xorlImm32Eax (imm32 : UInt32)
  | xorImm32Rax (imm32 : UInt32)
  | notlReg32 (reg : RegNo)
  | notReg64 (reg : RegNo)
  | movsxIndreg16Reg32 (regSrc regDst : RegNo)
  | cmplImm8Reg32 (imm8 : UInt32) (regNo : RegNo)
  | cmplImm32Reg32 (imm32 : UInt32) (regNo : RegNo)
  | cmplReg32Reg32 (regLhs regRhs : RegNo)
  | cmpqReg64Reg64 (regLhs regRhs : RegNo)
  | jumpDisp8 (jump : Jump) (disp8 : Int32)
  | jumpLbl8 (jump : Jump) (lbl : Lbl8)
  | movsxReg16Reg32 (regSrc regDst : RegNo)
  | addqImm8Reg (imm8 : UInt8) (reg : RegNo)
  | movzxwIndregReg (regSrc regDst : RegNo)
  | orlImm32Reg32 (imm32 : UInt32) (regNo : RegNo)
  | xorlImm32Reg32 (imm32 : UInt32) (regNo : RegNo)
  | inclReg32 (regNo : RegNo)
  | shllImm8Reg32 (imm8 : UInt32) (regNo : RegNo)
  | sarlImm8Reg32 (imm8 : UInt32) (regNo : RegNo)
  | shrlImm8Reg32 (imm8 : UInt32) (regNo : RegNo)
  | shrlClReg32 (regNo : RegNo)
  | sarlClReg32 (regNo : RegNo)
  | shllClReg32 (regNo : RegNo)
  | mullReg32 (regNo : RegNo)
  | testlReg32Reg32 (regSrc regDst : RegNo)
  | testqReg64Reg64 (regSrc regDst : RegNo)
  | testlImm32Reg32 (imm32 : UInt32) (regNo : RegNo)
  | cmovnelReg32Reg32 (regSrc regDst : RegNo)
  | cmovelReg32Reg32 (regSrc regDst : RegNo)
  | cmovalReg32Reg32 (regSrc regDst : RegNo)
  | cmovglReg32Reg32 (regSrc regDst : RegNo)
  | cmovaelReg32Reg32 (regSrc regDst : RegNo)
  | cmovgelReg32Reg32 (regSrc regDst : RegNo)
  | setnzlReg32 (regNo : RegNo)
  | neglReg32 (regNo : RegNo)

/-- What an emitter does: it puts some pieces and then it may raise an error. -/
structure Body where
  pieces : List (List UInt8)
  raises : Bool

def Body.of (pieces : List (List UInt8)) : Body := ⟨pieces, false⟩

/-- The `switch` on the scale. -/
def scaleLog2 (scale : UInt32) : Option Nat :=
  if scale = 1 then some 0
  else if scale = 2 then some 1
  else if scale = 4 then some 2
  else if scale = 8 then some 3
  else none

/-- The emitters with a SIB byte: `width` is a prefix for the operand size, if there is one. -/
def emitSib (width : List (List UInt8)) (rex opcode reg regBase : Nat) (scale : UInt32)
    (regIndex : Nat) : Body :=
  match scaleLog2 scale with
  | none => ⟨[], true⟩
  | some log2 =>
    let rex := withBit (withBit rex rexB regBase) rexX regIndex
    .of (width ++ emitModRegRmSib rex opcode 0 reg 4 ++
      [put8 (lowBits regBase ||| lowBits regIndex <<< 3 ||| log2 <<< 6)])

def emitOpReg (opcode reg : Nat) : List (List UInt8) :=
  putRex (withBit 0 rexB reg) ++ [put8 (opcode ||| lowBits reg)]

def emitMovImm64Reg64 (imm64 : UInt64) (regNo : Nat) : List (List UInt8) :=
  [put8 (withBit (0x40 ||| rexW) rexB regNo), put8 (0xb8 ||| lowBits regNo), put64 imm64.toNat]

def emitCallReg (regNo : Nat) : List (List UInt8) := emitModRegRm 0 0xff 3 2 regNo

/-- The number of bytes from the start of the buffer's free part, or none if it aborts. -/
def emitCall (outp dst : UInt64) : Body :=
  let offs := (dst - outp).toNat
  if 0x7fffffff < offs then ⟨[], true⟩ else .of [put8 0xe8, put32 offs]

/-- The emitters of jumps to a label: the byte of the displacement, after
`x86asm_lbl8_push_jmp_pt`. Without a displacement the error comes after a placeholder was put. -/
def emitJumpLbl8 (jump : Jump) (outp : UInt64) (lbl : Lbl8) : Body :=
  match lbl.ptr with
  | some ptr =>
    let offs := distance (outp + 2) ptr
    if 0x7f < offs ∨ offs < -0x80 then ⟨[put8 jump.opcode, put8 0], true⟩
    else .of [put8 jump.opcode, put8 (offs % 256).toNat]
  | none => ⟨[put8 jump.opcode, put8 0], decide (maxLabelJumps ≤ lbl.nJumpPoints)⟩

def Emitter.body (outp : UInt64) : Emitter → Body
  | callReg r => .of (emitCallReg r)
  | jmpqReg64 r => .of (emitModRegRm 0 0xff 3 4 r)
  | movImm16Reg imm16 r => .of ([put8 0x66] ++ emitModRegRm 0 0xc7 3 0 r ++ [put16 imm16.toNat])
  | movImm32Reg32 imm32 r => .of (emitModRegRm 0 0xc7 3 0 r ++ [put32 imm32.toNat])
  | salImm8Reg64 imm8 r => .of (emitModRegRm rexW 0xc1 3 4 r ++ [put8 imm8.toNat])
  | xorReg64Reg64 src dst => .of (emitModRegRm rexW 0x33 3 dst src)
  | xorlReg32Reg32 src dst => .of (emitModRegRm 0 0x33 3 dst src)
  | orReg64Reg64 src dst => .of (emitModRegRm rexW 0x09 3 src dst)
  | orlReg32Reg32 src dst => .of (emitModRegRm 0 0x09 3 src dst)
  | ret => .of [put8 0xc3]
  | movImm64Reg64 imm64 r => .of (emitMovImm64Reg64 imm64 r)
  | call dst => emitCall outp dst
  | callPtr ptr => .of (emitMovImm64Reg64 ptr 10 ++ emitCallReg 10)
  | movImm32Indreg32 _ r => .of (emitModRegRm 0 0xc7 0 0 r)
  | movReg32Indreg32 src dst => .of (emitModRegRm 0 0x89 0 src dst)
  | movqReg64Indreg64 src dst => .of (emitModRegRm rexW 0x89 0 src dst)
  | movReg64Reg64 src dst => .of (emitModRegRm rexW 0x89 3 src dst)
  | movqIndregReg src dst => .of (emitModRegRm rexW 0x8b 0 dst src)
  | movqRiprelReg relptr dst => .of (emitModRegRmRiprel rexW 0x8b 0 dst ++ [put32 relptr.toNat])
  | movqRegRiprel dst relptr => .of (emitModRegRmRiprel rexW 0x89 0 dst ++ [put32 relptr.toNat])
  | movqSibReg base scale index dst => emitSib [] rexW 0x8b dst base scale index
  | movlSibReg base scale index dst => emitSib [] 0 0x8b dst base scale index
  | movwSibReg base scale index dst => emitSib [put8 0x66] 0 0x8b dst base scale index
  | movqRegSib src base scale index => emitSib [] rexW 0x89 src base scale index
  | movlRegSib src base scale index => emitSib [] 0 0x89 src base scale index
  | movIndreg32Reg32 src dst => .of (emitModRegRm 0 0x8b 0 dst src)
  | movIndreg16Reg16 src dst => .of ([put8 0x66] ++ emitModRegRm 0 0x8b 0 dst src)
  | movbDisp8RegReg disp8 src dst =>
    .of (emitModRegRm 0 0x8a 1 dst src ++ [put8 (unsigned 1 disp8)])
  | movbRegDisp8Reg src disp8 dst =>
    .of (emitModRegRm 0 0x88 1 src dst ++ [put8 (unsigned 1 disp8)])
  | movlDisp8RegReg disp8 src dst =>
    .of (emitModRegRm 0 0x8b 1 dst src ++ [put8 (unsigned 1 disp8)])
  | movlDisp32RegReg disp32 src dst =>
    .of (emitModRegRm 0 0x8b 2 dst src ++ [put32 (unsigned 4 disp32)])
  | movqDisp8RegReg disp8 src dst =>
    .of (emitModRegRm rexW 0x8b 1 dst src ++ [put8 (unsigned 1 disp8)])
  | movqDisp32RegReg disp32 src dst =>
    .of (emitModRegRm rexW 0x8b 2 dst src ++ [put32 (unsigned 4 disp32)])
  | addImm32Eax imm32 => .of [put8 0x05, put32 imm32.toNat]
  | addlReg32Reg32 src dst => .of (emitModRegRm 0 3 3 dst src)
  | addqReg64Reg64 src dst => .of (emitModRegRm rexW 3 3 dst src)
  | sublReg32Reg32 src dst => .of (emitModRegRm 0 0x29 3 src dst)
  | movReg32Reg32 src dst => .of (emitModRegRm 0 0x89 3 src dst)
  | pushqReg64 reg => .of (emitOpReg 0x50 reg)
  | popqReg64 reg => .of (emitOpReg 0x58 reg)
  | andImm32Rax imm32 => .of [put8 (0x40 ||| rexW), put8 0x25, put32 imm32.toNat]
  | andlImm32Reg32 imm32 r => .of (emitModRegRm 0 0x81 3 4 r ++ [put32 imm32.toNat])
  | andlReg32Reg32 src dst => .of (emitModRegRm 0 0x21 3 src dst)
  | cmpImm32Reg64 imm32 r => .of (emitModRegRm rexW 0x81 3 7 r ++ [put32 imm32.toNat])
  | xorlImm32Eax imm32 => .of [put8 0x35, put32 imm32.toNat]
  | xorImm32Rax imm32 => .of [put8 (0x40 ||| rexW), put8 0x35, put32 imm32.toNat]
  | notlReg32 reg => .of (emitModRegRm 0 0xf7 3 2 reg)
  | notReg64 reg => .of (emitModRegRm rexW 0xf7 3 2 reg)
  | movsxIndreg16Reg32 src dst => .of (emitModRegRm2 0 0x0f 0xbf 0 dst src)
  | cmplImm8Reg32 imm8 r => .of (emitModRegRm 0 0x83 3 7 r ++ [put8 imm8.toNat])
  | cmplImm32Reg32 imm32 r => .of (emitModRegRm 0 0x81 3 7 r ++ [put32 imm32.toNat])
  | cmplReg32Reg32 lhs rhs => .of (emitModRegRm 0 0x39 3 lhs rhs)
  | cmpqReg64Reg64 lhs rhs => .of (emitModRegRm rexW 0x39 3 lhs rhs)
  | jumpDisp8 jump disp8 => .of [put8 jump.opcode, put8 (unsigned 1 disp8)]
  | jumpLbl8 jump lbl => emitJumpLbl8 jump outp lbl
  | movsxReg16Reg32 src dst => .of (emitModRegRm2 0 0x0f 0xbf 3 dst src)
  | addqImm8Reg imm8 reg => .of (emitModRegRm rexW 0x83 3 0 reg ++ [put8 imm8.toNat])
  | movzxwIndregReg src dst => .of (emitModRegRm2 0 0x0f 0xb7 0 dst src)
  | orlImm32Reg32 imm32 r => .of (emitModRegRm 0 0x81 3 1 r ++ [put32 imm32.toNat])
  | xorlImm32Reg32 imm32 r => .of (emitModRegRm 0 0x81 3 6 r ++ [put32 imm32.toNat])
  | inclReg32 r => .of (emitModRegRm 0 0xff 3 0 r)
  | shllImm8Reg32 imm8 r => .of (emitModRegRm 0 0xc1 3 4 r ++ [put8 imm8.toNat])
  | sarlImm8Reg32 imm8 r => .of (emitModRegRm 0 0xc1 3 7 r ++ [put8 imm8.toNat])
  | shrlImm8Reg32 imm8 r => .of (emitModRegRm 0 0xc1 3 5 r ++ [put8 imm8.toNat])
  | shrlClReg32 r => .of (emitModRegRm 0 0xd3 3 5 r)
  | sarlClReg32 r => .of (emitModRegRm 0 0xd3 3 7 r)
  | shllClReg32 r => .of (emitModRegRm 0 0xd3 3 4 r)
  | mullReg32 r => .of (emitModRegRm 0 0xf7 3 4 r)
  | testlReg32Reg32 src dst => .of (emitModRegRm 0 0x85 3 src dst)
  | testqReg64Reg64 src dst => .of (emitModRegRm rexW 0x85 3 src dst)
  | testlImm32Reg32 imm32 r => .of (emitModRegRm 0 0xf7 3 0 r ++ [put32 imm32.toNat])
  | cmovnelReg32Reg32 src dst => .of (emitModRegRm2 0 0x0f 0x45 3 dst src)
  | cmovelReg32Reg32 src dst => .of (emitModRegRm2 0 0x0f 0x44 3 dst src)
  | cmovalReg32Reg32 src dst => .of (emitModRegRm2 0 0x0f 0x47 3 dst src)
  | cmovglReg32Reg32 src dst => .of (emitModRegRm2 0 0x0f 0x4f 3 dst src)
  | cmovaelReg32Reg32 src dst => .of (emitModRegRm2 0 0x0f 0x43 3 dst src)
  | cmovgelReg32Reg32 src dst => .of (emitModRegRm2 0 0x0f 0x4d 3 dst src)
  | setnzlReg32 r => .of (emitModRegRm2 0 0x0f 0x95 3 0 r)
  | neglReg32 r => .of (emitModRegRm 0 0xf7 3 3 r)

/-! ## The instructions that the names stand for -/

section
variable (op : Op) (size : Size)

/-- `op %<reg>`. -/
def unary (r : RegNo) : Option Instr := some ⟨op, [.reg size r]⟩

/-- `op %<src>, %<dst>`. -/
def regReg (src dst : RegNo) : Option Instr := some ⟨op, [.reg size dst, .reg size src]⟩

/-- `op $<imm>, %<reg>`. -/
def immReg (v r : Nat) : Option Instr := some ⟨op, [.reg size r, .imm v]⟩

/-- `op %cl, %<reg>`. -/
def clReg (r : RegNo) : Option Instr := some ⟨op, [.reg size r, .reg .byte 1]⟩
end

/-- `<disp>(%<base>)`. -/
def baseDisp (base : RegNo) (disp : Int) : Address := .based (some base) none disp

/-- `(%<base>, <scale>, %<index>)`. -/
def scaled (base : RegNo) (scale : UInt32) (index : RegNo) : Address :=
  .based (some base) (some (index, scale.toNat)) 0

def load (size : Size) (addr : Address) (dst : RegNo) : Option Instr :=
  some ⟨.mov, [.reg size dst, .mem size addr]⟩

def store (size : Size) (src : RegNo) (addr : Address) : Option Instr :=
  some ⟨.mov, [.mem size addr, .reg size src]⟩

def simm8 (imm8 : UInt32) : Nat :=
  if imm8.toNat < 2 ^ 8 then extended 1 .long imm8.toNat else imm8.toNat

/-- The instruction of an emitter. The immediates that the source says are sign-extended are; a
parameter for a byte that has more than eight bits is itself the extended value. A jump to a label
that is not defined yet has a displacement of zero until it is. The condition of a byte goes to the
lowest byte of the register. -/
def Emitter.instr (outp : UInt64) : Emitter → Option Instr
  | callReg r => unary .call .quad r
  | jmpqReg64 r => unary .jmp .quad r
  | movImm16Reg imm16 r => immReg .mov .word imm16.toNat r
  | movImm32Reg32 imm32 r => immReg .mov .long imm32.toNat r
  | salImm8Reg64 imm8 r => immReg .shl .quad imm8.toNat r
  | xorReg64Reg64 src dst => regReg .xor .quad src dst
  | xorlReg32Reg32 src dst => regReg .xor .long src dst
  | orReg64Reg64 src dst => regReg .or .quad src dst
  | orlReg32Reg32 src dst => regReg .or .long src dst
  | ret => some ⟨.ret, []⟩
  | movImm64Reg64 imm64 r => immReg .mov .quad imm64.toNat r
  | call dst => some ⟨.call, [.rel (distance (outp + 5) dst)]⟩
  | callPtr _ => none
  | movImm32Indreg32 imm32 r => some ⟨.mov, [.mem .long (baseDisp r 0), .imm imm32.toNat]⟩
  | movReg32Indreg32 src dst => store .long src (baseDisp dst 0)
  | movqReg64Indreg64 src dst => store .quad src (baseDisp dst 0)
  | movReg64Reg64 src dst => regReg .mov .quad src dst
  | movqIndregReg src dst => load .quad (baseDisp src 0) dst
  | movqRiprelReg relptr dst => load .quad (.ripRel (signed 4 relptr.toNat)) dst
  | movqRegRiprel dst relptr => store .quad dst (.ripRel (signed 4 relptr.toNat))
  | movqSibReg base scale index dst => load .quad (scaled base scale index) dst
  | movlSibReg base scale index dst => load .long (scaled base scale index) dst
  | movwSibReg base scale index dst => load .word (scaled base scale index) dst
  | movqRegSib src base scale index => store .quad src (scaled base scale index)
  | movlRegSib src base scale index => store .long src (scaled base scale index)
  | movIndreg32Reg32 src dst => load .long (baseDisp src 0) dst
  | movIndreg16Reg16 src dst => load .word (baseDisp src 0) dst
  | movbDisp8RegReg disp8 src dst => load .byte (baseDisp src disp8.toInt) dst
  | movbRegDisp8Reg src disp8 dst => store .byte src (baseDisp dst disp8.toInt)
  | movlDisp8RegReg disp8 src dst => load .long (baseDisp src disp8.toInt) dst
  | movlDisp32RegReg disp32 src dst => load .long (baseDisp src disp32.toInt) dst
  | movqDisp8RegReg disp8 src dst => load .quad (baseDisp src disp8.toInt) dst
  | movqDisp32RegReg disp32 src dst => load .quad (baseDisp src disp32.toInt) dst
  | addImm32Eax imm32 => immReg .add .long imm32.toNat 0
  | addlReg32Reg32 src dst => regReg .add .long src dst
  | addqReg64Reg64 src dst => regReg .add .quad src dst
  | sublReg32Reg32 src dst => regReg .sub .long src dst
  | movReg32Reg32 src dst => regReg .mov .long src dst
  | pushqReg64 reg => unary .push .quad reg
  | popqReg64 reg => unary .pop .quad reg
  | andImm32Rax imm32 => immReg .and .quad (extended 4 .quad imm32.toNat) 0
  | andlImm32Reg32 imm32 r => immReg .and .long imm32.toNat r
  | andlReg32Reg32 src dst => regReg .and .long src dst
  | cmpImm32Reg64 imm32 r => immReg .cmp .quad (extended 4 .quad imm32.toNat) r
  | xorlImm32Eax imm32 => immReg .xor .long imm32.toNat 0
  | xorImm32Rax imm32 => immReg .xor .quad (extended 4 .quad imm32.toNat) 0
  | notlReg32 reg => unary .not .long reg
  | notReg64 reg => unary .not .quad reg
  | movsxIndreg16Reg32 src dst => some ⟨.movsx, [.reg .long dst, .mem .word (baseDisp src 0)]⟩
  | cmplImm8Reg32 imm8 r => immReg .cmp .long (simm8 imm8) r
  | cmplImm32Reg32 imm32 r => immReg .cmp .long imm32.toNat r
  | cmplReg32Reg32 lhs rhs => regReg .cmp .long lhs rhs
  | cmpqReg64Reg64 lhs rhs => regReg .cmp .quad lhs rhs
  | jumpDisp8 jump disp8 => some ⟨jump.op, [.rel disp8.toInt]⟩
  | jumpLbl8 jump lbl => some ⟨jump.op, [.rel ((lbl.ptr.map (distance (outp + 2))).getD 0)]⟩
  | movsxReg16Reg32 src dst => some ⟨.movsx, [.reg .long dst, .reg .word src]⟩
  | addqImm8Reg imm8 reg => immReg .add .quad imm8.toNat reg
  | movzxwIndregReg src dst => some ⟨.movzx, [.reg .long dst, .mem .word (baseDisp src 0)]⟩
  | orlImm32Reg32 imm32 r => immReg .or .long imm32.toNat r
  | xorlImm32Reg32 imm32 r => immReg .xor .long imm32.toNat r
  | inclReg32 r => unary .inc .long r
  | shllImm8Reg32 imm8 r => immReg .shl .long imm8.toNat r
  | sarlImm8Reg32 imm8 r => immReg .sar .long imm8.toNat r
  | shrlImm8Reg32 imm8 r => immReg .shr .long imm8.toNat r
  | shrlClReg32 r => clReg .shr .long r
  | sarlClReg32 r => clReg .sar .long r
  | shllClReg32 r => clReg .shl .long r
  | mullReg32 r => unary .mul .long r
  | testlReg32Reg32 src dst => regReg .test .long src dst
  | testqReg64Reg64 src dst => regReg .test .quad src dst
  | testlImm32Reg32 imm32 r => immReg .test .long imm32.toNat r
  | cmovnelReg32Reg32 src dst => regReg (.cmov .ne) .long src dst
  | cmovelReg32Reg32 src dst => regReg (.cmov .e) .long src dst
  | cmovalReg32Reg32 src dst => regReg (.cmov .a) .long src dst
  | cmovglReg32Reg32 src dst => regReg (.cmov .g) .long src dst
  | cmovaelReg32Reg32 src dst => regReg (.cmov .ae) .long src dst
  | cmovgelReg32Reg32 src dst => regReg (.cmov .ge) .long src dst
  | setnzlReg32 r => unary (.set .ne) .byte r
  | neglReg32 r => unary .neg .long r

/-! ## What an emitter leaves in the buffer -/

/-- The bytes that were put, and whether an error was raised. -/
structure Emitted where
  bytes : List UInt8
  raised : Bool

def Emitter.emit (e : Emitter) (buf : Buffer) : Emitted :=
  let body := e.body buf.outp
  let (bytes, all) := buf.puts body.pieces
  ⟨bytes, !all || body.raises⟩

/-- The bytes are the instruction of the emitter and nothing else, or an error was raised and there
are no bytes. -/
def Emitter.Right (e : Emitter) (buf : Buffer) : Prop :=
  if (e.emit buf).raised then (e.emit buf).bytes = []
  else ∃ instr ∈ e.instr buf.outp, decode (e.emit buf).bytes = some (instr, [])

end X86
