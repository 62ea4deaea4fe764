import Mathlib.Data.UInt
import Mathlib.Tactic.Ring

/-!
# The encoding of x86-64 instructions

A decoder for the integer instructions of 64-bit mode: the prefixes for the operand size, REX, the
opcodes of one and two bytes, ModR/M, SIB, displacements and immediates. Segment, lock and repeat
prefixes, the prefix for the address size and the instructions of the other opcode maps are not
decoded. An immediate is the value that the instruction works with, of the size of its operand: the
sign of a field that is shorter is extended, except for the count of a shift.
-/
namespace X86

/-! ## Instructions -/

inductive Size
  | byte
  | word
  | long
  | quad
deriving DecidableEq, Repr

def Size.bytes : Size → Nat
  | .byte => 1
  | .word => 2
  | .long => 4
  | .quad => 8

inductive CondCode
  | o | no | b | ae | e | ne | be | a | s | ns | p | np | l | ge | le | g
deriving DecidableEq, Repr

inductive Op
  | add | or | adc | sbb | and | sub | xor | cmp
  | rol | ror | rcl | rcr | shl | shr | sar
  | test | not | neg | mul | imul | div | idiv | inc | dec
  | mov | movzx | movsx | push | pop | call | jmp | ret
  | jcc (cond : CondCode)
  | cmov (cond : CondCode)
  | set (cond : CondCode)
deriving DecidableEq, Repr

/-- The address of an operand in memory; an index has its scale. -/
inductive Address
  | based (base : Option Nat) (index : Option (Nat × Nat)) (disp : Int)
  | ripRel (disp : Int)
deriving DecidableEq, Repr

/-- Registers have the numbers 0 to 15. `highByte` is one of `%ah`, `%ch`, `%dh` and `%bh`. -/
inductive Operand
  | reg (size : Size) (r : Nat)
  | highByte (r : Nat)
  | mem (size : Size) (addr : Address)
  | imm (value : Nat)
  | rel (disp : Int)
deriving DecidableEq, Repr

/-- The operands are in the order of the manual, the destination first. -/
structure Instr where
  op : Op
  operands : List Operand
deriving DecidableEq, Repr

/-! ## Fields -/

def leNat : List UInt8 → Nat
  | [] => 0
  | b :: bs => b.toNat + 256 * leNat bs

/-- The number read as a signed number of `n` bytes. -/
def signed (n v : Nat) : Int := if 2 * v < 256 ^ n then v else (v : Int) - 256 ^ n

/-- The number of `n` bytes in an operand of the size, with its sign extended. -/
def extended (n : Nat) (size : Size) (v : Nat) : Nat := (signed n v % 256 ^ size.bytes).toNat

/-- The next `n` bytes. -/
def field (n : Nat) (bytes : List UInt8) : Option (Nat × List UInt8) :=
  if n ≤ bytes.length then some (leNat (bytes.take n), bytes.drop n) else none

structure Rex where
  present : Bool
  w : Bool
  r : Bool
  x : Bool
  b : Bool
deriving DecidableEq

/-- The number of a register from three bits and a bit of the REX prefix. -/
def extend (bit : Bool) (low : Nat) : Nat := if bit then low + 8 else low

def regOperand (rex : Rex) (size : Size) (r : Nat) : Operand :=
  if size = .byte ∧ rex.present = false ∧ 4 ≤ r ∧ r < 8 then .highByte (r - 4) else .reg size r

/-- The displacement for each `mod` of an operand in memory. -/
def displacement (mod : Nat) (bytes : List UInt8) : Option (Int × List UInt8) :=
  match mod with
  | 0 => some (0, bytes)
  | 1 => (field 1 bytes).map fun (v, rest) => (signed 1 v, rest)
  | _ => (field 4 bytes).map fun (v, rest) => (signed 4 v, rest)

/-- Index 4 is no index. Base 5 without a displacement is no base and 32 bits of displacement. -/
def sibAddress (rex : Rex) (mod : Nat) : List UInt8 → Option (Address × List UInt8)
  | [] => none
  | sib :: bytes =>
    let index := extend rex.x (sib.toNat / 8 % 8)
    let scaled := if index = 4 then none else some (index, 2 ^ (sib.toNat / 64))
    let base := sib.toNat % 8
    if base = 5 ∧ mod = 0 then
      (displacement 2 bytes).map fun (disp, rest) => (.based none scaled disp, rest)
    else
      (displacement mod bytes).map fun (disp, rest) =>
        (.based (some (extend rex.b base)) scaled disp, rest)

/-- `rm` 4 is followed by a SIB byte; 5 without a displacement is relative to the next
instruction. -/
def memAddress (rex : Rex) (mod rm : Nat) (bytes : List UInt8) : Option (Address × List UInt8) :=
  if rm = 4 then sibAddress rex mod bytes
  else if rm = 5 ∧ mod = 0 then
    (displacement 2 bytes).map fun (disp, rest) => (.ripRel disp, rest)
  else
    (displacement mod bytes).map fun (disp, rest) =>
      (.based (some (extend rex.b rm)) none disp, rest)

/-- The `reg` field of a ModR/M byte, and its operand in a register or in memory. -/
structure ModRm where
  reg : Nat
  operand : Size → Operand

def modRm (rex : Rex) : List UInt8 → Option (ModRm × List UInt8)
  | [] => none
  | b :: bytes =>
    let mod := b.toNat / 64
    let reg := b.toNat / 8 % 8
    let rm := b.toNat % 8
    if mod = 3 then some (⟨reg, fun size => regOperand rex size (extend rex.b rm)⟩, bytes)
    else (memAddress rex mod rm bytes).map fun (addr, rest) =>
      (⟨reg, fun size => .mem size addr⟩, rest)

/-! ## Opcodes -/

/-- The width of an operand: fixed, or the operand size of the instruction. -/
inductive Width
  | byte
  | word
  | quad
  | operand
deriving DecidableEq

def Width.size (operand : Size) : Width → Size
  | .byte => .byte
  | .word => .word
  | .quad => .quad
  | .operand => operand

/-- What follows the operands of the ModR/M byte. -/
inductive Last
  | nothing
  | imm8
  | simm8        -- with its sign extended
  | imm          -- of the operand size; four bytes with their sign extended for a quad
  | cl

/-- How the operands of an opcode are encoded. -/
inductive Form
  | rmReg (op : Op) (rm reg : Width)
  | regRm (op : Op) (reg rm : Width)
  | group (member : Nat → Option (Op × Width × Last))
  | accImm (op : Op)
  | opReg (op : Op) (r : Nat)
  | opRegImm (r : Nat)
  | rel (op : Op) (bytes : Nat)
  | plain (op : Op)

def aluOp (n : Nat) : Op :=
  match n with
  | 0 => .add
  | 1 => .or
  | 2 => .adc
  | 3 => .sbb
  | 4 => .and
  | 5 => .sub
  | 6 => .xor
  | _ => .cmp

def shiftOp (n : Nat) : Op :=
  match n with
  | 0 => .rol
  | 1 => .ror
  | 2 => .rcl
  | 3 => .rcr
  | 5 => .shr
  | 7 => .sar
  | _ => .shl

def condCode (n : Nat) : CondCode :=
  match n with
  | 0 => .o
  | 1 => .no
  | 2 => .b
  | 3 => .ae
  | 4 => .e
  | 5 => .ne
  | 6 => .be
  | 7 => .a
  | 8 => .s
  | 9 => .ns
  | 10 => .p
  | 11 => .np
  | 12 => .l
  | 13 => .ge
  | 14 => .le
  | _ => .g

/-- Opcodes `f6` and `f7`. -/
def unaryGroup (width : Width) (n : Nat) : Option (Op × Width × Last) :=
  match n with
  | 0 => some (.test, width, if width = .byte then .imm8 else .imm)
  | 2 => some (.not, width, .nothing)
  | 3 => some (.neg, width, .nothing)
  | 4 => some (.mul, width, .nothing)
  | 5 => some (.imul, width, .nothing)
  | 6 => some (.div, width, .nothing)
  | 7 => some (.idiv, width, .nothing)
  | _ => none

/-- Opcode `ff`. -/
def jumpGroup (n : Nat) : Option (Op × Width × Last) :=
  match n with
  | 0 => some (.inc, .operand, .nothing)
  | 1 => some (.dec, .operand, .nothing)
  | 2 => some (.call, .quad, .nothing)
  | 4 => some (.jmp, .quad, .nothing)
  | 6 => some (.push, .quad, .nothing)
  | _ => none

/-- The opcodes below `40`: an operation and six forms. -/
def aluForm (opcode : Nat) : Option Form :=
  match opcode % 8 with
  | 0 => some (.rmReg (aluOp (opcode / 8)) .byte .byte)
  | 1 => some (.rmReg (aluOp (opcode / 8)) .operand .operand)
  | 2 => some (.regRm (aluOp (opcode / 8)) .byte .byte)
  | 3 => some (.regRm (aluOp (opcode / 8)) .operand .operand)
  | 5 => some (.accImm (aluOp (opcode / 8)))
  | _ => none

def oneByteForm (opcode : Nat) : Option Form :=
  if opcode < 0x40 then aluForm opcode
  else if opcode < 0x50 then none
  else if opcode < 0x58 then some (.opReg .push (opcode % 8))
  else if opcode < 0x60 then some (.opReg .pop (opcode % 8))
  else if opcode < 0x70 then none
  else if opcode < 0x80 then some (.rel (.jcc (condCode (opcode % 16))) 1)
  else if 0xb8 ≤ opcode ∧ opcode < 0xc0 then some (.opRegImm (opcode % 8))
  else
    match opcode with
    | 0x81 => some (.group fun n => some (aluOp n, .operand, .imm))
    | 0x83 => some (.group fun n => some (aluOp n, .operand, .simm8))
    | 0x84 => some (.rmReg .test .byte .byte)
    | 0x85 => some (.rmReg .test .operand .operand)
    | 0x88 => some (.rmReg .mov .byte .byte)
    | 0x89 => some (.rmReg .mov .operand .operand)
    | 0x8a => some (.regRm .mov .byte .byte)
    | 0x8b => some (.regRm .mov .operand .operand)
    | 0xc1 => some (.group fun n => some (shiftOp n, .operand, .imm8))
    | 0xc3 => some (.plain .ret)
    | 0xc7 => some (.group fun n => if n = 0 then some (.mov, .operand, .imm) else none)
    | 0xd3 => some (.group fun n => some (shiftOp n, .operand, .cl))
    | 0xe8 => some (.rel .call 4)
    | 0xe9 => some (.rel .jmp 4)
    | 0xeb => some (.rel .jmp 1)
    | 0xf6 => some (.group (unaryGroup .byte))
    | 0xf7 => some (.group (unaryGroup .operand))
    | 0xff => some (.group jumpGroup)
    | _ => none

/-- The opcodes after `0f`. -/
def twoByteForm (opcode : Nat) : Option Form :=
  if 0x40 ≤ opcode ∧ opcode < 0x50 then
    some (.regRm (.cmov (condCode (opcode % 16))) .operand .operand)
  else if 0x80 ≤ opcode ∧ opcode < 0x90 then some (.rel (.jcc (condCode (opcode % 16))) 4)
  else if 0x90 ≤ opcode ∧ opcode < 0xa0 then
    some (.group fun _ => some (.set (condCode (opcode % 16)), .byte, .nothing))
  else
    match opcode with
    | 0xb6 => some (.regRm .movzx .operand .byte)
    | 0xb7 => some (.regRm .movzx .operand .word)
    | 0xbe => some (.regRm .movsx .operand .byte)
    | 0xbf => some (.regRm .movsx .operand .word)
    | _ => none

/-! ## Decoding -/

def immLen : Size → Nat
  | .byte => 1
  | .word => 2
  | .long | .quad => 4

def lastOperand (size : Size) (last : Last) (bytes : List UInt8) :
    Option (List Operand × List UInt8) :=
  match last with
  | .nothing => some ([], bytes)
  | .imm8 => (field 1 bytes).map fun (v, rest) => ([.imm v], rest)
  | .simm8 => (field 1 bytes).map fun (v, rest) => ([.imm (extended 1 size v)], rest)
  | .imm => (field (immLen size) bytes).map fun (v, rest) =>
      ([.imm (extended (immLen size) size v)], rest)
  | .cl => some ([.reg .byte 1], bytes)

def operands (rex : Rex) (size : Size) (form : Form) (bytes : List UInt8) :
    Option (Instr × List UInt8) :=
  match form with
  | .rmReg op rm reg => (modRm rex bytes).map fun (m, rest) =>
      (⟨op, [m.operand (rm.size size), regOperand rex (reg.size size) (extend rex.r m.reg)]⟩, rest)
  | .regRm op reg rm => (modRm rex bytes).map fun (m, rest) =>
      (⟨op, [regOperand rex (reg.size size) (extend rex.r m.reg), m.operand (rm.size size)]⟩, rest)
  | .group member => do
      let (m, rest) ← modRm rex bytes
      let (op, width, last) ← member m.reg
      let (operands, rest) ← lastOperand size last rest
      return (⟨op, m.operand (width.size size) :: operands⟩, rest)
  | .accImm op => (field (immLen size) bytes).map fun (v, rest) =>
      (⟨op, [.reg size 0, .imm (extended (immLen size) size v)]⟩, rest)
  | .opReg op r => some (⟨op, [.reg .quad (extend rex.b r)]⟩, bytes)
  | .opRegImm r =>
      (field size.bytes bytes).map fun (v, rest) =>
        (⟨.mov, [.reg size (extend rex.b r), .imm v]⟩, rest)
  | .rel op n => (field n bytes).map fun (v, rest) => (⟨op, [.rel (signed n v)]⟩, rest)
  | .plain op => some (⟨op, []⟩, bytes)

def takeRex : List UInt8 → Rex × List UInt8
  | [] => (⟨false, false, false, false, false⟩, [])
  | b :: bytes =>
    if b.toNat / 16 = 4 then
      (⟨true, b.toNat / 8 % 2 = 1, b.toNat / 4 % 2 = 1, b.toNat / 2 % 2 = 1, b.toNat % 2 = 1⟩, bytes)
    else (⟨false, false, false, false, false⟩, b :: bytes)

def operandSize (narrow : Bool) (rex : Rex) : Size :=
  if rex.w then .quad else if narrow then .word else .long

def opcodeForm : List UInt8 → Option (Form × List UInt8)
  | 0x0f :: b :: bytes => (twoByteForm b.toNat).map fun form => (form, bytes)
  | b :: bytes => (oneByteForm b.toNat).map fun form => (form, bytes)
  | [] => none

def decodeSized (narrow : Bool) (bytes : List UInt8) : Option (Instr × List UInt8) := do
  let (rex, bytes) := takeRex bytes
  let (form, bytes) ← opcodeForm bytes
  operands rex (operandSize narrow rex) form bytes

def decode : List UInt8 → Option (Instr × List UInt8)
  | 0x66 :: bytes => decodeSized true bytes
  | bytes => decodeSized false bytes

end X86
