import WashingtonDC.ExecMem.Runs
import WashingtonDC.Lockstep
import WashingtonDC.X86.Emit

/-!
# Jumps to labels

The assembler writes to a block of executable memory, which `exec_mem_grow` makes longer when it is
full. A jump to an 8-bit label that is not defined yet is put with a placeholder and patched when
the label is defined. Here the bytes are those of the heap that the allocator keeps, so that
growing is the call of the allocator with its writes to the free list, and a run is any sequence of
jumps, definitions and other bytes, with any number of labels.

A label is defined once. A second definition would patch the jumps from before the first one again
and leave those behind it; nothing is claimed for it.
-/
namespace X86

open ByteMemory ExecMem Lockstep

inductive Error
  | integrity
  | overflow
  | tooBig
  | tooSmall
deriving DecidableEq

/-- `struct lbl_jmp_pt`: the displacement and the address that it is relative to. -/
structure JmpPt where
  offs : Nat
  relPos : Nat

/-- `struct x86asm_lbl8`; it is undefined as long as its pointer is 0. -/
structure Label where
  ptr : Nat
  jumpPoints : List JmpPt

/-- The static variables of the assembler, the heap that it writes to and the labels. The lengths
are below that of the region, so their sums do not wrap around. -/
structure Asm (ι : Type) where
  heap : Heap
  allocStart : Nat
  allocLen : Nat
  outp : Nat
  outpLen : Nat
  lbls : ι → Label

variable {ι : Type}

namespace Asm

def tryGrow (r : Region) (asm : Asm ι) : Except Error (Asm ι) :=
  if asm.allocStart = 0 then .error .integrity
  else
    match execMemGrow r x86_64AllocSize asm.heap asm.allocStart
      (asm.allocLen + x86_64GrowSize) with
    | none => .error .overflow
    | some (heap, ret) =>
      if ret ≠ 0 then .error .overflow
      else .ok { asm with
        heap
        allocLen := asm.allocLen + x86_64GrowSize
        outpLen := asm.outpLen + x86_64GrowSize }

/-- The lowest `n` bytes of `v` at `outp`. -/
def write (asm : Asm ι) (n v : Nat) : Asm ι :=
  { asm with
    heap := { asm.heap with mem := ByteMemory.store asm.heap.mem asm.outp n v }
    outp := asm.outp + n
    outpLen := asm.outpLen - n }

/-- The functions `put8` to `put64`. One turn of growing is enough for eight bytes. -/
def put (r : Region) (asm : Asm ι) (n v : Nat) : Except Error (Asm ι) :=
  if n ≤ asm.outpLen then .ok (asm.write n v) else (asm.tryGrow r).map fun asm => asm.write n v

def put8 (r : Region) (asm : Asm ι) (v : UInt8) : Except Error (Asm ι) := asm.put r 1 v.toNat

def put16 (r : Region) (asm : Asm ι) (v : UInt16) : Except Error (Asm ι) := asm.put r 2 v.toNat

def put32 (r : Region) (asm : Asm ι) (v : UInt32) : Except Error (Asm ι) := asm.put r 4 v.toNat

def put64 (r : Region) (asm : Asm ι) (v : UInt64) : Except Error (Asm ι) := asm.put r 8 v.toNat

def dispByte (offs : Int) : UInt8 := UInt8.ofNat (offs % 256).toNat

def patch (asm : Asm ι) (ptr : Nat) (pt : JmpPt) : Except Error (Asm ι) :=
  let offs : Int := ptr - pt.relPos
  if 127 < offs then .error .tooBig
  else if offs < -128 then .error .tooSmall
  else .ok { asm with
    heap := { asm.heap with mem := Function.update asm.heap.mem pt.offs (dispByte offs) } }

variable [DecidableEq ι]

def lbl8PushJmpPt (asm : Asm ι) (l : ι) (pt : JmpPt) : Except Error (Asm ι) :=
  let lbl := asm.lbls l
  if lbl.ptr ≠ 0 then asm.patch lbl.ptr pt
  else if maxLabelJumps ≤ lbl.jumpPoints.length then .error .overflow
  else .ok { asm with
    lbls := Function.update asm.lbls l { lbl with jumpPoints := lbl.jumpPoints ++ [pt] } }

/-- The emitters of jumps to a label, such as `x86asm_jmp_lbl8`. -/
def jumpLbl8 (r : Region) (asm : Asm ι) (jump : Jump) (l : ι) : Except Error (Asm ι) := do
  let asm ← asm.put8 r (UInt8.ofNat jump.opcode)
  let pt : JmpPt := ⟨asm.outp, asm.outp + 1⟩
  let asm ← asm.put8 r 0
  asm.lbl8PushJmpPt l pt

def lbl8Define (asm : Asm ι) (l : ι) : Except Error (Asm ι) :=
  let lbl := asm.lbls l
  let defined : Asm ι :=
    { asm with lbls := Function.update asm.lbls l { lbl with ptr := asm.outp } }
  lbl.jumpPoints.foldlM (fun asm' pt => asm'.patch asm.outp pt) defined

end Asm

/-! ## Runs -/

/-- A jump that was put: its label and the address behind it. -/
structure Site (ι : Type) where
  jump : Jump
  lbl : ι
  rel : Nat

def Site.point (a : Site ι) : JmpPt := ⟨a.rel - 1, a.rel⟩

/-- The assembler and the jumps that it has put so far. -/
structure Session (ι : Type) where
  asm : Asm ι
  jumps : List (Site ι)

/-- Every instruction other than a jump to a label is put as a sequence of numbers. -/
inductive Action (ι : Type)
  | put8 (v : UInt8)
  | put16 (v : UInt16)
  | put32 (v : UInt32)
  | put64 (v : UInt64)
  | jump (jump : Jump) (lbl : ι)
  | define (lbl : ι)

namespace Session

def mem (s : Session ι) : Memory := s.asm.heap.mem

def step [DecidableEq ι] (r : Region) (s : Session ι) : Action ι → Except Error (Session ι)
  | .put8 v => (s.asm.put8 r v).map fun asm => { s with asm }
  | .put16 v => (s.asm.put16 r v).map fun asm => { s with asm }
  | .put32 v => (s.asm.put32 r v).map fun asm => { s with asm }
  | .put64 v => (s.asm.put64 r v).map fun asm => { s with asm }
  | .jump jump l =>
    (s.asm.jumpLbl8 r jump l).map fun asm => ⟨asm, s.jumps ++ [⟨jump, l, s.asm.outp + 2⟩]⟩
  | .define l => (s.asm.lbl8Define l).map fun asm => { s with asm }

def run [DecidableEq ι] (r : Region) (s : Session ι) (acts : List (Action ι)) :
    Except Error (Session ι) :=
  acts.foldlM (step r) s

end Session

/-! ## The block that is written -/

namespace Asm

/-- The assembler writes to a block that is in use, and to its end. -/
structure Ready (r : Region) (asm : Asm ι) : Prop where
  block : ∃ pre s post, Inv r asm.heap (pre ++ [s] ++ post) ∧ s.tag = some asm.allocLen ∧
    asm.allocStart = s.start + 16
  first : asm.allocStart ≤ asm.outp
  last : asm.outp + asm.outpLen = asm.allocStart + asm.allocLen

/-- Bytes were put and nothing else was changed up to where they begin. -/
structure Extends (asm asm' : Asm ι) (n : Nat) : Prop where
  start : asm'.allocStart = asm.allocStart
  outp : asm'.outp = asm.outp + n
  lbls : asm'.lbls = asm.lbls
  kept : ∀ x, asm.allocStart ≤ x → x < asm.outp → asm'.heap.mem x = asm.heap.mem x

variable {r : Region} {asm asm' asm'' : Asm ι} {n m v : Nat}

theorem Ready.pos (ready : Ready r asm) : 0 < asm.outp := by
  obtain ⟨⟨pre, s, post, -, -, hstart⟩, hfirst, -⟩ := ready
  omega

theorem Extends.trans (h : Extends asm asm' n) (h' : Extends asm' asm'' m) :
    Extends asm asm'' (n + m) := by
  refine ⟨h'.start.trans h.start, ?_, h'.lbls.trans h.lbls, fun x hx hx' => ?_⟩
  · rw [h'.outp, h.outp, add_assoc]
  · have hstart := h.start
    have houtp := h.outp
    rw [h'.kept x (by omega) (by omega), h.kept x hx hx']

section
variable (ready : Ready r asm)
include ready

theorem write_spec (room : n ≤ asm.outpLen) :
    Ready r (asm.write n v) ∧ Extends asm (asm.write n v) n := by
  obtain ⟨⟨pre, s, post, inv, live, hstart⟩, hfirst, hlast⟩ := ready
  refine ⟨⟨⟨pre, s, post, ?_, live, hstart⟩, ?_, ?_⟩, rfl, rfl, rfl, fun x hx hx' => ?_⟩
  · exact inv.overwrite live fun y hy => store_outside _ (by omega)
  · exact Nat.le_trans hfirst (Nat.le_add_right _ _)
  · simp only [write]
    omega
  · exact store_outside _ (by omega)

theorem tryGrow_spec (h : asm.tryGrow r = .ok asm') :
    Ready r asm' ∧ Extends asm asm' 0 ∧ 32 ≤ asm'.outpLen := by
  obtain ⟨⟨pre, s, post, inv, live, hstart⟩, hfirst, hlast⟩ := ready
  obtain ⟨-, -, hroom⟩ := inv.live_header (s := s) (by simp) live
  have hinside := inv.inside (s := s) (by simp)
  have hsize : x86_64GrowSize = 32 := rfl
  obtain ⟨heap', ret, hgrow, hcases⟩ := execMemGrow_right inv live
    (show asm.allocLen + x86_64GrowSize < 2 ^ 64 by omega) (inv.length_lt (le_refl _))
    (growFits_growSize inv (.inr rfl))
  change execMemGrow r x86_64AllocSize asm.heap (s.start + 16) _ = _ at hgrow
  rw [← hstart] at hgrow
  simp only [tryGrow, show ¬ asm.allocStart = 0 by omega, ↓reduceIte, hgrow] at h
  split at h
  · cases h
  · rename_i hret
    cases h
    rcases hcases with ⟨rfl, -⟩ | ⟨-, hless, -⟩ | ⟨-, -, t, rest, len, rfl, -, -, -, -, inv', hkeeps⟩
    · exact absurd (by decide) hret
    · omega
    · refine ⟨⟨⟨pre, ⟨s.start, len, _⟩, leftover s t len ++ rest, ?_, rfl, hstart⟩, hfirst, ?_⟩,
        ⟨rfl, rfl, rfl, fun x hx hx' => ?_⟩, ?_⟩
      · simpa using inv'
      · simp only
        omega
      · have hs : s ∈ lives (pre ++ [s] ++ t :: rest) := by simp [lives, live]
        have hhead : sizeofAllocChunk = 16 := rfl
        exact hkeeps s hs x (by omega) (by omega)
      · simp only
        omega

theorem put_spec (small : n ≤ 32) (h : asm.put r n v = .ok asm') :
    Ready r asm' ∧ Extends asm asm' n ∧
      ∀ x, asm.outp ≤ x → x < asm.outp + n →
        asm'.heap.mem x = UInt8.ofNat (v / 256 ^ (x - asm.outp)) := by
  rw [put] at h
  split at h
  · rename_i room
    cases h
    obtain ⟨hready, hextends⟩ := write_spec (v := v) ready room
    exact ⟨hready, hextends, fun x hx hx' => if_pos ⟨hx, hx'⟩⟩
  · cases hgrow : asm.tryGrow r with
    | error e =>
      rw [hgrow] at h
      cases h
    | ok grown =>
      rw [hgrow] at h
      cases h
      obtain ⟨hready, hextends, hroom⟩ := tryGrow_spec ready hgrow
      obtain ⟨hready', hextends'⟩ := write_spec (v := v) hready (le_trans small hroom)
      have houtp : grown.outp = asm.outp := hextends.outp
      have htrans := hextends.trans hextends'
      rw [zero_add] at htrans
      refine ⟨hready', htrans, fun x hx hx' => ?_⟩
      rw [← houtp] at hx hx' ⊢
      exact if_pos ⟨hx, hx'⟩

theorem put8_spec {v : UInt8} (h : asm.put8 r v = .ok asm') :
    Ready r asm' ∧ Extends asm asm' 1 ∧ asm'.heap.mem asm.outp = v := by
  obtain ⟨hready, hextends, hbytes⟩ := put_spec ready (by decide) h
  refine ⟨hready, hextends, ?_⟩
  have hbyte := hbytes asm.outp (le_refl _) (Nat.lt_succ_self _)
  rw [Nat.sub_self, pow_zero, Nat.div_one] at hbyte
  rw [hbyte, UInt8.ofNat_toNat]

end

end Asm

end X86
