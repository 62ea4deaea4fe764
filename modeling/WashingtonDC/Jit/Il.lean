import WashingtonDC.MemoryMap

/-!
# The intermediate language and its interpreter

The instructions of `jit_il.h` and `code_block_intp_exec`. Pointers are 64-bit words; what the
functions behind them do is given by an environment, except for the handlers of system memory, which
read and write the memory of the host. A memory map is part of the instructions that access it. The
array of slots is not part of that memory.

An execution has no result when an error is raised or when C leaves the result undefined, as for a
shift by 32 or more.
-/
namespace Jit

open ByteMemory MemoryMap

abbrev maxSlots : Nat := 8 * 1024

/-- The memory of the host and the state of everything else. -/
structure World (δ : Type) where
  mem : Memory
  dev : δ

/-- The functions behind pointers, which may raise errors, and the handlers of system memory. -/
structure Env (δ : Type) where
  fallback : UInt64 → UInt32 → World δ → Option (World δ)
  callFunc : UInt64 → UInt32 → World δ → Option (World δ)
  handler : Access → UInt64 → UInt32 → Option UInt32 → UInt64 → World δ →
    Option (UInt32 × World δ)
  ram : Interface

inductive JitInst
  | fallback (fallbackFn : UInt64) (inst : UInt32)
  | jump (slotNo : Nat)
  | jumpCond (slotNo jmpAddrSlot altJmpAddrSlot : Nat) (tFlag : UInt32)
  | setSlot (slotIdx : Nat) (newVal : UInt32)
  | callFunc (func : UInt64) (slotNo : Nat)
  | read16Constaddr (map : MemoryMap) (addr : UInt32) (slotNo : Nat)
  | signExtend16 (slotNo : Nat)
  | read32Constaddr (map : MemoryMap) (addr : UInt32) (slotNo : Nat)
  | read32Slot (map : MemoryMap) (addrSlot dstSlot : Nat)
  | write32Slot (map : MemoryMap) (srcSlot addrSlot : Nat)
  | loadSlot16 (src : UInt64) (slotNo : Nat)
  | loadSlot (src : UInt64) (slotNo : Nat)
  | storeSlot (dst : UInt64) (slotNo : Nat)
  | add (slotSrc slotDst : Nat)
  | sub (slotSrc slotDst : Nat)
  | addConst32 (slotDst : Nat) (const32 : UInt32)
  | xor (slotSrc slotDst : Nat)
  | xorConst32 (slotNo : Nat) (const32 : UInt32)
  | mov (slotSrc slotDst : Nat)
  | and (slotSrc slotDst : Nat)
  | andConst32 (slotNo : Nat) (const32 : UInt32)
  | or (slotSrc slotDst : Nat)
  | orConst32 (slotNo : Nat) (const32 : UInt32)
  | slotToBool (slotNo : Nat)
  | not (slotNo : Nat)
  | shll (slotNo shiftAmt : Nat)
  | shar (slotNo shiftAmt : Nat)
  | shlr (slotNo shiftAmt : Nat)
  | shad (slotVal slotShiftAmt : Nat)
  | setGtUnsigned (slotLhs slotRhs slotDst : Nat)
  | setGtSigned (slotLhs slotRhs slotDst : Nat)
  | setGtSignedConst (slotLhs : Nat) (immRhs : Int32) (slotDst : Nat)
  | setEq (slotLhs slotRhs slotDst : Nat)
  | setGeUnsigned (slotLhs slotRhs slotDst : Nat)
  | setGeSigned (slotLhs slotRhs slotDst : Nat)
  | setGeSignedConst (slotLhs : Nat) (immRhs : Int32) (slotDst : Nat)
  | mulU32 (slotLhs slotRhs slotDst : Nat)
  | discardSlot (slotNo : Nat)

structure State (δ : Type) where
  slots : Nat → UInt32
  world : World δ

/-- The interpreter goes on with the next instruction or returns an address. -/
inductive Next (δ : Type)
  | goes (s : State δ)
  | leaves (pc : UInt32) (s : State δ)

/-! ## Values -/

def shiftLeft (x : UInt32) (n : Nat) : Option UInt32 :=
  if n < 32 then some ⟨x.toBitVec <<< n⟩ else none

def shiftRight (x : UInt32) (n : Nat) : Option UInt32 :=
  if n < 32 then some ⟨x.toBitVec >>> n⟩ else none

def shiftRightSigned (x : UInt32) (n : Nat) : Option UInt32 :=
  if n < 32 then some ⟨x.toBitVec.sshiftRight n⟩ else none

/-- `JIT_OP_SHAD`. The negation of the least number is not defined either. -/
def shad (val amt : UInt32) : Option UInt32 :=
  if 0 ≤ amt.toInt32 then shiftLeft val amt.toNat
  else if amt.toInt32 = Int32.minValue then none
  else shiftRightSigned val (-amt.toInt32).toNatClampNeg

def signExtend16 (x : UInt32) : UInt32 := x.toUInt16.toInt16.toInt32.toUInt32

/-! ## The interpreter -/

section
variable {δ : Type}

def returned (a : Access) (v : UInt32) : UInt32 :=
  match a with
  | .read16 => v.toUInt16.toUInt32
  | _ => v

/-- A function of `MemoryMap.c` together with the handler that it calls. -/
def Env.access (env : Env δ) (a : Access) (map : MemoryMap) (addr : UInt32)
    (val : Option UInt32) (w : World δ) : Option (UInt32 × World δ) :=
  match perform env.ram a w.mem (map.access a addr val) with
  | .returns val mem => some (val.getD 0, { w with mem })
  | .calls fn addr val ctxt =>
    (env.handler a fn addr val ctxt w).map fun r => (returned a r.1, r.2)
  | .raises _ => none

theorem Env.access_read16 {env : Env δ} {map : MemoryMap} {addr : UInt32} {w : World δ}
    {r : UInt32 × World δ} (h : env.access .read16 map addr none w = some r) :
    ∃ x : UInt16, r.1 = x.toUInt32 := by
  rw [access] at h
  rcases map.access_cases .read16 addr none with ⟨fn, addr', ctxt, hcalls⟩ | ⟨e, hraises⟩
  · rw [hcalls, perform] at h
    split at h
    · rename_i val mem hperform
      split at hperform
      · cases hperform
        cases h
        exact ⟨_, rfl⟩
      · cases hperform
    · rename_i hperform
      split at hperform
      · cases hperform
      · cases hperform
        obtain ⟨r', -, rfl⟩ := Option.map_eq_some_iff.mp h
        exact ⟨_, rfl⟩
    · cases h
  · rw [hraises] at h
    cases h

namespace State

def set (s : State δ) (slot : Nat) (v : UInt32) : State δ :=
  { s with slots := Function.update s.slots slot v }

def setRead (s : State δ) (slot : Nat) (r : UInt32 × World δ) : State δ :=
  { s with world := r.2 }.set slot r.1

end State

def Next.set (s : State δ) (slot : Nat) (v : UInt32) : Option (Next δ) := some (.goes (s.set slot v))

/-- `if (holds) slots[dst] |= 1`. -/
def Next.setFlag (s : State δ) (slot : Nat) (holds : Bool) : Option (Next δ) :=
  if holds then Next.set s slot (s.slots slot ||| 1) else some (.goes s)

def JitInst.exec (env : Env δ) (s : State δ) : JitInst → Option (Next δ)
  | .fallback fn inst => (env.fallback fn inst s.world).map fun world => .goes { s with world }
  | .jump slotNo => some (.leaves (s.slots slotNo) s)
  | .jumpCond slotNo jmpAddrSlot altJmpAddrSlot tFlag =>
    if s.slots slotNo &&& 1 = tFlag then some (.leaves (s.slots jmpAddrSlot) s)
    else some (.leaves (s.slots altJmpAddrSlot) s)
  | .setSlot slotIdx newVal => Next.set s slotIdx newVal
  | .callFunc func slotNo =>
    (env.callFunc func (s.slots slotNo) s.world).map fun world => .goes { s with world }
  | .read16Constaddr map addr slotNo =>
    (env.access .read16 map addr none s.world).map fun r => .goes (s.setRead slotNo r)
  | .signExtend16 slotNo => Next.set s slotNo (Jit.signExtend16 (s.slots slotNo))
  | .read32Constaddr map addr slotNo =>
    (env.access .read32 map addr none s.world).map fun r => .goes (s.setRead slotNo r)
  | .read32Slot map addrSlot dstSlot =>
    (env.access .read32 map (s.slots addrSlot) none s.world).map fun r =>
      .goes (s.setRead dstSlot r)
  | .write32Slot map srcSlot addrSlot =>
    (env.access .write32 map (s.slots addrSlot) (some (s.slots srcSlot)) s.world).map fun r =>
      .goes { s with world := r.2 }
  | .loadSlot16 src slotNo =>
    Next.set s slotNo (UInt16.ofNat (load s.world.mem src.toNat 2)).toUInt32
  | .loadSlot src slotNo => Next.set s slotNo (.ofNat (load s.world.mem src.toNat 4))
  | .storeSlot dst slotNo =>
    some (.goes { s with
      world := { s.world with
        mem := store s.world.mem dst.toNat 4 (s.slots slotNo).toNat } })
  | .add slotSrc slotDst => Next.set s slotDst (s.slots slotDst + s.slots slotSrc)
  | .sub slotSrc slotDst => Next.set s slotDst (s.slots slotDst - s.slots slotSrc)
  | .addConst32 slotDst const32 => Next.set s slotDst (s.slots slotDst + const32)
  | .xor slotSrc slotDst => Next.set s slotDst (s.slots slotDst ^^^ s.slots slotSrc)
  | .xorConst32 slotNo const32 => Next.set s slotNo (s.slots slotNo ^^^ const32)
  | .mov slotSrc slotDst => Next.set s slotDst (s.slots slotSrc)
  | .and slotSrc slotDst => Next.set s slotDst (s.slots slotDst &&& s.slots slotSrc)
  | .andConst32 slotNo const32 => Next.set s slotNo (s.slots slotNo &&& const32)
  | .or slotSrc slotDst => Next.set s slotDst (s.slots slotDst ||| s.slots slotSrc)
  | .orConst32 slotNo const32 => Next.set s slotNo (s.slots slotNo ||| const32)
  | .slotToBool slotNo => Next.set s slotNo (if s.slots slotNo ≠ 0 then 1 else 0)
  | .not slotNo => Next.set s slotNo (~~~s.slots slotNo)
  | .shll slotNo shiftAmt => (shiftLeft (s.slots slotNo) shiftAmt).bind (Next.set s slotNo)
  | .shar slotNo shiftAmt => (shiftRightSigned (s.slots slotNo) shiftAmt).bind (Next.set s slotNo)
  | .shlr slotNo shiftAmt => (shiftRight (s.slots slotNo) shiftAmt).bind (Next.set s slotNo)
  | .shad slotVal slotShiftAmt =>
    (Jit.shad (s.slots slotVal) (s.slots slotShiftAmt)).bind (Next.set s slotVal)
  | .setGtUnsigned slotLhs slotRhs slotDst =>
    Next.setFlag s slotDst (s.slots slotRhs < s.slots slotLhs)
  | .setGtSigned slotLhs slotRhs slotDst =>
    Next.setFlag s slotDst ((s.slots slotRhs).toInt32 < (s.slots slotLhs).toInt32)
  | .setGtSignedConst slotLhs immRhs slotDst =>
    Next.setFlag s slotDst (immRhs < (s.slots slotLhs).toInt32)
  | .setEq slotLhs slotRhs slotDst =>
    Next.setFlag s slotDst (s.slots slotLhs = s.slots slotRhs)
  | .setGeUnsigned slotLhs slotRhs slotDst =>
    Next.setFlag s slotDst (s.slots slotRhs ≤ s.slots slotLhs)
  | .setGeSigned slotLhs slotRhs slotDst =>
    Next.setFlag s slotDst ((s.slots slotRhs).toInt32 ≤ (s.slots slotLhs).toInt32)
  | .setGeSignedConst slotLhs immRhs slotDst =>
    Next.setFlag s slotDst (immRhs ≤ (s.slots slotLhs).toInt32)
  | .mulU32 slotLhs slotRhs slotDst => Next.set s slotDst (s.slots slotLhs * s.slots slotRhs)
  | .discardSlot _ => some (.goes s)

def codeBlockIntpExec (env : Env δ) : List JitInst → State δ → Option (UInt32 × State δ)
  | [], _ => none
  | inst :: block, s =>
    match inst.exec env s with
    | none => none
    | some (.leaves pc s) => some (pc, s)
    | some (.goes s) => codeBlockIntpExec env block s

def reaches (env : Env δ) : List JitInst → Nat → State δ → Option (State δ)
  | _, 0, s => some s
  | [], _ + 1, _ => none
  | inst :: block, i + 1, s =>
    match inst.exec env s with
    | some (.goes s) => reaches env block i s
    | _ => none

theorem reaches_succ {env : Env δ} {block : List JitInst} {i : Nat} {s s' : State δ}
    (h : reaches env block (i + 1) s = some s') :
    ∃ inst s₁, block[i]? = some inst ∧ reaches env block i s = some s₁ ∧
      inst.exec env s₁ = some (.goes s') := by
  induction i generalizing block s with
  | zero =>
    cases block with
    | nil => cases h
    | cons inst block =>
      refine ⟨inst, s, rfl, rfl, ?_⟩
      rw [reaches] at h
      split at h
      · rename_i s₁ hexec
        have heq : s₁ = s' := by simpa [reaches] using h
        rw [hexec, heq]
      · cases h
  | succ i ih =>
    cases block with
    | nil => cases h
    | cons inst block =>
      rw [reaches] at h
      split at h
      · rename_i s₁ hexec
        obtain ⟨inst', s₂, hinst, hreach, hgoes⟩ := ih h
        refine ⟨inst', s₂, hinst, ?_, hgoes⟩
        simp only [reaches, hexec]
        exact hreach
      · cases h

end

def noFuncs : Env Unit where
  fallback _ _ _ := none
  callFunc _ _ _ := none
  handler _ _ _ _ _ _ := none
  ram := ⟨0, 0, 0⟩

end Jit
