import WashingtonDC.Arm7.Steps

/-!
# Block data transfers of the ARM7 core

What `arm7_block_xfer` does for a list of registers without the base register and R15, with the S
bit clear, in all addressing modes. The transfers are described at any address; their effects are
described where all words of the block are in wave memory.
-/
namespace Arm7

open List UInt32 Arm7.Core ByteMemory Option Nat

variable {σ : Type}

/-! ## The architecture -/

def listed (inst : UInt32) : List Nat :=
  (range 16).filter fun n => bit inst (ofNat n)

def blockBytes (inst : UInt32) : UInt32 := 4 * ofNat (listed inst).length

/-- The lowest address of the block. The U bit puts the block after the base or before it, and the
P bit says whether the base itself is left out. -/
def lowest (inst base : UInt32) : UInt32 :=
  if bit inst 23 then
    if bit inst 24 then base + 4 else base
  else if bit inst 24 then base - blockBytes inst
  else base - blockBytes inst + 4

def consecutive (addr : UInt32) : List Nat → List (Nat × UInt32)
  | [] => []
  | n :: regs => (n, addr) :: consecutive (addr + 4) regs

def block (inst base : UInt32) : List (Nat × UInt32) :=
  consecutive (lowest inst base) (listed inst)

def movedBase (inst base : UInt32) : UInt32 :=
  if bit inst 23 then base + blockBytes inst else base - blockBytes inst

/-! ## Addresses -/

/-- The addresses that the loop uses for registers in the order in which it takes them. -/
def stepped (pre up : Bool) (base : UInt32) : List Nat → List (Nat × UInt32)
  | [] => []
  | n :: regs =>
    let next := if up then base + 4 else base - 4
    (n, if pre then next else base) :: stepped pre up next regs

theorem stepped_up (pre : Bool) (base : UInt32) (regs : List Nat) :
    stepped pre true base regs = consecutive (if pre then base + 4 else base) regs := by
  induction regs generalizing base with
  | nil => rfl
  | cons n regs ih =>
    cases pre <;> simp [stepped, consecutive, ih]

theorem ofNat_succ_word (k : Nat) : 4 * ofNat (k + 1) = 4 * ofNat k + 4 := by
  rw [ofNat_add]
  grind

theorem consecutive_append (addr : UInt32) (regs : List Nat) (n : Nat) :
    consecutive addr (regs ++ [n]) =
      consecutive addr regs ++ [(n, addr + 4 * ofNat regs.length)] := by
  induction regs generalizing addr with
  | nil => simp [consecutive]
  | cons m regs ih =>
    have haddr : addr + 4 + 4 * ofNat regs.length =
        addr + 4 * ofNat (regs.length + 1) := by
      rw [ofNat_succ_word]
      grind
    rw [cons_append, consecutive, ih, length_cons, haddr]
    rfl

theorem stepped_down (pre : Bool) (base : UInt32) (regs : List Nat) :
    stepped pre false base regs.reverse =
      (consecutive (if pre then base - 4 * ofNat regs.length
        else base - 4 * ofNat regs.length + 4) regs).reverse := by
  induction regs using reverseRecOn generalizing base with
  | nil => rfl
  | append_singleton regs n ih =>
    rw [reverse_append, reverse_singleton, singleton_append, stepped, ih,
      consecutive_append, reverse_append, reverse_singleton, singleton_append,
      length_append, length_singleton, ofNat_succ_word]
    generalize 4 * ofNat regs.length = size
    have hlow : base - 4 - size = base - (size + 4) := by grind
    cases pre with
    | false =>
      have hhigh : base - (size + 4) + 4 + size = base := by grind
      simp [hlow, hhigh]
    | true =>
      have hhigh : base - (size + 4) + size = base - 4 := by grind
      simp [hlow, hhigh]

/-! ## The loop -/

theorem bit_regList (inst : UInt32) {n : Nat} (lt : n < 16) :
    bit (inst &&& 0xffff) (ofNat n) = bit inst (ofNat n) := by
  rw [bit_eq_testBit _ (by omega), bit_eq_testBit _ (by omega),
    WordMask.toNat_and_low inst (i := 16) rfl, testBit_mod_two_pow, decide_eq_true lt,
    Bool.true_and]

variable {inst : UInt32}

theorem mem_listed {n : Nat} : n ∈ listed inst ↔ n < 16 ∧ bit inst (ofNat n) = true := by
  rw [listed, mem_filter, mem_range]

theorem foldlM_blockStep (pre up : Bool) (access : Nat → UInt32 → Core σ → Option (Core σ))
    (regs : List Nat) (base : UInt32) (c : Core σ) :
    regs.foldlM (fun s n => blockStep pre up (access n) s) (base, c) =
      ((stepped pre up base regs).foldlM (fun c p => access p.1 p.2 c) c).map fun c =>
        (if up then base + 4 * ofNat regs.length
          else base - 4 * ofNat regs.length, c) := by
  induction regs generalizing base c with
  | nil => cases up <;> simp [stepped]
  | cons n regs ih =>
    have hmoved : (if up then (if up then base + 4 else base - 4) + 4 * ofNat regs.length
          else (if up then base + 4 else base - 4) - 4 * ofNat regs.length) =
        if up then base + 4 * ofNat (regs.length + 1)
          else base - 4 * ofNat (regs.length + 1) := by
      rw [ofNat_succ_word]
      cases up <;> simp <;> grind
    rw [foldlM_cons, stepped, foldlM_cons, length_cons, ← hmoved]
    simp only [blockStep]
    cases access n (if pre then if up then base + 4 else base - 4 else base) c with
    | none => rfl
    | some c₁ => exact ih _ c₁

theorem blockLoop_eq (pre up : Bool) (access : Nat → UInt32 → Core σ → Option (Core σ))
    (inst : UInt32) {order : List Nat} (low : ∀ n ∈ order, n < 16) (s : UInt32 × Core σ) :
    blockLoop pre up access (inst &&& 0xffff) order s =
      (order.filter fun n => bit inst (ofNat n)).foldlM
        (fun s n => blockStep pre up (access n) s) s := by
  rw [← filter_congr fun n hn => bit_regList inst (low n hn), foldlM_filter]
  rfl

/-- The block transfers that are described here. -/
structure PlainBlock (inst : UInt32) : Prop where
  sClear : bit inst 22 = false
  nonempty : listed inst ≠ []
  noPc : 15 ∉ listed inst
  noBase : regField inst 16 ∉ listed inst
  notPc : regField inst 16 ≠ 15

def blockAccess (aica : AicaSys σ) (inst : UInt32) (p : Nat × UInt32) (c : Core σ) :
    Option (Core σ) :=
  if bit inst 20 then blockLoad aica p.1 p.2 c else blockStore aica p.1 p.2 c

/-- The source takes the registers of a block before the base from the highest on. -/
def blockOrder {α : Type} (inst : UInt32) (transfers : List α) : List α :=
  if bit inst 23 then transfers else transfers.reverse

theorem PlainBlock.bit15 (plain : PlainBlock inst) : bit inst 15 = false := by
  have hpc : ¬bit inst (ofNat 15) = true := fun h =>
    plain.noPc (mem_listed.mpr ⟨by decide, h⟩)
  exact Bool.not_eq_true _ ▸ hpc

theorem PlainBlock.filter_range15 (plain : PlainBlock inst) :
    ((range 15).filter fun n => bit inst (ofNat n)) = listed inst := by
  have hpc : bit inst (ofNat 15) = false := plain.bit15
  rw [listed, @range_succ 15, filter_append, filter_singleton, hpc, cond_false,
    append_nil]

section
variable {base : UInt32} {c : Core σ} {access : Nat → UInt32 → Core σ → Option (Core σ)}

theorem blockLoop_up (up : bit inst 23 = true) {order : List Nat} (low : ∀ n ∈ order, n < 16)
    (regs : (order.filter fun n => bit inst (ofNat n)) = listed inst) :
    blockLoop (bit inst 24) true access (inst &&& 0xffff) order (base, c) =
      ((blockOrder inst (block inst base)).foldlM (fun c p => access p.1 p.2 c) c).map
        fun c => (movedBase inst base, c) := by
  rw [blockLoop_eq _ _ _ _ low, regs, foldlM_blockStep, stepped_up]
  simp only [blockOrder, block, lowest, movedBase, blockBytes, up, if_true]

theorem blockLoop_down (down : bit inst 23 = false) :
    blockLoop (bit inst 24) false access (inst &&& 0xffff) (range 16).reverse (base, c) =
      ((blockOrder inst (block inst base)).foldlM (fun c p => access p.1 p.2 c) c).map
        fun c => (movedBase inst base, c) := by
  have hlow : ∀ n ∈ (range 16).reverse, n < 16 := fun n hn =>
    mem_range.mp (mem_reverse.mp hn)
  have hregs : ((range 16).reverse.filter fun n => bit inst (ofNat n)) =
      (listed inst).reverse := filter_reverse
  rw [blockLoop_eq _ _ _ _ hlow, hregs, foldlM_blockStep, stepped_down, length_reverse]
  simp only [blockOrder, block, lowest, movedBase, blockBytes, down, Bool.false_eq_true, if_false]

end

theorem blockXferLoop_eq (aica : AicaSys σ) (plain : PlainBlock inst) (base : UInt32) (c : Core σ) :
    blockXferLoop aica inst (base, c) =
      ((blockOrder inst (block inst base)).foldlM (fun c p => blockAccess aica inst p c) c).map
        fun c => (movedBase inst base, c) := by
  have hpc : bit (inst &&& 0xffff) 15 = false := (bit_regList inst (by decide)).trans plain.bit15
  have hlow15 : ∀ n ∈ range 15, n < 16 := fun n hn => by
    have := mem_range.mp hn
    omega
  have hlow16 : ∀ n ∈ range 16, n < 16 := fun n hn => mem_range.mp hn
  simp only [blockXferLoop, plain.sClear, hpc, Bool.false_eq_true, if_false, blockAccess]
  cases hup : bit inst 23 with
  | true =>
    cases hload : bit inst 20 with
    | true =>
      rw [if_pos rfl, if_pos rfl, blockLoop_up hup hlow15 plain.filter_range15]
      simp
    | false => exact blockLoop_up hup hlow16 rfl
  | false =>
    cases hload : bit inst 20 with
    | true | false => exact blockLoop_down hup

/-! ## The instruction -/

/-- How the instruction ends: the base is written back if the W bit says so. -/
def blockDone (mode : Mode) (inst base : UInt32) (c : Core σ) : Core σ :=
  (if bit inst 21 then c.write (mode.genReg (regField inst 16)) (movedBase inst base)
    else c).nextInst

section
variable {mode : Mode} {base : UInt32} {c : Core σ}

theorem PlainBlock.regList_ne_zero (plain : PlainBlock inst) : inst &&& 0xffff ≠ 0 := by
  intro hzero
  obtain ⟨n, hn⟩ := exists_mem_of_ne_nil _ plain.nonempty
  obtain ⟨hlt, hbit⟩ := mem_listed.mp hn
  rw [← bit_regList inst hlt, hzero, bit_eq_testBit _ (by omega), UInt32.toNat_zero,
    zero_testBit] at hbit
  cases hbit

theorem blockXfer_eq (aica : AicaSys σ) (plain : PlainBlock inst)
    (hmode : modeOf c.cpsr = some mode) (hbase : c.reg (mode.genReg (regField inst 16)) = base)
    (aligned : base.toNat % 4 = 0) :
    blockXfer aica inst c =
      ((blockOrder inst (block inst base)).foldlM (fun c p => blockAccess aica inst p c) c).map
        (blockDone mode inst base) := by
  have hpc : bit (inst &&& 0xffff) 15 = false := (bit_regList inst (by decide)).trans plain.bit15
  have hrn : bit (inst &&& 0xffff) (ofNat (regField inst 16)) = false := by
    rw [bit_regList inst (regField_lt _ _)]
    exact Bool.not_eq_true _ ▸ fun h => plain.noBase (mem_listed.mpr ⟨regField_lt _ _, h⟩)
  have haligned : base % 4 = 0 := by
    rw [← UInt32.toNat_inj, UInt32.toNat_mod]
    exact aligned
  simp only [blockXfer, plain.sClear, hpc, hrn, Bool.false_and, Bool.and_false, Bool.false_eq_true,
    if_false, if_neg plain.notPc, if_neg plain.regList_ne_zero, genReg_of_mode hmode,
    bind_eq_bind, bind_some, hbase, haligned, ne_eq, not_true_eq_false,
    blockXferLoop_eq aica plain, bind_map]
  cases (blockOrder inst (block inst base)).foldlM (fun c p => blockAccess aica inst p c) c with
  | none => rfl
  | some c₁ => rfl

/-! ## Blocks in wave memory -/

def wordAt (mem : Mem σ) (addr : UInt32) : UInt32 :=
  .ofNat (ByteMemory.load mem.wave (waveOffset addr) 4)

def wordWrites (mode : Mode) (c : Core σ) (ps : List (Nat × UInt32)) : List Write :=
  ps.map fun p => ⟨waveOffset p.2, 4, (c.reg (mode.genReg p.1)).toNat⟩

def storeWords (mode : Mode) (c : Core σ) (ps : List (Nat × UInt32)) : Memory :=
  (wordWrites mode c ps).foldl (fun mem w => ByteMemory.store mem w.addr w.size w.val) c.mem.wave

variable {ps : List (Nat × UInt32)} {p : Nat × UInt32} {regs : List Nat} {addr : UInt32}

theorem foldlM_blockStore (aica : AicaSys σ) (hmode : modeOf c.cpsr = some mode)
    (ram : ∀ p ∈ ps, IsRam p.2) (noPc : ∀ p ∈ ps, p.1 ≠ 15) :
    ps.foldlM (fun c p => blockStore aica p.1 p.2 c) c =
      some { c with mem.wave := storeWords mode c ps } := by
  induction ps generalizing c with
  | nil => rfl
  | cons p ps ih =>
    have hfirst : blockStore aica p.1 p.2 c = some { c with
        mem.wave := ByteMemory.store c.mem.wave (waveOffset p.2) 4
          (c.reg (mode.genReg p.1)).toNat } := by
      rw [blockStore, if_neg (noPc p mem_cons_self), get_of_mode hmode]
      exact (ram p mem_cons_self).write32 aica c _
    rw [foldlM_cons, hfirst]
    exact ih hmode (fun q hq => ram q (mem_cons_of_mem p hq))
      fun q hq => noPc q (mem_cons_of_mem p hq)

theorem foldlM_blockLoad (aica : AicaSys σ) (hmode : modeOf c.cpsr = some mode)
    (ram : ∀ p ∈ ps, IsRam p.2) (low : ∀ p ∈ ps, p.1 < 16) (nodup : (ps.map Prod.fst).Nodup) :
    ∃ reg, ps.foldlM (fun c p => blockLoad aica p.1 p.2 c) c = some { c with reg } ∧
      (∀ p ∈ ps, reg (mode.genReg p.1) = wordAt c.mem p.2) ∧
      ∀ i, (∀ p ∈ ps, i ≠ mode.genReg p.1) → reg i = c.reg i := by
  induction ps generalizing c with
  | nil => exact ⟨c.reg, rfl, fun p hp => absurd hp not_mem_nil, fun _ _ => rfl⟩
  | cons p ps ih =>
    let c₁ := c.write (mode.genReg p.1) (wordAt c.mem p.2)
    have hfirst : blockLoad aica p.1 p.2 c = some c₁ := by
      rw [blockLoad, (ram p mem_cons_self).read32]
      exact set_of_mode hmode _ _
    have hmode₁ : modeOf c₁.cpsr = some mode := by
      rw [write_genReg_cpsr _ _ (low p mem_cons_self), hmode]
    obtain ⟨hnot, hrest⟩ := nodup_cons.mp nodup
    obtain ⟨reg, hfold, hwords, hothers⟩ := ih hmode₁
      (fun q hq => ram q (mem_cons_of_mem p hq))
      (fun q hq => low q (mem_cons_of_mem p hq)) hrest
    refine ⟨reg, ?_, ?_, ?_⟩
    · rw [foldlM_cons, hfirst]
      exact hfold
    · intro q hq
      rcases mem_cons.mp hq with rfl | hq
      · -- The registers after the first one are others.
        rw [hothers, write_reg, if_pos rfl]
        intro r hr hsame
        have hreg := mode.genReg_inj (low q mem_cons_self)
          (low r (mem_cons_of_mem q hr)) hsame
        exact hnot (hreg ▸ mem_map_of_mem hr)
      · exact hwords q hq
    · intro i hi
      rw [hothers i fun q hq => hi q (mem_cons_of_mem p hq), write_reg,
        if_neg (hi p mem_cons_self)]

/-! ### The words of a block -/

theorem map_fst_consecutive (addr : UInt32) (regs : List Nat) :
    (consecutive addr regs).map Prod.fst = regs := by
  induction regs generalizing addr with
  | nil => rfl
  | cons n regs ih => rw [consecutive, map_cons, ih]

theorem mem_consecutive (h : p ∈ consecutive addr regs) :
    ∃ k < regs.length, p.2 = addr + 4 * ofNat k := by
  induction regs generalizing addr with
  | nil => cases h
  | cons n regs ih =>
    rcases mem_cons.mp h with rfl | h
    · exact ⟨0, succ_pos _, by simp⟩
    · obtain ⟨k, hk, haddr⟩ := ih h
      refine ⟨k + 1, succ_lt_succ hk, ?_⟩
      rw [haddr, ofNat_succ_word]
      grind

theorem toNat_word (k : Nat) : (4 * ofNat k).toNat = 4 * k % 2 ^ 32 := by
  rw [UInt32.toNat_mul, toNat_ofNat', show (4 : UInt32).toNat = 4 from rfl, mul_mod_mod]

theorem toNat_add_word_mod (addr : UInt32) (k : Nat) {m : Nat} (dvd : m ∣ 2 ^ 32) :
    (addr + 4 * ofNat k).toNat % m = (addr.toNat + 4 * k) % m := by
  rw [UInt32.toNat_add, toNat_word, add_mod_mod, mod_mod_of_dvd _ dvd]

theorem pairwise_consecutive (aligned : addr.toNat % 4 = 0) (short : regs.length ≤ 16) :
    (consecutive addr regs).Pairwise fun p q =>
      waveOffset p.2 + 4 ≤ waveOffset q.2 ∨ waveOffset q.2 + 4 ≤ waveOffset p.2 := by
  induction regs generalizing addr with
  | nil => exact .nil
  | cons n regs ih =>
    rw [length_cons] at short
    have haligned : (addr + 4).toNat % 4 = 0 := by
      have := toNat_add_word_mod addr 1 (m := 4) (by decide)
      rw [show 4 * ofNat 1 = 4 from rfl] at this
      omega
    refine pairwise_cons.mpr ⟨?_, ih haligned (by omega)⟩
    intro q hq
    obtain ⟨k, hk, haddr⟩ := mem_consecutive hq
    have hword : q.2 = addr + 4 * ofNat (k + 1) := by
      rw [haddr, ofNat_succ_word]
      grind
    have hoffset : waveOffset q.2 = (addr.toNat + 4 * (k + 1)) % waveMemLen := by
      rw [waveOffset, hword, toNat_add_word_mod addr (k + 1) (by decide)]
    rw [hoffset]
    simp only [waveOffset, waveMemLen]
    omega

theorem aligned_add {a b : UInt32} (ha : a.toNat % 4 = 0) (hb : b.toNat % 4 = 0) :
    (a + b).toNat % 4 = 0 := by
  rw [UInt32.toNat_add]
  omega

theorem aligned_sub {a b : UInt32} (ha : a.toNat % 4 = 0) (hb : b.toNat % 4 = 0) :
    (a - b).toNat % 4 = 0 := by
  rw [UInt32.toNat_sub]
  omega

theorem aligned_blockBytes (inst : UInt32) : (blockBytes inst).toNat % 4 = 0 := by
  rw [blockBytes, toNat_word]
  omega

theorem aligned_lowest (aligned : base.toNat % 4 = 0) : (lowest inst base).toNat % 4 = 0 := by
  have hbelow := aligned_sub aligned (aligned_blockBytes inst)
  unfold lowest
  split <;> split
  · exact aligned_add aligned rfl
  · exact aligned
  · exact hbelow
  · exact aligned_add hbelow rfl

def InRam (inst base : UInt32) : Prop := ∀ p ∈ block inst base, p.2.toNat < 0x800000

theorem InRam.isRam (ram : InRam inst base) (aligned : base.toNat % 4 = 0)
    (hp : p ∈ block inst base) : IsRam p.2 := by
  obtain ⟨k, -, haddr⟩ := mem_consecutive hp
  refine ⟨?_, ram p hp⟩
  have hlow := @aligned_lowest inst base aligned
  rw [haddr, toNat_add_word_mod _ k (by decide)]
  omega

theorem mem_blockOrder {α : Type} {transfers : List α} {p : α} :
    p ∈ blockOrder inst transfers ↔ p ∈ transfers := by
  unfold blockOrder
  split
  · rfl
  · exact mem_reverse

theorem mem_listed_of_block (hp : p ∈ block inst base) : p.1 ∈ listed inst := by
  have hmem := mem_map_of_mem (f := Prod.fst) hp
  rwa [block, map_fst_consecutive] at hmem

theorem exists_mem_block {n : Nat} (hn : n ∈ listed inst) :
    ∃ addr, (n, addr) ∈ block inst base := by
  rw [← map_fst_consecutive (lowest inst base) (listed inst)] at hn
  obtain ⟨⟨m, addr⟩, hp, rfl⟩ := mem_map.mp hn
  exact ⟨addr, hp⟩

theorem nodup_blockOrder : ((blockOrder inst (block inst base)).map Prod.fst).Nodup := by
  have hnodup : (listed inst).Nodup := nodup_range.filter _
  unfold blockOrder
  split
  · rwa [block, map_fst_consecutive]
  · rw [map_reverse, nodup_reverse, block, map_fst_consecutive]
    exact hnodup

theorem listed_length_le (inst : UInt32) : (listed inst).length ≤ 16 :=
  (length_filter_le _ _).trans (le_of_eq length_range)

theorem apart_wordWrites (mode : Mode) (c : Core σ) (aligned : base.toNat % 4 = 0) :
    (wordWrites mode c (blockOrder inst (block inst base))).Pairwise Write.Apart := by
  have hpairs := pairwise_consecutive (@aligned_lowest inst base aligned) (listed_length_le inst)
  rw [wordWrites, pairwise_map]
  unfold blockOrder
  split
  · exact hpairs
  · exact pairwise_reverse.mpr (hpairs.imp Or.symm)

theorem PlainBlock.ne_pc (plain : PlainBlock inst) (hp : p ∈ blockOrder inst (block inst base)) :
    p.1 ≠ 15 := fun hpc =>
  plain.noPc (hpc ▸ mem_listed_of_block (mem_blockOrder.mp hp))

/-! ### Stores and loads -/

/-- The registers are in their words, the base is written back, and nothing else has changed. -/
structure Stored (mode : Mode) (inst base : UInt32) (c c' : Core σ) : Prop where
  words : ∀ p ∈ block inst base, wordAt c'.mem p.2 = c.reg (mode.genReg p.1)
  bytes : ∀ x, (∀ p ∈ block inst base, x < waveOffset p.2 ∨ waveOffset p.2 + 4 ≤ x) →
    c'.mem.wave x = c.mem.wave x
  aica : c'.mem.aica = c.mem.aica
  base_eq : c'.reg (mode.genReg (regField inst 16)) =
    if bit inst 21 then movedBase inst base else base
  pc : c'.pc = c.pc + 4
  others : ∀ i, i ≠ mode.genReg (regField inst 16) → i ≠ regPc → c'.reg i = c.reg i

/-- The words are in their registers, the base is written back, and nothing else has changed. -/
structure Loaded (mode : Mode) (inst base : UInt32) (c c' : Core σ) : Prop where
  words : ∀ p ∈ block inst base, c'.reg (mode.genReg p.1) = wordAt c.mem p.2
  mem : c'.mem = c.mem
  base_eq : c'.reg (mode.genReg (regField inst 16)) =
    if bit inst 21 then movedBase inst base else base
  pc : c'.pc = c.pc + 4
  others : ∀ i, (∀ n ∈ listed inst, i ≠ mode.genReg n) → i ≠ mode.genReg (regField inst 16) →
    i ≠ regPc → c'.reg i = c.reg i

theorem blockDone_base (plain : PlainBlock inst) (c : Core σ) :
    (blockDone mode inst base c).reg (mode.genReg (regField inst 16)) =
      if bit inst 21 then movedBase inst base else c.reg (mode.genReg (regField inst 16)) := by
  rw [blockDone, nextInst_reg _ (genReg_ne_pc mode plain.notPc)]
  split
  · rw [write_reg, if_pos rfl]
  · rfl

theorem blockDone_other (c : Core σ) {i : Nat} (base_ne : i ≠ mode.genReg (regField inst 16))
    (pc_ne : i ≠ regPc) : (blockDone mode inst base c).reg i = c.reg i := by
  rw [blockDone, nextInst_reg _ pc_ne]
  split
  · rw [write_reg, if_neg base_ne]
  · rfl

theorem blockDone_pc (plain : PlainBlock inst) (c : Core σ) :
    (blockDone mode inst base c).pc = c.pc + 4 := by
  rw [blockDone, nextInst, write_pc_self]
  split
  · rw [write_pc_ne _ _ _ (genReg_ne_pc mode plain.notPc)]
  · rfl

theorem blockDone_mem (c : Core σ) : (blockDone mode inst base c).mem = c.mem := by
  unfold blockDone
  split <;> rfl

theorem wordAt_storeWords (mode : Mode) (c : Core σ) (aligned : base.toNat % 4 = 0)
    (hp : p ∈ block inst base) (aica : σ) :
    wordAt ⟨storeWords mode c (blockOrder inst (block inst base)), aica⟩ p.2 =
      c.reg (mode.genReg p.1) := by
  have hmade : (⟨waveOffset p.2, 4, (c.reg (mode.genReg p.1)).toNat⟩ : Write) ∈
      wordWrites mode c (blockOrder inst (block inst base)) :=
    mem_map.mpr ⟨p, mem_blockOrder.mpr hp, rfl⟩
  have hload := load_foldl_store c.mem.wave (apart_wordWrites mode c aligned) hmade
    (c.reg (mode.genReg p.1)).toNat_lt
  rw [wordAt, storeWords, hload, UInt32.ofNat_toNat]

theorem storeWords_other (mode : Mode) (c : Core σ) {x : Nat}
    (outside : ∀ p ∈ block inst base, x < waveOffset p.2 ∨ waveOffset p.2 + 4 ≤ x) :
    storeWords mode c (blockOrder inst (block inst base)) x = c.mem.wave x := by
  apply foldl_store_outside
  intro w hw
  obtain ⟨p, hp, rfl⟩ := mem_map.mp hw
  exact outside p (mem_blockOrder.mp hp)

section
variable (aica : AicaSys σ) (plain : PlainBlock inst) (hmode : modeOf c.cpsr = some mode)
  (hbase : c.reg (mode.genReg (regField inst 16)) = base) (aligned : base.toNat % 4 = 0)
  (ram : InRam inst base)
include plain hmode hbase aligned ram

theorem blockXfer_stored (store : bit inst 20 = false) :
    ∃ c', blockXfer aica inst c = some c' ∧ Stored mode inst base c c' := by
  have hfold := foldlM_blockStore aica hmode
    (fun p hp => ram.isRam aligned (mem_blockOrder.mp hp)) fun p hp => plain.ne_pc hp
  refine ⟨blockDone mode inst base
    { c with mem.wave := storeWords mode c (blockOrder inst (block inst base)) }, ?_, ?_⟩
  · simp only [blockXfer_eq aica plain hmode hbase aligned, blockAccess, store, Bool.false_eq_true,
      if_false, hfold, map_some]
  constructor
  case words =>
    intro p hp
    rw [blockDone_mem]
    exact wordAt_storeWords mode c aligned hp c.mem.aica
  case bytes =>
    intro x hx
    rw [blockDone_mem]
    exact storeWords_other mode c hx
  case aica => rw [blockDone_mem]
  case base_eq => rw [blockDone_base plain, hbase]
  case pc => exact blockDone_pc plain _
  case others =>
    intro i hi hpc
    rw [blockDone_other _ hi hpc]

theorem blockXfer_loaded (load : bit inst 20 = true) :
    ∃ c', blockXfer aica inst c = some c' ∧ Loaded mode inst base c c' := by
  obtain ⟨reg, hfold, hwords, hothers⟩ := foldlM_blockLoad aica hmode
    (fun p hp => ram.isRam aligned (mem_blockOrder.mp hp))
    (fun p hp => (mem_listed.mp (mem_listed_of_block (mem_blockOrder.mp hp))).1)
    (@nodup_blockOrder inst base)
  -- The listed registers are neither the base nor R15.
  have hlisted : ∀ m < 16, m ∉ listed inst → reg (mode.genReg m) = c.reg (mode.genReg m) := by
    intro m hm hnot
    refine hothers _ fun p hp hsame => hnot ?_
    have hp := mem_listed_of_block (mem_blockOrder.mp hp)
    rwa [mode.genReg_inj hm (mem_listed.mp hp).1 hsame]
  refine ⟨blockDone mode inst base { c with reg }, ?_, ?_⟩
  · simp only [blockXfer_eq aica plain hmode hbase aligned, blockAccess, load, if_true, hfold,
      map_some]
  constructor
  case words =>
    intro p hp
    have hreg := mem_listed_of_block hp
    have hrn : mode.genReg p.1 ≠ mode.genReg (regField inst 16) := fun hsame =>
      plain.noBase (mode.genReg_inj (mem_listed.mp hreg).1 (regField_lt _ _) hsame ▸ hreg)
    have hpc : p.1 ≠ 15 := plain.ne_pc (mem_blockOrder.mpr hp)
    rw [blockDone_other _ hrn (genReg_ne_pc mode hpc)]
    exact hwords p (mem_blockOrder.mpr hp)
  case mem => rw [blockDone_mem]
  case base_eq =>
    have hkept : reg (mode.genReg (regField inst 16)) = base :=
      (hlisted _ (regField_lt _ _) plain.noBase).trans hbase
    rw [blockDone_base plain]
    exact congrArg (fun b => if bit inst 21 then movedBase inst base else b) hkept
  case pc =>
    have hpc := hlisted 15 (by decide) plain.noPc
    rw [mode.genReg_pc] at hpc
    rw [blockDone_pc plain]
    exact congrArg (· + 4) hpc
  case others =>
    intro i hi hrn hpc
    rw [blockDone_other _ hrn hpc]
    exact hothers i fun p hp => hi p.1 (mem_listed_of_block (mem_blockOrder.mp hp))

end

end

/-! ## Storing and loading again -/

/-- The load that undoes a store with write-back: in the other direction, with the other setting of
the P bit. -/
structure Undoes (inst inst' : UInt32) : Prop where
  list : listed inst' = listed inst
  base : regField inst' 16 = regField inst 16
  pre : bit inst' 24 = !bit inst 24
  up : bit inst' 23 = !bit inst 23
  sClear : bit inst' 22 = false
  writeback : bit inst' 21 = true
  load : bit inst' 20 = true

namespace Undoes

variable {inst' : UInt32} (undoes : Undoes inst inst')

include undoes

theorem plain (plain : PlainBlock inst) : PlainBlock inst' where
  sClear := undoes.sClear
  nonempty := undoes.list ▸ plain.nonempty
  noPc := undoes.list ▸ plain.noPc
  noBase := by rw [undoes.list, undoes.base]; exact plain.noBase
  notPc := undoes.base ▸ plain.notPc

theorem blockBytes_eq : blockBytes inst' = blockBytes inst := by
  rw [blockBytes, undoes.list, blockBytes]

theorem block_eq (base : UInt32) : block inst' (movedBase inst base) = block inst base := by
  have hlowest : lowest inst' (movedBase inst base) = lowest inst base := by
    rw [lowest, lowest, movedBase, undoes.up, undoes.pre, undoes.blockBytes_eq]
    cases bit inst 23 <;> cases bit inst 24 <;> simp
  rw [block, hlowest, undoes.list, block]

theorem movedBase_eq (base : UInt32) : movedBase inst' (movedBase inst base) = base := by
  rw [movedBase, movedBase, undoes.up, undoes.blockBytes_eq]
  cases bit inst 23 <;> simp

end Undoes

section
variable {mode : Mode} {inst' base : UInt32} {c c' d : Core σ}

theorem Stored.restored (aica : AicaSys σ) (stored : Stored mode inst base c c')
    (plain : PlainBlock inst) (undoes : Undoes inst inst') (writeback : bit inst 21 = true)
    (aligned : base.toNat % 4 = 0) (ram : InRam inst base) (hmode : modeOf d.cpsr = some mode)
    (mem : d.mem = c'.mem)
    (same : d.reg (mode.genReg (regField inst 16)) = c'.reg (mode.genReg (regField inst 16))) :
    ∃ d', blockXfer aica inst' d = some d' ∧
      (∀ n ∈ listed inst, d'.reg (mode.genReg n) = c.reg (mode.genReg n)) ∧
      d'.reg (mode.genReg (regField inst 16)) = base := by
  have hbase : d.reg (mode.genReg (regField inst' 16)) = movedBase inst base := by
    rw [undoes.base, same, stored.base_eq, if_pos writeback]
  have hram : InRam inst' (movedBase inst base) := by
    rw [InRam, undoes.block_eq]
    exact ram
  have haligned : (movedBase inst base).toNat % 4 = 0 := by
    unfold movedBase
    split
    · exact aligned_add aligned (aligned_blockBytes inst)
    · exact aligned_sub aligned (aligned_blockBytes inst)
  obtain ⟨d', hxfer, hloaded⟩ :=
    blockXfer_loaded aica (undoes.plain plain) hmode hbase haligned hram undoes.load
  refine ⟨d', hxfer, ?_, ?_⟩
  · intro n hn
    obtain ⟨addr, hp⟩ := @exists_mem_block inst base n hn
    have hload := hloaded.words (n, addr) (undoes.block_eq base ▸ hp)
    rw [hload, mem, stored.words (n, addr) hp]
  · have hbase' := hloaded.base_eq
    rwa [undoes.base, undoes.writeback, if_pos rfl, undoes.movedBase_eq] at hbase'

end

/-- A block transfer takes the listed registers with the words of the block, in increasing order or
in the opposite order. In wave memory it stores or loads them and writes the base back, and the load
that undoes a store with write-back restores the registers and the base. -/
theorem blockXfer_transfers (aica : AicaSys σ) (mode : Mode) (inst base : UInt32) (c : Core σ)
    (plain : PlainBlock inst) (hmode : modeOf c.cpsr = some mode)
    (hbase : c.reg (mode.genReg (regField inst 16)) = base) (aligned : base.toNat % 4 = 0) :
    blockXfer aica inst c =
        ((blockOrder inst (block inst base)).foldlM (fun c p => blockAccess aica inst p c) c).map
          (blockDone mode inst base) ∧
      (InRam inst base → bit inst 20 = true →
        ∃ c', blockXfer aica inst c = some c' ∧ Loaded mode inst base c c') ∧
      (InRam inst base → bit inst 20 = false →
        ∃ c', blockXfer aica inst c = some c' ∧ Stored mode inst base c c' ∧
          (bit inst 21 = true → ∀ inst', Undoes inst inst' → ∀ d : Core σ,
            modeOf d.cpsr = some mode → d.mem = c'.mem →
            d.reg (mode.genReg (regField inst 16)) = c'.reg (mode.genReg (regField inst 16)) →
              ∃ d', blockXfer aica inst' d = some d' ∧
                (∀ n ∈ listed inst, d'.reg (mode.genReg n) = c.reg (mode.genReg n)) ∧
                d'.reg (mode.genReg (regField inst 16)) = base)) := by
  refine ⟨blockXfer_eq aica plain hmode hbase aligned,
    blockXfer_loaded aica plain hmode hbase aligned, ?_⟩
  intro ram store
  obtain ⟨c', hxfer, hstored⟩ := blockXfer_stored aica plain hmode hbase aligned ram store
  refine ⟨c', hxfer, hstored, ?_⟩
  intro writeback inst' undoes d hmode' mem same
  exact hstored.restored aica plain undoes writeback aligned ram hmode' mem same

/-- STMDB R0!, with R1 and R2 in the list, and LDMIA, which undoes it. -/
theorem blockXfer_transfers_push :
    let c := (bootCpu (fun i => if i = 0 then 0x1000 else 7) []).toCore
    InRam 0xe9200006 0x1000 ∧ Undoes 0xe9200006 0xe8b00006 ∧
      ∃ c', blockXfer noAica 0xe9200006 c = some c' ∧ Stored .svc 0xe9200006 0x1000 c c' := by
  have ram : InRam 0xe9200006 0x1000 := by
    unfold InRam
    decide
  obtain ⟨-, -, hstore⟩ := blockXfer_transfers noAica .svc 0xe9200006 0x1000
    (bootCpu (fun i => if i = 0 then 0x1000 else 7) []).toCore
    ⟨by decide, by decide, by decide, by decide, by decide⟩ rfl rfl rfl
  obtain ⟨c', hxfer, hstored, -⟩ := hstore ram rfl
  exact ⟨ram, ⟨by decide, by decide, by decide, by decide, by decide, by decide, by decide⟩, c',
    hxfer, hstored⟩

end Arm7
