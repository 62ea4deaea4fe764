import WashingtonDC.Jit.Il

/-!
# Reads from constant addresses

`jit_mem.c`: a read from a constant address in system memory is compiled to a load from the memory of
the host. The load is exact where `MemoryMap.c` reads the same bytes. It does not for an address
that is not a multiple of the size, because the handlers of system memory round the address down;
and the test for 16 bits is that for 32 bits, which passes where an access wraps around behind the
range mask.
-/
namespace Jit

open ByteMemory MemoryMap Option

def findRam (map : MemoryMap) : Option Region := map.regions.find? fun region => region.id = .ram

/-- The test of `jit_mem.c`, for both sizes. -/
def inRam (ram : Region) (addr : UInt32) : Bool :=
  ram.firstAddr ≤ addr &&& ram.rangeMask && (addr + 3) &&& ram.rangeMask ≤ ram.lastAddr

def hostAddr (ram : Region) (addr : UInt32) : UInt64 := ram.ctxt + (addr &&& ram.mask).toUInt64

/-- The instruction for a read: `fast` from the memory of the host, `slow` through the map. -/
def readConstaddr (map : MemoryMap) (addr : UInt32) (fast : UInt64 → JitInst) (slow : JitInst) :
    JitInst :=
  match findRam map with
  | some ram => if inRam ram addr then fast (hostAddr ram addr) else slow
  | none => slow

def jitMemReadConstaddr32 (map : MemoryMap) (addr : UInt32) (slotNo : Nat) : JitInst :=
  readConstaddr map addr (.loadSlot · slotNo) (.read32Constaddr map addr slotNo)

def jitMemReadConstaddr16 (map : MemoryMap) (addr : UInt32) (slotNo : Nat) : JitInst :=
  readConstaddr map addr (.loadSlot16 · slotNo) (.read16Constaddr map addr slotNo)

/-- An instruction puts into the slot what a read through the map returns at that time. -/
def Reads {δ : Type} (ramIntf : Interface) (inst : JitInst) (a : Access) (map : MemoryMap)
    (addr : UInt32) (slotNo : Nat) : Prop :=
  ∀ env : Env δ, env.ram = ramIntf → ∀ s, inst.exec env s =
    (env.access a map addr none s.world).map fun r => .goes (s.setRead slotNo r)

def wordAddr (a : Access) (addr : UInt32) (ctxt : UInt64) : UInt64 :=
  match a with
  | .read16 => ctxt + (addr >>> 1).toUInt64 * 2
  | _ => ctxt + (addr >>> 2).toUInt64 * 4

/-- A read through the map calls the handler of system memory, which reads at `ptr`. -/
def ReadsAt (ramIntf : Interface) (a : Access) (map : MemoryMap) (addr : UInt32) (ptr : UInt64) :
    Prop :=
  ∃ addr' ctxt, map.access a addr none = .calls (ramIntf.handler a) addr' none ctxt ∧
    wordAddr a addr' ctxt = ptr

def Uncovered (map : MemoryMap) (addr : UInt32) : Prop :=
  ∀ pre ram post, map.regions = pre ++ ram :: post → findRam map = some ram →
    ∀ reg ∈ pre, ∀ a : Access, ram.covers a.size addr = true → reg.covers a.size addr = false

section

variable {δ : Type} {ramIntf : Interface} {map : MemoryMap} {ram : Region} {addr : UInt32}
  {slotNo : Nat}

theorem inRam_eq (ram : Region) (addr : UInt32) : inRam ram addr = ram.covers 4 addr := by
  have hlast : (4 : UInt32) - 1 + addr = addr + 3 := by
    rw [UInt32.add_comm]
    rfl
  rw [inRam, Region.covers, hlast]

def hostLoad (a : Access) (mem : Memory) (ptr : UInt64) : UInt32 :=
  match a with
  | .read16 => (UInt16.ofNat (load mem ptr.toNat 2)).toUInt32
  | _ => .ofNat (load mem ptr.toNat 4)

theorem exists_hostLoad_ne (a : Access) {p q : UInt64} (ne : p ≠ q) :
    ∃ mem, hostLoad a mem p ≠ hostLoad a mem q := by
  have hne : p.toNat ≠ q.toNat := fun h => ne (UInt64.toNat_inj.mp h)
  cases a with
  | read16 =>
    obtain ⟨mem, hload⟩ := exists_load_ne hne (show 0 < 2 by decide)
    refine ⟨mem, fun heq => hload ?_⟩
    have hp := load_lt mem p.toNat 2
    have hq := load_lt mem q.toNat 2
    have := congrArg UInt32.toNat heq
    simp only [hostLoad, UInt16.toNat_toUInt32, UInt16.toNat_ofNat'] at this
    omega
  | read32 | write32 =>
    obtain ⟨mem, hload⟩ := exists_load_ne hne (show 0 < 4 by decide)
    refine ⟨mem, fun heq => hload ?_⟩
    have hp := load_lt mem p.toNat 4
    have hq := load_lt mem q.toNat 4
    have := congrArg UInt32.toNat heq
    simp only [hostLoad, UInt32.toNat_ofNat'] at this
    omega

variable {a : Access} {w : World δ}

theorem access_ram {env : Env δ} {addr' : UInt32} {ctxt : UInt64} (read : a ≠ .write32)
    (calls : map.access a addr none = .calls (env.ram.handler a) addr' none ctxt) :
    env.access a map addr none w = some (hostLoad a w.mem (wordAddr a addr' ctxt), w) := by
  rw [Env.access, calls, perform, if_pos rfl]
  cases a with
  | read16 => rfl
  | read32 => rfl
  | write32 => exact absurd rfl read

def silentEnv (ramIntf : Interface) : Env δ where
  fallback _ _ _ := none
  callFunc _ _ _ := none
  handler _ _ _ _ _ _ := none
  ram := ramIntf

theorem access_silent {r : UInt32 × World δ}
    (h : (silentEnv ramIntf : Env δ).access a map addr none w = some r) :
    ∃ addr' ctxt, map.access a addr none = .calls (ramIntf.handler a) addr' none ctxt := by
  rw [Env.access] at h
  rcases access_cases map a addr none with ⟨fn, addr', ctxt, hcalls⟩ | ⟨e, hraises⟩
  · by_cases hfn : fn = ramIntf.handler a
    · exact ⟨addr', ctxt, by rw [hcalls, hfn]⟩
    · have hperform : perform ramIntf a w.mem (.calls fn addr' none ctxt) = .calls fn addr' none ctxt :=
        if_neg hfn
      simp only [hcalls, silentEnv, hperform] at h
      cases h
  · rw [hraises] at h
    cases h

section
variable {fast : UInt64 → JitInst} {slow : JitInst}

theorem reads_iff [Inhabited δ] (read : a ≠ .write32)
    (hfast : ∀ (env : Env δ) s ptr,
      (fast ptr).exec env s = Next.set s slotNo (hostLoad a s.world.mem ptr))
    (hslow : ∀ (env : Env δ) s, slow.exec env s =
      (env.access a map addr none s.world).map fun r => .goes (s.setRead slotNo r)) :
    Reads (δ := δ) ramIntf (readConstaddr map addr fast slow) a map addr slotNo ↔
      ∀ ram ∈ findRam map, inRam ram addr → ReadsAt ramIntf a map addr (hostAddr ram addr) := by
  constructor
  · intro hreads ram hram hin
    have hinst : readConstaddr map addr fast slow = fast (hostAddr ram addr) := by
      rw [readConstaddr, mem_def.mp hram]
      exact if_pos hin
    have hexec : ∀ s, Next.set s slotNo (hostLoad a s.world.mem (hostAddr ram addr)) =
        ((silentEnv ramIntf : Env δ).access a map addr none s.world).map fun r =>
          .goes (s.setRead slotNo r) := by
      intro s
      rw [← hfast (silentEnv ramIntf) s, ← hinst]
      exact hreads (silentEnv ramIntf) rfl s
    -- the read returns, so it was one of system memory
    obtain ⟨r, haccess, -⟩ := map_eq_some_iff.mp
      (hexec ⟨fun _ => 0, ⟨fun _ => 0, default⟩⟩).symm
    obtain ⟨addr', ctxt, hcalls⟩ := access_silent haccess
    refine ⟨addr', ctxt, hcalls, ?_⟩
    by_contra hne
    obtain ⟨mem, hmem⟩ := exists_hostLoad_ne a hne
    have hsame := hexec ⟨fun _ => 0, ⟨mem, default⟩⟩
    have haccess' : (silentEnv ramIntf : Env δ).access a map addr none ⟨mem, default⟩ = _ :=
      access_ram read hcalls
    rw [haccess'] at hsame
    rw [Next.set, map_some, some_inj, Next.goes.injEq] at hsame
    have hslots := congrArg (fun s : State δ => s.slots slotNo) hsame
    simp only [State.set, State.setRead, Function.update_self] at hslots
    exact hmem hslots.symm
  · rintro hall env rfl s
    rw [readConstaddr]
    split
    · rename_i ram hram
      split
      · rename_i hin
        obtain ⟨addr', ctxt, hcalls, hptr⟩ := hall ram hram hin
        rw [hfast, access_ram read hcalls, hptr]
        rfl
      · exact hslow env s
    · exact hslow env s

end

theorem access_uncovered (uncovered : Uncovered map addr) (found : findRam map = some ram)
    (covers : ram.covers a.size addr = true) :
    map.access a addr none = .calls (ram.intf.handler a) (addr &&& ram.mask) none ram.ctxt := by
  obtain ⟨-, pre, post, hregions, -⟩ := List.find?_eq_some_iff_append.mp found
  have hfirst : map.regions.find? (·.covers a.size addr) = some ram := by
    refine List.find?_eq_some_iff_append.mpr ⟨covers, pre, post, hregions, fun reg hreg => ?_⟩
    rw [uncovered pre ram post hregions found reg hreg a covers]
    rfl
  simp only [MemoryMap.access, hfirst]

theorem wordAddr_eq_iff (ctxt : UInt64) (x : UInt32) :
    (wordAddr .read32 x ctxt = ctxt + x.toUInt64 ↔ x % 4 = 0) ∧
      (wordAddr .read16 x ctxt = ctxt + x.toUInt64 ↔ x % 2 = 0) := by
  constructor
  all_goals
    simp only [wordAddr, ← UInt64.toNat_inj, ← UInt32.toNat_inj]
    simp
    omega

theorem readsAt_iff_wordAddr (uncovered : Uncovered map addr) (found : findRam map = some ram)
    (covers : ram.covers a.size addr = true) :
    ReadsAt ram.intf a map addr (hostAddr ram addr) ↔
      wordAddr a (addr &&& ram.mask) ram.ctxt = ram.ctxt + (addr &&& ram.mask).toUInt64 := by
  rw [ReadsAt, access_uncovered uncovered found covers, hostAddr]
  constructor
  · rintro ⟨addr', ctxt, hcalls, hword⟩
    cases hcalls
    exact hword
  · exact fun hword => ⟨_, _, rfl, hword⟩

end

/-- What is compiled for a constant address puts the value of `memory_map_read_32` or
`memory_map_read_16` into the slot, at any time, exactly under these conditions. -/
theorem jitMemReadConstaddr_iff {δ : Type} [Inhabited δ] {ramIntf : Interface} {map : MemoryMap}
    {addr : UInt32} (handlers : ∀ ram ∈ findRam map, ram.intf = ramIntf)
    (uncovered : Uncovered map addr) (slotNo : Nat) :
    (Reads (δ := δ) ramIntf (jitMemReadConstaddr32 map addr slotNo) .read32 map addr slotNo ↔
      ∀ ram ∈ findRam map, ram.covers 4 addr = true → (addr &&& ram.mask) % 4 = 0) ∧
    (Reads (δ := δ) ramIntf (jitMemReadConstaddr16 map addr slotNo) .read16 map addr slotNo ↔
      ∀ ram ∈ findRam map, ram.covers 4 addr = true →
        if ram.covers 2 addr = true then (addr &&& ram.mask) % 2 = 0
        else ReadsAt ramIntf .read16 map addr (hostAddr ram addr)) := by
  constructor
  · rw [jitMemReadConstaddr32, reads_iff (by decide) (fun _ _ _ => rfl) (fun _ _ => rfl)]
    refine forall₂_congr fun ram found => ?_
    rw [inRam_eq]
    refine forall_congr' fun covers => ?_
    rw [← handlers ram found]
    rw [readsAt_iff_wordAddr (a := .read32) uncovered found covers, (wordAddr_eq_iff _ _).1]
  · rw [jitMemReadConstaddr16, reads_iff (by decide) (fun _ _ _ => rfl) (fun _ _ => rfl)]
    refine forall₂_congr fun ram found => ?_
    rw [inRam_eq]
    refine forall_congr' fun _ => ?_
    rw [← handlers ram found]
    split
    · rename_i covers
      rw [readsAt_iff_wordAddr (a := .read16) uncovered found covers, (wordAddr_eq_iff _ _).2]
    · exact Iff.rfl

/-! ## A map with system memory -/

def ramHandlers : Interface := ⟨0x1000, 0x2000, 0x3000⟩

def ramOnly : MemoryMap where
  regions := [{
    firstAddr := 0x0c000000
    lastAddr := 0x0cffffff
    rangeMask := 0x1fffffff
    mask := 0x00ffffff
    ctxt := 0x10000
    id := .ram
    intf := ramHandlers }]
  regions_le := by decide
  unmap := none
  unmapCtxt := 0

theorem ramOnly_handlers : ∀ ram ∈ findRam ramOnly, ram.intf = ramHandlers := by
  rintro ram hram
  obtain rfl : _ = ram := Option.some.inj hram
  rfl

theorem ramOnly_uncovered (addr : UInt32) : Uncovered ramOnly addr := by
  intro pre ram post hregions
  cases pre with
  | nil => simp
  | cons reg pre => simp [ramOnly] at hregions

theorem jitMemReadConstaddr_mirror :
    Reads (δ := Unit) ramHandlers (jitMemReadConstaddr32 ramOnly 0x8c000010 3) .read32 ramOnly
      0x8c000010 3 := by
  refine (jitMemReadConstaddr_iff ramOnly_handlers (ramOnly_uncovered _) 3).1.mpr ?_
  intro ram hram _
  obtain rfl : _ = ram := Option.some.inj hram
  decide

/-- Addresses that are not aligned, and an aligned one whose two following bytes are behind the
range mask. -/
theorem jitMemReadConstaddr_differs : (∀ addr, Uncovered ramOnly addr) ∧
    ¬ Reads (δ := Unit) ramHandlers (jitMemReadConstaddr32 ramOnly 0x0c000001 3) .read32 ramOnly
      0x0c000001 3 ∧
    ¬ Reads (δ := Unit) ramHandlers (jitMemReadConstaddr16 ramOnly 0x0c000001 3) .read16 ramOnly
      0x0c000001 3 ∧
    ¬ Reads (δ := Unit) ramHandlers (jitMemReadConstaddr16 ramOnly 0x1ffffffe 3) .read16 ramOnly
      0x1ffffffe 3 := by
  refine ⟨ramOnly_uncovered, ?_, ?_, ?_⟩
  · rw [jitMemReadConstaddr32, reads_iff (by decide) (fun _ _ _ => rfl) (fun _ _ => rfl)]
    intro hall
    obtain ⟨addr', ctxt, hcalls, hword⟩ := hall _ rfl (by decide)
    cases hcalls
    revert hword
    decide
  · rw [jitMemReadConstaddr16, reads_iff (by decide) (fun _ _ _ => rfl) (fun _ _ => rfl)]
    intro hall
    obtain ⟨addr', ctxt, hcalls, hword⟩ := hall _ rfl (by decide)
    cases hcalls
    revert hword
    decide
  · rw [jitMemReadConstaddr16, reads_iff (by decide) (fun _ _ _ => rfl) (fun _ _ => rfl)]
    intro hall
    obtain ⟨addr', ctxt, hcalls, -⟩ := hall _ rfl (by decide)
    cases hcalls

end Jit
