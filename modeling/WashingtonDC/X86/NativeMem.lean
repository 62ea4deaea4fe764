import WashingtonDC.MemoryMap
import WashingtonDC.X86.Machine
import Mathlib.Data.List.Find

/-!
# Memory accesses of recompiled code

`native_mem.c` translates a memory map into machine code that does the same as the functions of
`MemoryMap.c`, with accesses to system memory inline. The code is compared with those functions
for maps of regular regions. It does not agree with them on addresses that are not mapped: a write
passes the wrong value and context to its handler, and the error that is raised without a handler is
another one.
-/
namespace NativeMem

open MemoryMap X86 List Inst

/-! ## The code -/

/-- The registers of the arguments in the System V calling convention. -/
abbrev arg0 : Reg := .rdi
abbrev arg1 : Reg := .rsi
abbrev arg2 : Reg := .rdx
abbrev arg3 : Reg := .rcx
abbrev regRet : Reg := .rax
abbrev regVol1 : Reg := .r11

def ctxtReg : Access → Reg
  | .read16 => arg1
  | .read32 => arg1
  | .write32 => arg2

def emitRamRead32 (region : Region) : List Inst :=
  [.andlImm32Reg32 region.mask arg0, .movImm64Reg64 region.ctxt arg1,
    .movlSibReg arg1 arg0 regRet]

def emitRamRead16 (region : Region) : List Inst :=
  [.andlImm32Reg32 region.mask arg0, .movImm64Reg64 region.ctxt arg1,
    .movwSibReg arg1 arg0 regRet]

def emitRamWrite32 (region : Region) : List Inst :=
  [.andlImm32Reg32 region.mask arg0, .movImm64Reg64 region.ctxt regRet,
    .movlRegSib arg1 regRet arg0]

def emitRam : Access → Region → List Inst
  | .read16 => emitRamRead16
  | .read32 => emitRamRead32
  | .write32 => emitRamWrite32

/-- The access to a region that has been found: inline, or a tail call. -/
def emitAccess (a : Access) (region : Region) : List Inst :=
  match region.id with
  | .ram => emitRam a region ++ [.ret]
  | .unknown =>
    [.andlImm32Reg32 region.mask arg0, .movImm64Reg64 region.ctxt (ctxtReg a),
      .movImm64Reg64 (region.intf.handler a) arg3, .jmpqReg64 arg3]

/-- The last address at which an access of `size` bytes may start. -/
def regionEnd (size : UInt32) (region : Region) : UInt32 := region.lastAddr - (size - 1)

def emitRegion (a : Access) (region : Region) : List Inst :=
  [.movReg32Reg32 arg0 regRet, .andlImm32Reg32 region.rangeMask regRet,
    .cmplImm32Reg32 region.firstAddr regRet, .jcc .below 0,
    .cmplImm32Reg32 (regionEnd a.size region) regRet, .jcc .above 0] ++
  emitAccess a region ++ [.lbl8Define 0]

/-- For each of the three functions the context goes to the register of the second argument. -/
def emitUnmapped (errorFunc : UInt64) (map : MemoryMap) (a : Access) : List Inst :=
  let error := [.movImm64Reg64 errorFunc regVol1, .jmpqReg64 regVol1]
  match map.unmap with
  | some unmap =>
    if unmap.handler a ≠ 0 then
      [.movReg32Reg32 arg0 regRet, .movImm64Reg64 map.unmapCtxt arg1,
        .movImm64Reg64 (unmap.handler a) arg3, .jmpqReg64 arg3]
    else error
  | none => error

def emitNativeMem (errorFunc : UInt64) (map : MemoryMap) (a : Access) : List Inst :=
  map.regions.flatMap (emitRegion a) ++ emitUnmapped errorFunc map a

/-! ## Its execution -/

/-- The functions that the code is linked with: the handlers of system memory, and the function
that raises an integrity error. -/
structure Host where
  ram : Interface
  errorFunc : UInt64

variable (host : Host)

/-- A handler finds the address in its first argument; a handler that writes finds the value in
the second. -/
def handlerCall (a : Access) (fn : UInt64) (s : State) : Result :=
  match a with
  | .read16 => .calls fn (s.reg32 arg0) none (s.reg arg1)
  | .read32 => .calls fn (s.reg32 arg0) none (s.reg arg1)
  | .write32 => .calls fn (s.reg32 arg0) (some (s.reg32 arg1)) (s.reg arg2)

/-- What the caller of the code gets. A read of 16 bits is followed by a mask. -/
def returned (a : Access) (s : State) : Result :=
  match a with
  | .read16 => .returns (some (s.reg32 regRet &&& 0xffff)) s.mem
  | .read32 => .returns (some (s.reg32 regRet)) s.mem
  | .write32 => .returns none s.mem

def result (a : Access) : Exit → Option Result
  | .jumped fn s => some (if fn = host.errorFunc then .raises .integrity else handlerCall a fn s)
  | .returned s => some (returned a s)
  | .stuck => none

def emitNativeMemRead16 (map : MemoryMap) : List Inst := emitNativeMem host.errorFunc map .read16

def emitNativeMemRead32 (map : MemoryMap) : List Inst := emitNativeMem host.errorFunc map .read32

def emitNativeMemWrite32 (map : MemoryMap) : List Inst := emitNativeMem host.errorFunc map .write32

/-- An access by the code, with the address and the value in the registers of `s`. -/
def nativeAccess (map : MemoryMap) (a : Access) (s : State) : Option Result :=
  let code := match a with
    | .read16 => emitNativeMemRead16 host map
    | .read32 => emitNativeMemRead32 host map
    | .write32 => emitNativeMemWrite32 host map
  (result host a (run none code s)).map (perform host.ram a s.mem)

/-- The same access by the functions of `MemoryMap.c`. -/
def mapAccess (map : MemoryMap) (a : Access) (s : State) : Result :=
  perform host.ram a s.mem
    (match a with
    | .read16 => map.read16 (s.reg32 arg0)
    | .read32 => map.read32 (s.reg32 arg0)
    | .write32 => map.write32 (s.reg32 arg0) (s.reg32 arg1))

/-! ## The search for a region -/

def Aligned (a : Access) (addr : UInt32) : Prop := addr &&& (a.size - 1) = 0

/-- The range mask keeps the low bits, and there is room for a word in the region. -/
structure Regular (reg : Region) : Prop where
  lowBits : 3 &&& reg.rangeMask = 3
  room : 3 ≤ reg.lastAddr

def selects (a : Access) (reg : Region) (addr : UInt32) : Bool :=
  reg.firstAddr ≤ addr &&& reg.rangeMask && addr &&& reg.rangeMask ≤ regionEnd a.size reg

section
variable {a : Access} {reg : Region} {addr : UInt32}

theorem Regular.within (regular : Regular reg) : (a.size - 1) &&& reg.rangeMask = a.size - 1 := by
  have hsub : (a.size - 1) &&& 3 = a.size - 1 := by cases a <;> rfl
  rw [← hsub, UInt32.and_assoc, regular.lowBits]

theorem Regular.room_access (regular : Regular reg) : a.size - 1 ≤ reg.lastAddr := by
  have hle : a.size - 1 ≤ 3 := by cases a <;> decide
  exact UInt32.le_trans hle regular.room

theorem Regular.selects_eq (regular : Regular reg) (aligned : Aligned a addr) :
    selects a reg addr = reg.covers a.size addr := by
  unfold selects Region.covers regionEnd
  rw [UInt32.add_comm (a.size - 1), WordMask.add_and_of_subset aligned regular.within]
  congr 1
  exact decide_eq_decide.mpr (WordMask.add_le_iff_of_disjoint
    (WordMask.and_disjoint reg.rangeMask aligned) regular.room_access).symm

end

/-! ## The code of a region -/

/-- The arguments of the access are the same in both states. -/
structure SameArgs (s s' : State) : Prop where
  first : s'.reg arg0 = s.reg arg0
  second : s'.reg arg1 = s.reg arg1
  third : s'.reg arg2 = s.reg arg2
  mem : s'.mem = s.mem

theorem emitAccess_no_label (a : Access) (reg : Region) (l : Nat) :
    .lbl8Define l ∉ emitAccess a reg := by
  unfold emitAccess
  split
  · cases a <;> simp [emitRam, emitRamRead16, emitRamRead32, emitRamWrite32]
  · simp

def probe (reg : Region) (s : State) : State :=
  (andlImm32Reg32 reg.rangeMask regRet).exec ((movReg32Reg32 arg0 regRet).exec s)

/-- The state when the masked address has been compared with `bound`. -/
def compared (reg : Region) (bound : UInt32) (s : State) : State :=
  (cmplImm32Reg32 bound regRet).exec (probe reg s)

theorem compared_args (reg : Region) (bound : UInt32) (s : State) :
    SameArgs s (compared reg bound s) := by
  constructor <;> simp [compared, probe, exec]

theorem probe_ret (reg : Region) (s : State) :
    (probe reg s).reg32 regRet = s.reg32 arg0 &&& reg.rangeMask := by
  simp [probe, exec]

theorem compared_flags (reg : Region) (bound : UInt32) (s : State) :
    (compared reg bound s).flags =
      some ⟨s.reg32 arg0 &&& reg.rangeMask < bound, s.reg32 arg0 &&& reg.rangeMask = bound⟩ := by
  simp [compared, exec, State.setFlags, probe_ret]

theorem run_region (a : Access) (reg : Region) (rest : List Inst) (s : State) :
    ∃ s', SameArgs s s' ∧
      run none (emitRegion a reg ++ rest) s =
        if selects a reg (s.reg32 arg0) then
          run none (emitAccess a reg ++ .lbl8Define 0 :: rest) s'
        else run none rest s' := by
  have skip : ∀ t, run (some 0) (emitAccess a reg ++ .lbl8Define 0 :: rest) t = run none rest t :=
    run_skip (fun l hl => absurd hl (emitAccess_no_label a reg l)) rest
  have hrun : run none (emitRegion a reg ++ rest) s =
      run none (.jcc .below 0 :: .cmplImm32Reg32 (regionEnd a.size reg) regRet ::
        .jcc .above 0 :: (emitAccess a reg ++ .lbl8Define 0 :: rest))
        (compared reg reg.firstAddr s) := by
    simp only [emitRegion, cons_append, nil_append, append_assoc, run]
    rfl
  rw [hrun]
  rw [run_jcc (compared_flags reg reg.firstAddr s)]
  by_cases hfirst : s.reg32 arg0 &&& reg.rangeMask < reg.firstAddr
  · refine ⟨compared reg reg.firstAddr s, compared_args reg _ s, ?_⟩
    have hselects : ¬selects a reg (s.reg32 arg0) = true := by
      simp [selects, UInt32.not_le.mpr hfirst]
    rw [if_neg hselects, if_pos (below_holds.mpr hfirst)]
    exact skip _
  · refine ⟨compared reg (regionEnd a.size reg) s, compared_args reg _ s, ?_⟩
    rw [if_neg (mt below_holds.mp hfirst)]
    change run none (.jcc .above 0 :: _) (compared reg (regionEnd a.size reg) s) = _
    rw [run_jcc (compared_flags reg (regionEnd a.size reg) s)]
    have hselects : selects a reg (s.reg32 arg0) = true ↔
        s.reg32 arg0 &&& reg.rangeMask ≤ regionEnd a.size reg := by
      simp [selects, UInt32.not_lt.mp hfirst]
    by_cases hend : s.reg32 arg0 &&& reg.rangeMask ≤ regionEnd a.size reg
    · rw [if_pos (hselects.mpr hend), if_neg (fun h => above_holds.mp h hend)]
    · rw [if_neg (mt hselects.mp hend), if_pos (above_holds.mpr hend)]
      exact skip _

/-! ## Accesses -/

def written (a : Access) (s : State) : Option UInt32 :=
  match a with
  | .read16 => none
  | .read32 => none
  | .write32 => some (s.reg32 arg1)

theorem shifted_one {addr : UInt32} (aligned : addr &&& 1 = 0) :
    (addr >>> 1).toUInt64 * 2 = addr.toUInt64 := by
  have hmod : addr.toNat % 2 ^ 1 = 0 := WordMask.mod_of_low_bits addr rfl aligned
  have hlt := addr.toNat_lt
  apply UInt64.toNat_inj.mp
  simp [Nat.shiftRight_eq_div_pow]
  omega

theorem shifted_two {addr : UInt32} (aligned : addr &&& 3 = 0) :
    (addr >>> 2).toUInt64 * 4 = addr.toUInt64 := by
  have hmod : addr.toNat % 2 ^ 2 = 0 := WordMask.mod_of_low_bits addr rfl aligned
  have hlt := addr.toNat_lt
  apply UInt64.toNat_inj.mp
  simp [Nat.shiftRight_eq_div_pow]
  omega

section
variable {a : Access} {reg : Region} {s : State}

theorem ram_agrees (hid : reg.id = .ram) (aligned : Aligned a (s.reg32 arg0)) (rest : List Inst) :
    result host a (run none (emitAccess a reg ++ rest) s) =
      some (memoryAccess a (s.reg32 arg0 &&& reg.mask) (written a s) reg.ctxt s.mem) := by
  have masked := WordMask.and_disjoint reg.mask aligned
  unfold emitAccess
  rw [hid]
  cases a with
  | read16 =>
    rw [memoryAccess, memoryRead16, shifted_one masked]
    simp [emitRam, emitRamRead16, run, result, returned, exec, State.sib,
      State.reg32_set16_masked]
  | read32 =>
    rw [memoryAccess, memoryRead32, shifted_two masked]
    simp [emitRam, emitRamRead32, run, result, returned, exec, State.sib]
  | write32 =>
    rw [memoryAccess, memoryWrite32, shifted_two masked]
    simp [emitRam, emitRamWrite32, run, result, returned, exec, State.sib, written]

theorem handler_agrees (hid : reg.id = .unknown) (foreign : reg.intf.handler a ≠ host.errorFunc)
    (rest : List Inst) :
    result host a (run none (emitAccess a reg ++ rest) s) =
      some (.calls (reg.intf.handler a) (s.reg32 arg0 &&& reg.mask) (written a s) reg.ctxt) := by
  unfold emitAccess
  rw [hid]
  cases a <;>
    simp [run, result, exec, foreign, handlerCall, written, ctxtReg]

theorem SameArgs.refl : SameArgs s s := ⟨rfl, rfl, rfl, rfl⟩

theorem SameArgs.trans {s' s'' : State} (h : SameArgs s s') (h' : SameArgs s' s'') :
    SameArgs s s'' :=
  ⟨h'.first.trans h.first, h'.second.trans h.second, h'.third.trans h.third, h'.mem.trans h.mem⟩

theorem SameArgs.addr {s' : State} (same : SameArgs s s') : s'.reg32 arg0 = s.reg32 arg0 :=
  congrArg UInt64.toUInt32 same.first

theorem SameArgs.written {s' : State} (same : SameArgs s s') : written a s' = written a s := by
  cases a with
  | read16 => rfl
  | read32 => rfl
  | write32 => exact congrArg (fun x : UInt64 => some x.toUInt32) same.second

theorem run_regions (a : Access) (tail : List Inst) (regions : List Region) (s : State) :
    ∃ s', SameArgs s s' ∧
      match regions.find? (selects a · (s.reg32 arg0)) with
      | some reg => ∃ rest, run none (regions.flatMap (emitRegion a) ++ tail) s =
          run none (emitAccess a reg ++ rest) s'
      | none => run none (regions.flatMap (emitRegion a) ++ tail) s = run none tail s' := by
  induction regions generalizing s with
  | nil => exact ⟨s, .refl, rfl⟩
  | cons reg regions ih =>
    obtain ⟨s1, same1, hrun⟩ := run_region a reg (regions.flatMap (emitRegion a) ++ tail) s
    rw [flatMap_cons, append_assoc, hrun]
    cases hselects : selects a reg (s.reg32 arg0) with
    | true =>
      refine ⟨s1, same1, ?_⟩
      rw [find?_cons, hselects]
      exact ⟨_, if_pos rfl⟩
    | false =>
      obtain ⟨s2, same2, hrest⟩ := ih s1
      refine ⟨s2, same1.trans same2, ?_⟩
      rw [find?_cons, hselects, ← same1.addr]
      exact hrest

end

/-! ## Whole maps -/

/-- The map is one that the code can be emitted for: its regions are regular, regions that are
marked as system memory have its handlers, and the other functions are different ones. -/
structure Fits (map : MemoryMap) : Prop where
  regular : ∀ reg ∈ map.regions, Regular reg
  ram : ∀ reg ∈ map.regions, reg.id = .ram → reg.intf = host.ram
  handlers : ∀ reg ∈ map.regions, ∀ a, reg.intf.handler a ≠ host.errorFunc
  unmapped : ∀ unmap, map.unmap = some unmap → ∀ a,
    unmap.handler a ≠ host.errorFunc ∧ unmap.handler a ≠ host.ram.handler a

def Mapped (map : MemoryMap) (a : Access) (addr : UInt32) : Prop :=
  ∃ reg ∈ map.regions, reg.covers a.size addr = true

/-- There is a handler for an unmapped address. For a write, there are handlers for both
directions, and the value and the context are what the code happens to pass. -/
def Unmapped (map : MemoryMap) (a : Access) (s : State) : Prop :=
  ∃ unmap, map.unmap = some unmap ∧ unmap.tested a ≠ 0 ∧
    (a = .write32 → unmap.write32 ≠ 0 ∧ s.reg32 arg1 = map.unmapCtxt.toUInt32 ∧
      s.reg arg2 = map.unmapCtxt)

section
variable {host} {map : MemoryMap} {a : Access} {s : State}

theorem find_covers (fits : Fits host map) (aligned : Aligned a (s.reg32 arg0)) :
    map.regions.find? (selects a · (s.reg32 arg0)) =
      map.regions.find? (·.covers a.size (s.reg32 arg0)) :=
  find?_congr fun reg hmem => (fits.regular reg hmem).selects_eq aligned

theorem nativeAccess_eq :
    nativeAccess host map a s = (result host a (run none (map.regions.flatMap (emitRegion a) ++
      emitUnmapped host.errorFunc map a) s)).map (perform host.ram a s.mem) := by
  cases a <;> rfl

theorem mapAccess_eq :
    mapAccess host map a s =
      perform host.ram a s.mem (map.access a (s.reg32 arg0) (written a s)) := by
  cases a <;> rfl

theorem region_agrees {reg : Region} (fits : Fits host map) (hmem : reg ∈ map.regions)
    (aligned : Aligned a (s.reg32 arg0)) (rest : List Inst) :
    (result host a (run none (emitAccess a reg ++ rest) s)).map (perform host.ram a s.mem) =
      some (perform host.ram a s.mem (.calls (reg.intf.handler a) (s.reg32 arg0 &&& reg.mask)
        (written a s) reg.ctxt)) := by
  cases hid : reg.id with
  | ram =>
    rw [ram_agrees host hid aligned, fits.ram reg hmem hid, perform, if_pos rfl]
    cases a <;> rfl
  | unknown => rw [handler_agrees host hid (fits.handlers reg hmem a)]; rfl

theorem unmapped_result (fits : Fits host map) :
    result host a (run none (emitUnmapped host.errorFunc map a) s) =
      some (match map.unmap with
        | some unmap =>
          if unmap.handler a ≠ 0 then
            handlerCall a (unmap.handler a) (s.set arg1 map.unmapCtxt)
          else .raises .integrity
        | none => .raises .integrity) := by
  unfold emitUnmapped
  cases hunmap : map.unmap with
  | none => simp [run, result, exec]
  | some unmap =>
    have foreign := (fits.unmapped unmap hunmap a).1
    dsimp only
    split
    · cases a <;> simp [run, result, exec, foreign, handlerCall]
    · simp [run, result, exec]

theorem unmapped_agrees_iff (fits : Fits host map) (s : State) :
    (result host a (run none (emitUnmapped host.errorFunc map a) s)).map
        (perform host.ram a s.mem) =
      some (perform host.ram a s.mem (match map.unmap with
        | some unmap =>
          if unmap.tested a ≠ 0 then
            .calls (unmap.handler a) (s.reg32 arg0) (written a s) map.unmapCtxt
          else .raises (.unimplemented "memory mapping" (s.reg32 arg0) a.size)
        | none => .raises (.unimplemented "memory mapping" (s.reg32 arg0) a.size))) ↔
      Unmapped map a s := by
  rw [unmapped_result fits, Unmapped]
  cases hunmap : map.unmap with
  | none => simp [perform]
  | some unmap =>
    have foreign := (fits.unmapped unmap hunmap a).2
    cases a with
    | read16 =>
      have hram : unmap.read16 ≠ host.ram.read16 := foreign
      by_cases hnull : unmap.read16 = 0 <;>
        simp [perform, handlerCall, written, Interface.tested, Interface.handler, hnull, hram]
    | read32 =>
      have hram : unmap.read32 ≠ host.ram.read32 := foreign
      by_cases hnull : unmap.read32 = 0 <;>
        simp [perform, handlerCall, written, Interface.tested, Interface.handler, hnull, hram]
    | write32 =>
      have hram : unmap.write32 ≠ host.ram.write32 := foreign
      by_cases hwrite : unmap.write32 = 0
      · have hram' : 0 ≠ host.ram.write32 := hwrite ▸ hram
        by_cases hread : unmap.read32 = 0 <;>
          simp [perform, written, Interface.tested, Interface.handler, hread, hwrite, hram']
      · by_cases hread : unmap.read32 = 0 <;>
          simp [perform, handlerCall, written, Interface.tested, Interface.handler, hread, hwrite,
            hram, eq_comm]

/-- For every map of regular regions the code does what the functions of the map do with an aligned
address that is mapped. If it is not mapped the two agree only as `Unmapped` says. -/
theorem nativeAccess_eq_iff (host : Host) (map : MemoryMap) (fits : Fits host map) (a : Access)
    (s : State) (aligned : Aligned a (s.reg32 arg0)) :
    nativeAccess host map a s = some (mapAccess host map a s) ↔
      Mapped map a (s.reg32 arg0) ∨ Unmapped map a s := by
  obtain ⟨s', same, hrun⟩ := run_regions a (emitUnmapped host.errorFunc map a) map.regions s
  rw [find_covers fits aligned] at hrun
  rw [nativeAccess_eq, mapAccess_eq, access]
  cases hfind : map.regions.find? (·.covers a.size (s.reg32 arg0)) with
  | some reg =>
    rw [hfind] at hrun
    obtain ⟨rest, hrun⟩ := hrun
    have hmem := mem_of_find?_eq_some hfind
    have hcovers := find?_some hfind
    refine iff_of_true ?_ (.inl ⟨reg, hmem, hcovers⟩)
    rw [hrun, ← same.mem, region_agrees fits hmem (same.addr ▸ aligned), same.addr, same.written]
  | none =>
    rw [hfind] at hrun
    have unmapped : ¬Mapped map a (s.reg32 arg0) := by
      rintro ⟨reg, hmem, hcovers⟩
      exact find?_eq_none.mp hfind reg hmem hcovers
    rw [hrun, ← same.mem, ← same.addr, ← same.written, or_iff_right (same.addr ▸ unmapped)]
    refine (unmapped_agrees_iff fits s').trans ?_
    rw [Unmapped, Unmapped, State.reg32, State.reg32, same.second, same.third]

end

/-! ## An example -/

def exampleHost : Host := ⟨⟨0x1000, 0x1010, 0x1020⟩, 0x1030⟩

def ramMap : MemoryMap where
  regions := [⟨0x0c000000, 0x0cffffff, 0x1fffffff, 0x00ffffff, 0x10000, .ram, exampleHost.ram⟩]
  regions_le := by decide
  unmap := some ⟨0x1040, 0x1050, 0x1060⟩
  unmapCtxt := 0

/-- The registers before an access to `addr`; the third argument is what was left there. -/
def exampleState (addr val : UInt64) : State :=
  ⟨fun r => match r with | .rdi => addr | .rsi => val | .rdx => 7 | _ => 0, none, fun _ => 0⟩

theorem ramMap_fits : Fits exampleHost ramMap := by
  constructor
  · intro reg hmem
    rw [mem_singleton.mp hmem]
    exact ⟨by decide, by decide⟩
  · intro reg hmem _
    rw [mem_singleton.mp hmem]
  · intro reg hmem a
    rw [mem_singleton.mp hmem]
    cases a <;> decide
  · intro unmap hunmap a
    cases hunmap
    cases a <;> exact ⟨by decide, by decide⟩

theorem ram_read_agrees :
    Fits exampleHost ramMap ∧ Aligned .read32 ((exampleState 0x8c001000 0).reg32 arg0) ∧
      nativeAccess exampleHost ramMap .read32 (exampleState 0x8c001000 0) =
        some (mapAccess exampleHost ramMap .read32 (exampleState 0x8c001000 0)) := by
  have aligned : Aligned .read32 ((exampleState 0x8c001000 0).reg32 arg0) := by
    unfold Aligned
    decide
  refine ⟨ramMap_fits, aligned, ?_⟩
  refine (nativeAccess_eq_iff exampleHost ramMap ramMap_fits .read32 _ aligned).mpr (.inl ?_)
  exact ⟨_, mem_singleton_self _, by decide⟩

/-- The value 1 is written to an address that is not mapped: the handler gets the context as the
value, and as the context what was left in the register. -/
theorem unmapped_write_differs :
    nativeAccess exampleHost ramMap .write32 (exampleState 0xbc2dca74 1) =
        some (.calls 0x1060 0xbc2dca74 (some 0) 7) ∧
      mapAccess exampleHost ramMap .write32 (exampleState 0xbc2dca74 1) =
        .calls 0x1060 0xbc2dca74 (some 1) 0 :=
  ⟨by rfl, by rfl⟩

end NativeMem
