import WashingtonDC.ByteMemory
import Mathlib.Data.UInt

/-!
# Memory maps

`MemoryMap.c`: an access goes to the first region that covers it, or to the handlers for unmapped
addresses, or raises an error. Only the accesses that the recompiler makes are here: reads of 16
and 32 bits and writes of 32 bits. Handlers and contexts are pointers, that is, 64-bit words; 0 is
the null pointer. The handlers of system memory are modelled, all others are only called.
-/

namespace MemoryMap

inductive RegionId
  | unknown
  | ram
deriving DecidableEq

inductive Access
  | read16
  | read32
  | write32
deriving DecidableEq

def Access.size : Access → UInt32
  | .read16 => 2
  | .read32 => 4
  | .write32 => 4

structure Interface where
  read16 : UInt64
  read32 : UInt64
  write32 : UInt64

def Interface.handler (intf : Interface) : Access → UInt64
  | .read16 => intf.read16
  | .read32 => intf.read32
  | .write32 => intf.write32

structure Region where
  firstAddr : UInt32
  lastAddr : UInt32
  rangeMask : UInt32
  mask : UInt32
  ctxt : UInt64
  id : RegionId
  intf : Interface

/-- `MAX_MEM_MAP_REGIONS`. -/
abbrev maxRegions : Nat := 64

inductive Error
  | unimplemented (feature : String) (address length : UInt32)
  | integrity
  | overflow

/-- How an access goes on: a handler is called, or it is done, or an error is raised. Only writes
have a value to write, and only reads return one. -/
inductive Result
  | calls (fn : UInt64) (addr : UInt32) (val : Option UInt32) (ctxt : UInt64)
  | returns (val : Option UInt32) (mem : ByteMemory.Memory)
  | raises (e : Error)

end MemoryMap

structure MemoryMap where
  regions : List MemoryMap.Region
  regions_le : regions.length ≤ MemoryMap.maxRegions
  unmap : Option MemoryMap.Interface
  unmapCtxt : UInt64

namespace MemoryMap

def init : MemoryMap := ⟨[], Nat.zero_le _, none, 0⟩

def add (map : MemoryMap) (reg : Region) : Except Error MemoryMap :=
  if h : maxRegions ≤ map.regions.length then .error .overflow
  else .ok { map with
    regions := map.regions ++ [reg]
    regions_le := by rw [List.length_append]; exact Nat.lt_of_not_le h }

/-- The test of the templates: the first and the last byte of the access are in the region. -/
def Region.covers (reg : Region) (size addr : UInt32) : Bool :=
  reg.firstAddr ≤ addr &&& reg.rangeMask && (size - 1 + addr) &&& reg.rangeMask ≤ reg.lastAddr

/-- `memory_map_get_region`. -/
def getRegion (map : MemoryMap) (firstAddr nBytes : UInt32) : Option Region :=
  map.regions.find? (·.covers nBytes firstAddr)

section
variable (map : MemoryMap)

/-- The handler that the templates test for null before they call a handler for unmapped
addresses: both templates test the one that reads. -/
def Interface.tested (intf : Interface) : Access → UInt64
  | .read16 => intf.read16
  | .read32 => intf.read32
  | .write32 => intf.read32

/-- The templates `MEMORY_MAP_READ_TMPL` and `MEM_MAP_WRITE_TMPL`. -/
def access (a : Access) (addr : UInt32) (val : Option UInt32) : Result :=
  let error := Result.raises (.unimplemented "memory mapping" addr a.size)
  match map.regions.find? (·.covers a.size addr) with
  | some reg => .calls (reg.intf.handler a) (addr &&& reg.mask) val reg.ctxt
  | none =>
    match map.unmap with
    | some unmap =>
      if unmap.tested a ≠ 0 then .calls (unmap.handler a) addr val map.unmapCtxt else error
    | none => error

theorem access_cases (a : Access) (addr : UInt32) (val : Option UInt32) :
    (∃ fn addr' ctxt, map.access a addr val = .calls fn addr' val ctxt) ∨
      ∃ e, map.access a addr val = .raises e := by
  simp only [access]
  split
  · exact .inl ⟨_, _, _, rfl⟩
  · split
    · split
      · exact .inl ⟨_, _, _, rfl⟩
      · exact .inr ⟨_, rfl⟩
    · exact .inr ⟨_, rfl⟩

def read16 (addr : UInt32) : Result := map.access .read16 addr none

def read32 (addr : UInt32) : Result := map.access .read32 addr none

def write32 (addr val : UInt32) : Result := map.access .write32 addr (some val)

end

/-! ## System memory -/

def memoryRead16 (addr : UInt32) (ctxt : UInt64) (mem : ByteMemory.Memory) : UInt16 :=
  .ofNat (ByteMemory.load mem (ctxt + (addr >>> 1).toUInt64 * 2).toNat 2)

def memoryRead32 (addr : UInt32) (ctxt : UInt64) (mem : ByteMemory.Memory) : UInt32 :=
  .ofNat (ByteMemory.load mem (ctxt + (addr >>> 2).toUInt64 * 4).toNat 4)

def memoryWrite32 (addr val : UInt32) (ctxt : UInt64) (mem : ByteMemory.Memory) :
    ByteMemory.Memory :=
  ByteMemory.store mem (ctxt + (addr >>> 2).toUInt64 * 4).toNat 4 val.toNat

/-- What the handlers of system memory, `ram_intf`, do. -/
def memoryAccess (a : Access) (addr : UInt32) (val : Option UInt32) (ctxt : UInt64)
    (mem : ByteMemory.Memory) : Result :=
  match a with
  | .read16 => .returns (some (memoryRead16 addr ctxt mem).toUInt32) mem
  | .read32 => .returns (some (memoryRead32 addr ctxt mem)) mem
  | .write32 => .returns none (memoryWrite32 addr (val.getD 0) ctxt mem)

/-- Calls of the handlers of system memory `ram` are performed. -/
def perform (ram : Interface) (a : Access) (mem : ByteMemory.Memory) : Result → Result
  | .calls fn addr val ctxt =>
    if fn = ram.handler a then memoryAccess a addr val ctxt mem else .calls fn addr val ctxt
  | r => r

end MemoryMap
