import WashingtonDC.MemoryMap
import WashingtonDC.WordMask

/-!
# The store queues

The two queues of 32 bytes in `sh4_ocache.c`: writes to the area from 0xe0000000 on go to the queue
that bit 5 of the address selects, and PREF writes a queue to memory with eight calls of the handler
of one region. What the queues are for is `ByteMemory.lastWritten`. `sq` is an array of words, and
the place of a write in it is that of a word. The address of a PREF has 29 bits, so that it reaches
no queue.
-/
namespace Sh4.StoreQueue

open ByteMemory UInt32 MemoryMap WordMask List Nat

abbrev regQacr0 : Nat := 76

/-! ## Writes -/

/-- `SH4_SQ_WRITE_TMPL`, for a type of `n` bytes: the element of `sq` is selected by the bits from
bit 2 on. -/
def sqWrite (n : Nat) (addr : UInt32) (val : Nat) (sq : Memory) : Memory :=
  let sqIdx := ((addr >>> 2) &&& 0x7).toNat
  let sqSel := (((addr &&& 0x20) >>> 5) <<< 3).toNat
  store sq (4 * (sqIdx + sqSel)) n val

def sh4SqWriteDouble (addr : UInt32) (bits : UInt64) : Memory → Memory := sqWrite 8 addr bits.toNat
def sh4SqWriteFloat (addr : UInt32) (bits : UInt32) : Memory → Memory := sqWrite 4 addr bits.toNat
def sh4SqWrite32 (addr : UInt32) (val : UInt32) : Memory → Memory := sqWrite 4 addr val.toNat
def sh4SqWrite16 (addr : UInt32) (val : UInt16) : Memory → Memory := sqWrite 2 addr val.toNat
def sh4SqWrite8 (addr : UInt32) (val : UInt8) : Memory → Memory := sqWrite 1 addr val.toNat

/-- A write to the queues, as the handlers of the area are called. -/
inductive SqStore
  | double (addr : UInt32) (bits : UInt64)
  | float (addr : UInt32) (bits : UInt32)
  | word (addr : UInt32) (val : UInt32)
  | half (addr : UInt32) (val : UInt16)
  | byte (addr : UInt32) (val : UInt8)

def SqStore.run : SqStore → Memory → Memory
  | .double addr bits => sh4SqWriteDouble addr bits
  | .float addr bits => sh4SqWriteFloat addr bits
  | .word addr val => sh4SqWrite32 addr val
  | .half addr val => sh4SqWrite16 addr val
  | .byte addr val => sh4SqWrite8 addr val

def SqStore.addr : SqStore → UInt32
  | .double addr _ | .float addr _ | .word addr _ | .half addr _ | .byte addr _ => addr

def SqStore.size : SqStore → Nat
  | .double _ _ => 8
  | .float _ _ | .word _ _ => 4
  | .half _ _ => 2
  | .byte _ _ => 1

def SqStore.val : SqStore → Nat
  | .double _ bits => bits.toNat
  | .float _ bits => bits.toNat
  | .word _ val => val.toNat
  | .half _ val => val.toNat
  | .byte _ val => val.toNat

/-- Where the bytes belong: the queues repeat every 64 bytes, the first one in the lower half. -/
def SqStore.write (w : SqStore) : Write := ⟨w.addr.toNat % 64, w.size, w.val⟩

/-! ## PREF -/

/-- A call of a handler that writes 32 bits. -/
structure Call where
  fn : UInt64
  addr : UInt32
  val : UInt32
  ctxt : UInt64
deriving DecidableEq

/-- The queues, and the calls that were made. -/
structure Queues where
  sq : Memory
  calls : List Call

def Queues.write (q : Queues) (stores : List SqStore) : Queues :=
  { q with sq := stores.foldl (fun sq w => w.run sq) q.sq }

def addrActual (addr qacr : UInt32) : UInt32 :=
  let area : UInt32 := ((qacr &&& 0x1c) >>> 2) <<< 26
  (addr &&& 0x03ffffe0) ||| area

def sqSel (addr : UInt32) : Nat := ((addr &&& 0x20) >>> 5).toNat

def Queues.wordCall (q : Queues) (region : Region) (target : UInt32) (sel k : Nat) : Call :=
  ⟨region.intf.write32, (target + ofNat (4 * k)) &&& region.mask,
    ofNat (load q.sq (4 * (8 * sel + k)) 4), region.ctxt⟩

section
variable (map : MemoryMap) (reg : Nat → UInt32) (q : Queues) (addr : UInt32)

def Queues.sh4SqPref : Option Queues :=
  let target := addrActual addr (reg (regQacr0 + sqSel addr))
  (map.getRegion target 32).map fun region =>
    { q with calls := q.calls ++ (range 8).map (q.wordCall region target (sqSel addr)) }

def Queues.instUnaryPrefIndgen : Option Queues :=
  if addr &&& 0xfc000000 = 0xe0000000 then q.sh4SqPref map reg addr else some q

end

def writeRam (calls : List Call) (ram : Memory) : Memory :=
  calls.foldl (fun ram call => memoryWrite32 call.addr call.val call.ctxt ram) ram

/-! ## The places of the writes -/

theorem sqSel_eq (addr : UInt32) : sqSel addr = addr.toNat / 32 % 2 := by
  rw [sqSel, UInt32.toNat_shiftRight, UInt32.toNat_and]
  show (addr.toNat &&& 2 ^ 5) >>> 5 = _
  rw [and_two_pow, toNat_testBit, shiftRight_eq_div_pow]
  omega

theorem sqWrite_eq (n : Nat) (addr : UInt32) (val : Nat) (sq : Memory) :
    sqWrite n addr val sq = store sq (addr.toNat % 64 - addr.toNat % 4) n val := by
  have hidx : ((addr >>> 2) &&& 0x7).toNat = addr.toNat / 4 % 8 := by
    rw [UInt32.toNat_and, UInt32.toNat_shiftRight]
    show addr.toNat >>> 2 &&& 2 ^ 3 - 1 = _
    rw [and_two_pow_sub_one_eq_mod, shiftRight_eq_div_pow]
  have hsel : (((addr &&& 0x20) >>> 5) <<< 3).toNat = 8 * (addr.toNat / 32 % 2) := by
    rw [UInt32.toNat_shiftLeft]
    show sqSel addr <<< 3 % 2 ^ 32 = _
    rw [sqSel_eq, shiftLeft_eq]
    omega
  rw [sqWrite, hidx, hsel]
  congr 1
  omega

theorem SqStore.run_eq (w : SqStore) (sq : Memory) :
    w.run sq = store sq (w.addr.toNat % 64 - w.addr.toNat % 4) w.size w.val := by
  cases w <;> exact sqWrite_eq _ _ _ _

theorem Queues.write_sq {stores : List SqStore} (words : ∀ w ∈ stores, w.addr.toNat % 4 = 0)
    (q : Queues) : (q.write stores).sq = lastWritten q.sq (stores.map SqStore.write) := by
  rw [← foldl_store, foldl_map]
  show stores.foldl (fun sq w => w.run sq) q.sq = _
  apply foldl_ext
  intro sq w hw
  rw [w.run_eq, words w hw, Nat.sub_zero]
  rfl

/-! ## The words that are written -/

theorem addrActual_low (addr qacr : UInt32) : addrActual addr qacr &&& 0x1f = 0 := by
  rw [addrActual, or_and]
  have hfirst : addr &&& 0x03ffffe0 &&& 0x1f = 0 := by
    rw [UInt32.and_assoc]
    exact UInt32.and_zero
  have hsecond : ((qacr &&& 0x1c) >>> 2) <<< 26 &&& 0x1f = 0 := by
    apply UInt32.toNat_inj.mp
    rw [toNat_and_low _ (show (0x1f : UInt32).toNat = 2 ^ 5 - 1 from rfl),
      UInt32.toNat_shiftLeft]
    show _ <<< 26 % 2 ^ 32 % 2 ^ 5 = 0
    rw [shiftLeft_eq]
    omega
  rw [hfirst, hsecond, UInt32.or_zero]

theorem masked_word {target mask : UInt32} (low : target &&& 0x1f = 0) (keeps : 0x1f &&& mask = 0x1f)
    {k : Nat} (lt : k < 8) :
    ((target + ofNat (4 * k)) &&& mask).toNat = (target &&& mask).toNat + 4 * k := by
  have hoffset : (ofNat (4 * k)).toNat = 4 * k := by
    rw [toNat_ofNat', Nat.mod_eq_of_lt (by omega)]
  have hsub : ofNat (4 * k) &&& 0x1f = ofNat (4 * k) := by
    apply UInt32.toNat_inj.mp
    rw [toNat_and_low _ (show (0x1f : UInt32).toNat = 2 ^ 5 - 1 from rfl), hoffset]
    omega
  have hmask : ofNat (4 * k) &&& mask = ofNat (4 * k) := by
    rw [← hsub, UInt32.and_assoc, keeps]
  have hapart : target &&& ofNat (4 * k) = 0 := by
    rw [← hsub, UInt32.and_comm _ 0x1f, ← UInt32.and_assoc, low, UInt32.zero_and]
  rw [add_and_of_subset hapart hmask,
    toNat_add_of_disjoint (and_disjoint mask hapart), hoffset]

theorem toNat_wordAddr {ctxt : UInt64} (fits : ctxt.toNat + 2 ^ 32 ≤ 2 ^ 64) {addr : UInt32}
    (aligned : addr.toNat % 4 = 0) :
    (ctxt + (addr >>> 2).toUInt64 * 4).toNat = ctxt.toNat + addr.toNat := by
  have hlt := addr.toNat_lt
  have hshift : (addr >>> 2).toUInt64.toNat = addr.toNat / 4 := by
    rw [toNat_toUInt64, UInt32.toNat_shiftRight]
    exact shiftRight_eq_div_pow _ 2
  rw [UInt64.toNat_add, UInt64.toNat_mul, hshift]
  show (ctxt.toNat + addr.toNat / 4 * 4 % 2 ^ 64) % 2 ^ 64 = _
  omega

theorem writeRam_wordCalls (q : Queues) {region : Region} {target : UInt32} (sel : Nat)
    (ram : Memory) (low : target &&& 0x1f = 0) (keeps : 0x1f &&& region.mask = 0x1f)
    (fits : region.ctxt.toNat + 2 ^ 32 ≤ 2 ^ 64) :
    writeRam ((range 8).map (q.wordCall region target sel)) ram =
      copy ram (region.ctxt.toNat + (target &&& region.mask).toNat) q.sq (32 * sel) 32 := by
  rw [writeRam, foldl_map, ← foldl_store_load ram q.sq _ _ 4 8]
  apply foldl_ext
  intro ram k hk
  have hlt := mem_range.mp hk
  have hmasked := masked_word low keeps hlt
  have hval : (ofNat (load q.sq (4 * (8 * sel + k)) 4)).toNat = load q.sq (32 * sel + 4 * k) 4 := by
    have hload := load_lt q.sq (4 * (8 * sel + k)) 4
    rw [toNat_ofNat', Nat.mod_eq_of_lt (hload.trans_le (by decide))]
    congr 1
    omega
  have haligned : ((target + ofNat (4 * k)) &&& region.mask).toNat % 4 = 0 := by
    have hlow := mod_of_low_bits _ (show (0x1f : UInt32).toNat = 2 ^ 5 - 1 from rfl)
      (and_disjoint region.mask low)
    omega
  show memoryWrite32 ((target + ofNat (4 * k)) &&& region.mask)
    (ofNat (load q.sq (4 * (8 * sel + k)) 4)) region.ctxt ram = _
  rw [memoryWrite32, toNat_wordAddr fits haligned, hmasked, hval, add_assoc]

/-- After writes to the queues a PREF writes the queue's bytes, each the last one that was written at
its offset, to the target and nowhere else, if all of the writes are at addresses of words. -/
theorem pref_flushes {stores : List SqStore}
    (aligned : ∀ w ∈ stores, w.addr.toNat % w.size = 0)
    (words : ∀ w ∈ stores, w.size < 4 → w.addr.toNat % 4 = 0) (q : Queues) {map : MemoryMap}
    {reg : Nat → UInt32} {addr : UInt32} (area : addr &&& 0xfc000000 = 0xe0000000)
    {region : Region}
    (mapped : map.getRegion (addrActual addr (reg (regQacr0 + sqSel addr))) 32 = some region) :
    let image := lastWritten q.sq (stores.map SqStore.write)
    let target := addrActual addr (reg (regQacr0 + sqSel addr))
    ∃ calls, (q.write stores).instUnaryPrefIndgen map reg addr = some ⟨image, q.calls ++ calls⟩ ∧
      calls = (range 8).map (fun k => ⟨region.intf.write32,
        (target + ofNat (4 * k)) &&& region.mask,
        ofNat (load image (32 * sqSel addr + 4 * k) 4), region.ctxt⟩) ∧
      (0x1f &&& region.mask = 0x1f → region.ctxt.toNat + 2 ^ 32 ≤ 2 ^ 64 → ∀ ram,
        writeRam calls ram =
          copy ram (region.ctxt.toNat + (target &&& region.mask).toNat) image
            (32 * sqSel addr) 32) := by
  intro image target
  have hwords : ∀ w ∈ stores, w.addr.toNat % 4 = 0 := by
    intro w hw
    have hnatural := aligned w hw
    cases w with
    | double addr bits =>
      have hdvd : addr.toNat % 8 = 0 := hnatural
      show addr.toNat % 4 = 0
      omega
    | float _ _ | word _ _ => exact hnatural
    | half addr val => exact words _ hw (show 2 < 4 by decide)
    | byte addr val => exact words _ hw (show 1 < 4 by decide)
  have himage : (q.write stores).sq = image := Queues.write_sq hwords q
  refine ⟨(range 8).map ((q.write stores).wordCall region target (sqSel addr)), ?_, ?_, ?_⟩
  · rw [Queues.instUnaryPrefIndgen, if_pos area, Queues.sh4SqPref]
    show (map.getRegion target 32).map _ = _
    rw [mapped, Option.map_some, himage]
    rfl
  · apply map_congr_left
    intro k _
    rw [Queues.wordCall, himage, show 4 * (8 * sqSel addr + k) = 32 * sqSel addr + 4 * k by omega]
  · intro hkeeps hfits ram
    rw [writeRam_wordCalls _ _ _ (addrActual_low addr _) hkeeps hfits, himage]

/-- System memory at its address, with its bytes at the address 0x10000 of the host. -/
def ramRegion : Region :=
  ⟨0x0c000000, 0x0cffffff, 0x1fffffff, 0x00ffffff, 0x10000, .ram, ⟨1, 2, 3⟩⟩

def ramMap : MemoryMap := ⟨[ramRegion], by decide, none, 0⟩

def ramQacr (_ : Nat) : UInt32 := 0x0c

def emptyQueues : Queues := ⟨fun _ => 0, []⟩

/-- A word that is written twice and a byte. -/
theorem pref_flushes_stores :
    let stores := [.word 0xe0000024 7, .byte 0xe0000028 8, .word 0xe0000024 9]
    let image := lastWritten (fun _ => 0) [⟨36, 4, 7⟩, ⟨40, 1, 8⟩, ⟨36, 4, 9⟩]
    ∃ calls, (emptyQueues.write stores).instUnaryPrefIndgen ramMap ramQacr 0xe0000020 =
        some ⟨image, calls⟩ ∧
      writeRam calls (fun _ => 0) = copy (fun _ => 0) 0x10020 image 32 32 := by
  intro stores image
  obtain ⟨calls, hpref, -, hram⟩ := @pref_flushes stores (by decide) (by decide) emptyQueues ramMap
    ramQacr 0xe0000020 (by decide) ramRegion rfl
  exact ⟨calls, hpref, hram (by decide) (by decide) _⟩

/-- A byte that is written at offset 1 is found at offset 0. -/
theorem byte_misplaced :
    ((emptyQueues.write [.byte 0xe0000001 0xaa]).instUnaryPrefIndgen ramMap ramQacr 0xe0000000).map
        (fun q => q.calls.map Call.val) = some [0xaa, 0, 0, 0, 0, 0, 0, 0] ∧
      load (lastWritten (fun _ => 0) [(SqStore.byte 0xe0000001 0xaa).write]) 0 4 = 0xaa00 := by
  refine ⟨?_, ?_⟩
  · rfl
  · rfl

end Sh4.StoreQueue
