import WashingtonDC.ByteMemory

/-!
# The allocator for executable memory

The allocator keeps its free list in the memory that it hands out, so the model works on
bytes: the headers of free and allocated chunks are words of one memory, and the variable
`free_mem` is a word of it outside of the region. Pointers and sizes are naturals below
2^64 and a null pointer is 0. An operation returns `none` when it raises an error or clears
memory past the end of the region.

The magic numbers, which are only there when invariants are checked, and the statistics
are left out.
-/
namespace ExecMem

open ByteMemory

def x86_64AllocSize : Nat := 512 * 1024 * 1024

def sizeofFreeChunk : Nat := 24

def sizeofAllocChunk : Nat := 16

def minFreeChunkSize : Nat := sizeofFreeChunk

/-- `native` is the memory returned by `mmap` and `freeMem` the address of `free_mem`. The
addresses of a process are below 2^47. -/
structure Region where
  native : Nat
  freeMem : Nat
  aligned : native % 8 = 0
  pos : 0 < native
  fits : native + x86_64AllocSize ≤ 2 ^ 47
  freeMem_lt : freeMem < 2 ^ 47
  apart : freeMem + 8 ≤ native ∨ native + x86_64AllocSize ≤ freeMem

structure Heap where
  mem : Memory
  nAllocations : Nat

def add64 (a b : Nat) : Nat := (a + b) % 2 ^ 64

def sub64 (a b : Nat) : Nat := (a + (2 ^ 64 - b)) % 2 ^ 64

section
variable (mem : Memory)

def nextOf (chunk : Nat) : Nat := load64 mem chunk

def pprevOf (chunk : Nat) : Nat := load64 mem (chunk + 8)

def lenOf (chunk : Nat) : Nat := load64 mem (chunk + 16)

def setNext (chunk v : Nat) : Memory := store64 mem chunk v

def setPprev (chunk v : Nat) : Memory := store64 mem (chunk + 8) v

def setLen (chunk v : Nat) : Memory := store64 mem (chunk + 16) v

def allocLenOf (alloc : Nat) : Nat := load64 mem alloc

def allocLenReqOf (alloc : Nat) : Nat := load64 mem (alloc + 8)

def setAllocLen (alloc v : Nat) : Memory := store64 mem alloc v

def setAllocLenReq (alloc v : Nat) : Memory := store64 mem (alloc + 8) v

/-- `if (next) next->pprev = link`. -/
def setPprevOf (next link : Nat) : Memory :=
  if next ≠ 0 then setPprev mem next link else mem
end

def alignLoop : Nat → Nat → Nat
  | 0, n => n
  | fuel + 1, n => if n % 8 = 0 then n else alignLoop fuel (add64 n 1)

/-- `while (n % 8) n++`. -/
def align8 (n : Nat) : Nat := alignLoop 8 n

def execMemInit (r : Region) (mem : Memory) : Heap where
  mem :=
    let mem := store64 mem r.freeMem r.native
    let mem := setNext mem r.native 0
    let mem := setLen mem r.native x86_64AllocSize
    setPprev mem r.native r.freeMem
  nAllocations := 0

/-- The loop that finds the largest chunk with room for `len` bytes. -/
def candidateLoop (mem : Memory) (len : Nat) : Nat → Nat → Nat → Option Nat
  | 0, _, _ => none
  | fuel + 1, curs, candidate =>
    if curs = 0 then some candidate
    else if lenOf mem curs ≥ len ∧ (candidate = 0 ∨ lenOf mem curs > lenOf mem candidate) then
      candidateLoop mem len fuel (nextOf mem curs) curs
    else candidateLoop mem len fuel (nextOf mem curs) candidate

def removeChunk (mem : Memory) (chunk : Nat) : Memory :=
  let mem := setPprevOf mem (nextOf mem chunk) (pprevOf mem chunk)
  store64 mem (pprevOf mem chunk) (nextOf mem chunk)

/-- Put the rest of `candidate` in its place in the free list. -/
def splitChunk (mem : Memory) (candidate len : Nat) : Memory :=
  let newChunk := add64 candidate len
  let mem := setNext mem newChunk (nextOf mem candidate)
  let mem := setPprevOf mem (nextOf mem newChunk) newChunk
  let mem := setPprev mem newChunk (pprevOf mem candidate)
  let mem := store64 mem (pprevOf mem newChunk) newChunk
  setLen mem newChunk (sub64 (lenOf mem candidate) len)

/-- Take `len` bytes of `candidate`, or all of it when nothing of use would be left. -/
def takeCandidate (mem : Memory) (candidate len : Nat) : Memory × Nat :=
  if lenOf mem candidate = len then (removeChunk mem candidate, len)
  else if sub64 (lenOf mem candidate) len < minFreeChunkSize then
    (removeChunk mem candidate, lenOf mem candidate)
  else (splitChunk mem candidate len, len)

/-- `memset` faults past the end of the region. -/
def memset (r : Region) (mem : Memory) (ptr n : Nat) (b : UInt8) : Option Memory :=
  if ptr + n ≤ r.native + x86_64AllocSize then some (fill mem ptr n b) else none

def execMemAlloc (r : Region) (fuel : Nat) (heap : Heap) (lenReq : Nat) : Option (Heap × Nat) := do
  let len := align8 (add64 lenReq (sizeofAllocChunk + 8))
  let candidate ← candidateLoop heap.mem len fuel (load64 heap.mem r.freeMem) 0
  if candidate = 0 then return (heap, 0)
  let (mem, len) := takeCandidate heap.mem candidate len
  let mem := setAllocLen mem candidate len
  let mem := setAllocLenReq mem candidate lenReq
  let ret := align8 (add64 candidate sizeofAllocChunk)
  let mem ← memset r mem ret lenReq 0
  return (⟨mem, add64 heap.nAllocations 1⟩, ret)

def getAllocStart (allocPtr : Nat) : Nat := sub64 allocPtr (align8 sizeofAllocChunk)

/-- The loop that finds the chunks around a freed one; its error is that there is none. -/
def aroundLoop (mem : Memory) (lastAddr : Nat) : Nat → Nat → Option (Nat × Nat)
  | 0, _ => none
  | fuel + 1, curs =>
    if curs = 0 then none
    else if nextOf mem curs = 0 then some (curs, 0)
    else if nextOf mem curs > lastAddr then some (curs, nextOf mem curs)
    else aroundLoop mem lastAddr fuel (nextOf mem curs)

/-- Absorb `freeChunk` into `pre`, or build a link from `pre` to it. -/
def joinPre (mem : Memory) (freeChunk len pre : Nat) : Memory × Nat :=
  let preLast := add64 pre (sub64 (lenOf mem pre) 1)
  if sub64 freeChunk 1 = preLast then (setLen mem pre (add64 (lenOf mem pre) len), pre)
  else (setPprev (setNext mem pre freeChunk) freeChunk pre, freeChunk)

/-- Absorb `post` into `freeChunk`, or build a link from `freeChunk` to it. -/
def joinPost (mem : Memory) (freeChunk lastAddr post : Nat) : Memory :=
  if sub64 post 1 = lastAddr then
    let mem := setNext mem freeChunk (nextOf mem post)
    let mem := setPprevOf mem (nextOf mem freeChunk) freeChunk
    setLen mem freeChunk (add64 (lenOf mem freeChunk) (lenOf mem post))
  else setPprev (setNext mem freeChunk post) post freeChunk

/-- The free chunk between `pre` and `post`, merged with those that it touches. -/
def freeBetween (mem : Memory) (freeChunk len pre post : Nat) : Memory :=
  let lastAddr := add64 freeChunk (sub64 len 1)
  let mem := setLen mem freeChunk len
  let joined := joinPre mem freeChunk len pre
  joinPost joined.1 joined.2 lastAddr post

/-- The free chunk behind `pre`, which is the last one. -/
def freeLast (mem : Memory) (freeChunk len pre : Nat) : Memory :=
  let preLast := add64 pre (sub64 (lenOf mem pre) 1)
  if sub64 freeChunk 1 = preLast then setLen mem pre (add64 (lenOf mem pre) len)
  else
    let mem := setLen mem freeChunk len
    let mem := setNext mem freeChunk 0
    let mem := setPprev mem freeChunk pre
    setNext mem pre freeChunk

/-- The free chunk becomes the first one, in front of `free_mem`. -/
def freeFirst (r : Region) (mem : Memory) (freeChunk len : Nat) : Memory :=
  let mem := setLen mem freeChunk len
  let mem := setPprev mem freeChunk r.freeMem
  let mem := setNext mem freeChunk (load64 mem r.freeMem)
  let mem := setPprev mem (nextOf mem freeChunk) freeChunk
  store64 mem r.freeMem freeChunk

/-- The free chunk absorbs `free_mem` and becomes the first one. -/
def freeAbsorb (r : Region) (mem : Memory) (freeChunk len : Nat) : Memory :=
  let freeMem := load64 mem r.freeMem
  let mem := setLen mem freeChunk (add64 len (lenOf mem freeMem))
  let mem := setNext mem freeChunk (nextOf mem freeMem)
  let mem := setPprevOf mem (nextOf mem freeChunk) freeChunk
  let mem := setPprev mem freeChunk r.freeMem
  store64 mem r.freeMem freeChunk

def freeOnly (r : Region) (mem : Memory) (freeChunk len : Nat) : Memory :=
  let mem := setLen mem freeChunk len
  let mem := setPprev mem freeChunk r.freeMem
  store64 mem r.freeMem freeChunk

def freeIntoList (r : Region) (fuel : Nat) (mem : Memory) (freeChunk len : Nat) : Option Memory :=
  let freeMem := load64 mem r.freeMem
  let lastAddr := add64 freeChunk (sub64 len 1)
  if freeMem = 0 then some (freeOnly r mem freeChunk len)
  else if sub64 freeMem 1 > lastAddr then some (freeFirst r mem freeChunk len)
  else if sub64 freeMem 1 = lastAddr then some (freeAbsorb r mem freeChunk len)
  else do
    let (pre, post) ← aroundLoop mem lastAddr fuel freeMem
    if post ≠ 0 then return freeBetween mem freeChunk len pre post
    return freeLast mem freeChunk len pre

def execMemFree (r : Region) (fuel : Nat) (heap : Heap) (ptr : Nat) : Option Heap :=
  if ptr = 0 then some heap
  else do
    let freeChunk := getAllocStart ptr
    let len := allocLenOf heap.mem freeChunk
    let mem := fill heap.mem freeChunk sizeofFreeChunk 0
    let mem ← freeIntoList r fuel mem freeChunk len
    return ⟨mem, sub64 heap.nAllocations 1⟩

/-- The loop that finds the free chunk right behind an allocation, or 0. -/
def behindLoop (mem : Memory) (allocLast : Nat) : Nat → Nat → Option Nat
  | 0, _ => none
  | fuel + 1, curs =>
    if curs = 0 then some 0
    else if sub64 curs 1 = allocLast then some curs
    else if curs > allocLast then some 0
    else behindLoop mem allocLast fuel (nextOf mem curs)

def growWhole (mem : Memory) (alloc curs lenReq : Nat) : Memory :=
  let mem := removeChunk mem curs
  let mem := setAllocLen mem alloc (add64 (allocLenOf mem alloc) (lenOf mem curs))
  let mem := fill mem curs sizeofFreeChunk 0
  setAllocLenReq mem alloc lenReq

/-- The allocation takes the free chunk behind it up to `allocGoal`. -/
def growSplit (mem : Memory) (alloc curs allocGoal lenReq : Nat) : Memory :=
  let cursLast := add64 curs (sub64 (lenOf mem curs) 1)
  let newChunk := add64 allocGoal 1
  let mem := fill mem newChunk sizeofFreeChunk 0xaa
  let mem := setPprev mem newChunk (pprevOf mem curs)
  let mem := store64 mem (pprevOf mem newChunk) newChunk
  let mem := setNext mem newChunk (nextOf mem curs)
  let mem := setPprevOf mem (nextOf mem newChunk) newChunk
  let mem := setLen mem newChunk (add64 (sub64 cursLast (add64 allocGoal 1)) 1)
  let mem := setAllocLenReq mem alloc lenReq
  setAllocLen mem alloc (add64 (sub64 allocGoal alloc) 1)

def execMemGrow (r : Region) (fuel : Nat) (heap : Heap) (ptr lenReq : Nat) :
    Option (Heap × Int) := do
  let mem := heap.mem
  let alloc := getAllocStart ptr
  let allocLast := add64 alloc (sub64 (allocLenOf mem alloc) 1)
  let growAmt := sub64 lenReq (allocLenReqOf mem alloc)
  let lenReqAligned := align8 (add64 (allocLenOf mem alloc) growAmt)
  let allocGoal := sub64 (add64 alloc lenReqAligned) 1
  if allocLenReqOf mem alloc ≥ lenReq then return (heap, 0)
  let curs ← behindLoop mem allocLast fuel (load64 mem r.freeMem)
  if curs = 0 then return (heap, -1)
  if allocGoal > add64 curs (sub64 (lenOf mem curs) 1) then return (heap, -1)
  if add64 (sub64 (allocLenOf mem alloc) lenReqAligned) (lenOf mem curs) < minFreeChunkSize then
    return (⟨growWhole mem alloc curs lenReq, heap.nAllocations⟩, 0)
  return (⟨growSplit mem alloc curs allocGoal lenReq, heap.nAllocations⟩, 0)

end ExecMem
