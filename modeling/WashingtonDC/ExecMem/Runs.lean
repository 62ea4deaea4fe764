import WashingtonDC.ExecMem.Alloc
import WashingtonDC.ExecMem.Free
import WashingtonDC.ExecMem.Grow
import Mathlib.Algebra.BigOperators.Group.Finset.Basic

/-!
# Runs of the executable memory allocator

A run allocates, frees and grows live blocks, and writes to the bytes of live blocks.
Blocks are recorded as the pointer that was returned and the number of bytes requested.
-/
namespace ExecMem

open ByteMemory IntrusiveList Tiling List Function

/-- A heap, with the pointers in use and the number of bytes requested for each. -/
abbrev State := Heap × Finset (Nat × Nat)

/-- Growth is by what the emitter requests: no more than there is, or 32 bytes more. -/
inductive Step (r : Region) : State → State → Prop
  | alloc {heap heap' live lenReq ptr fuel} (size : lenReq < 2 ^ 64)
      (enough : x86_64AllocSize ≤ fuel)
      (returned : execMemAlloc r fuel heap lenReq = some (heap', ptr)) :
      Step r (heap, live) (heap', if ptr = 0 then live else insert (ptr, lenReq) live)
  | free {heap heap' live lenReq ptr fuel} (here : (ptr, lenReq) ∈ live)
      (enough : x86_64AllocSize ≤ fuel) (returned : execMemFree r fuel heap ptr = some heap') :
      Step r (heap, live) (heap', live.erase (ptr, lenReq))
  | grow {heap heap' live lenReq lenReq' ptr ret fuel} (here : (ptr, lenReq) ∈ live)
      (asked : lenReq' ≤ lenReq ∨ lenReq' = lenReq + x86_64GrowSize)
      (enough : x86_64AllocSize ≤ fuel)
      (returned : execMemGrow r fuel heap ptr lenReq' = some (heap', ret)) :
      Step r (heap, live) (heap', if ret = 0 ∧ lenReq < lenReq' then
        insert (ptr, lenReq') (live.erase (ptr, lenReq)) else live)
  | write {heap live lenReq ptr x v} (here : (ptr, lenReq) ∈ live)
      (inside : ptr ≤ x ∧ x < ptr + lenReq) :
      Step r (heap, live) ({ heap with mem := update heap.mem x v }, live)

def block (s : Chunk) : Nat × Nat := (s.start + 16, s.tag.getD 0)

def Holds (r : Region) (heap : Heap) (live : Finset (Nat × Nat)) : Prop :=
  ∃ chunks, Inv r heap chunks ∧ live = ((lives chunks).map block).toFinset

section Chunks

variable {r : Region} {heap : Heap} {chunks pre post : List Chunk} {s : Chunk}
  {ptr lenReq fuel : Nat}

theorem mem_lives : s ∈ lives chunks ↔ s ∈ chunks ∧ s.tag ≠ none := by
  simp [lives, Option.isSome_iff_ne_none]

theorem Inv.blocks_nodup (inv : Inv r heap chunks) : ((lives chunks).map block).Nodup := by
  have hlt := inv.tiled.starts_lt fun s hs =>
    lt_of_lt_of_le (show 0 < minFreeChunkSize by decide) (inv.sizes s hs).2
  have hsub : (lives chunks).Pairwise fun s t => s.start < t.start := hlt.sublist filter_sublist
  refine pairwise_map.mpr (hsub.imp fun hst heq => ?_)
  have := congrArg Prod.fst heq
  simp only [block] at this
  omega

theorem exists_of_mem_blocks (here : (ptr, lenReq) ∈ ((lives chunks).map block).toFinset) :
    ∃ pre s post, chunks = pre ++ [s] ++ post ∧ s.tag = some lenReq ∧ ptr = s.start + 16 := by
  obtain ⟨s, hs, hblock⟩ := mem_map.mp (mem_toFinset.mp here)
  obtain ⟨hs, htag⟩ := mem_lives.mp hs
  obtain ⟨pre, post, rfl⟩ := append_of_mem hs
  obtain ⟨q, hq⟩ := Option.ne_none_iff_exists'.mp htag
  simp only [block, hq, Option.getD_some, Prod.mk.injEq] at hblock
  exact ⟨pre, s, post, by simp, by rw [hq, hblock.2], hblock.1.symm⟩

theorem Inv.length_lt (inv : Inv r heap chunks) (enough : x86_64AllocSize ≤ fuel) :
    chunks.length < fuel := by
  have hsum := inv.tiled.sum
  have hlen : chunks.length * 24 ≤ (chunks.map Seg.len).sum := by
    have := card_nsmul_le_sum (chunks.map Seg.len) 24 fun n hn => by
      obtain ⟨s, hs, rfl⟩ := mem_map.mp hn
      exact (inv.sizes s hs).2
    simpa using this
  have hall : x86_64AllocSize = 536870912 := rfl
  omega

section
variable (inv : Inv r heap (pre ++ [s] ++ post))
include inv

section
variable (hlive : s.tag = some lenReq)
include hlive

theorem Inv.overwrite {mem' : Memory}
    (hother : ∀ y, y < s.start + 16 ∨ s.start + 16 + lenReq ≤ y → mem' y = heap.mem y) :
    Inv r { heap with mem := mem' } (pre ++ [s] ++ post) := by
  obtain ⟨b, e, p, around, threads⟩ := inv.around
  obtain ⟨rfl, rfl⟩ := around.inner
  obtain ⟨hlen, hreq, hroom⟩ := inv.live_header (s := s) (by simp) hlive
  have hstop : s.stop = s.start + s.len := rfl
  have hword : ∀ a, a + 8 ≤ s.start + 16 ∨ s.stop ≤ a → load64 mem' a = load64 heap.mem a :=
    fun a ha => load64_congr fun y hy hy' => hother y (by omega)
  have margins := around.margins
  have hlink := margins.linkApart
  have hlast := margins.last
  refine inv.edit around (fun y hy _ _ => hother y (by omega)) ⟨rfl, rfl⟩ ?_ inv.merged ?_ ?_ rfl
  · exact fun t ht => inv.sizes t (by simp_all)
  · simp only [mem_singleton, forall_eq, Header, hlive, allocLenOf, allocLenReqOf]
    rw [hword _ (by omega), hword _ (by omega)]
    exact ⟨hlen, hreq, hroom⟩
  · have hfrees : frees [s] = [] := by simp [frees, hlive]
    have hnext := margins.nextApart
    refine threads.outside (fun y hy => hother y hy) (by omega) ?_ (by omega)
    simp [hfrees]

theorem Inv.erase_block :
    ((lives (pre ++ [s] ++ post)).map block).toFinset.erase (s.start + 16, lenReq) =
      ((lives (pre ++ post)).map block).toFinset := by
  have hnodup := inv.blocks_nodup
  have hold : (lives (pre ++ [s] ++ post)).map block =
      (lives pre).map block ++ (s.start + 16, lenReq) :: (lives post).map block := by
    simp [lives, hlive, block]
  have hnew : (lives (pre ++ post)).map block = (lives pre).map block ++ (lives post).map block := by
    simp [lives]
  rw [hold] at hnodup ⊢
  rw [hnew]
  obtain ⟨hfresh, -⟩ := nodup_cons.mp (nodup_middle.mp hnodup)
  ext c
  simp only [mem_append] at hfresh
  by_cases hc : c = (s.start + 16, lenReq)
  · subst hc
    simp_all
  · simp [hc]

theorem Inv.write {x : Nat} {v : UInt8} (inside : s.start + 16 ≤ x ∧ x < s.start + 16 + lenReq) :
    Inv r { heap with mem := update heap.mem x v } (pre ++ [s] ++ post) :=
  inv.overwrite hlive fun _ hy => update_of_ne (by omega) v heap.mem

end

end

end Chunks

theorem inv_init (r : Region) (mem : Memory) :
    Inv r (execMemInit r mem) [⟨r.native, x86_64AllocSize, none⟩] := by
  have hfits := r.fits
  have hlt := r.freeMem_lt
  have hpos := r.pos
  have hapart := r.apart
  have hall : x86_64AllocSize = 536870912 := rfl
  have hthreads : Threads (execMemInit r mem).mem r.freeMem [r.native] 0 := by
    refine ⟨?_, ?_, ?_, by simp⟩
    all_goals
      simp (disch := omega) only [execMemInit, setNext, setLen, setPprev, pprevOf,
        load64_store64_ne, load64_store64_same]
  have hproper : linkOf r (addrOf r .head) = .head := if_pos rfl
  obtain ⟨l, hpath, hget, -⟩ := Threads.path (p := .head) hproper
    (by simp only [mem_singleton, forall_eq]; omega) hthreads
  refine ⟨⟨rfl, rfl⟩, ?_, isChain_singleton _, ?_, ⟨by simp [frees], l, ?_, ?_⟩, rfl⟩
  · simp only [mem_singleton, forall_eq, minFreeChunkSize, sizeofFreeChunk]
    omega
  · simp (disch := omega) only [mem_singleton, forall_eq, Header, lenOf, execMemInit, setNext,
      setLen, setPprev, load64_store64_ne, load64_store64_same]
  · simpa [frees] using hpath
  · rw [hget, ptr, if_pos rfl]

theorem holds_init (r : Region) (mem : Memory) : Holds r (execMemInit r mem) ∅ :=
  ⟨_, inv_init r mem, by simp [lives]⟩

section Step

variable {r : Region} {heap heap' : Heap} {live : Finset (Nat × Nat)} {ptr lenReq lenReq' fuel : Nat}

theorem Holds.alloc (holds : Holds r heap live) (size : lenReq < 2 ^ 64)
    (enough : x86_64AllocSize ≤ fuel)
    (returned : execMemAlloc r fuel heap lenReq = some (heap', ptr)) :
    Holds r heap' (if ptr = 0 then live else insert (ptr, lenReq) live) := by
  obtain ⟨chunks, inv, rfl⟩ := holds
  rcases execMemAlloc_spec inv (inv.length_lt enough) size with
    ⟨halloc, -⟩ | ⟨halloc, -⟩ | ⟨pre, s, post, mem, rfl, hfree, halloc, -, hinv⟩
  · rw [halloc] at returned
    cases returned
    exact ⟨chunks, inv, rfl⟩
  · rw [halloc] at returned
    cases returned
  · rw [halloc] at returned
    cases returned
    rw [if_neg (by omega)]
    generalize align8 (add64 lenReq 24) = len at hinv
    refine ⟨_, hinv, ?_⟩
    have hrest : lives (remainder s len) = [] := by
      refine filter_eq_nil_iff.mpr fun t ht => ?_
      obtain ⟨rfl, -, -⟩ := mem_remainder ht
      simp
    have hlives : lives (pre ++ ⟨s.start, takenLen s len, some lenReq⟩ :: remainder s len ++ post) =
        lives pre ++ ⟨s.start, takenLen s len, some lenReq⟩ :: lives post := by
      simp only [lives] at hrest ⊢
      simp [hrest]
    have hold : lives (pre ++ [s] ++ post) = lives pre ++ lives post := by
      simp [lives, hfree]
    rw [hlives, hold]
    ext c
    simp [block]

theorem Holds.free (holds : Holds r heap live) (here : (ptr, lenReq) ∈ live)
    (enough : x86_64AllocSize ≤ fuel) :
    ∃ heap', execMemFree r fuel heap ptr = some heap' ∧
      Holds r heap' (live.erase (ptr, lenReq)) := by
  obtain ⟨chunks, inv, rfl⟩ := holds
  obtain ⟨pre, s, post, rfl, hlive, rfl⟩ := exists_of_mem_blocks here
  obtain ⟨heap', chunks', hfree, hinv, hlives⟩ :=
    execMemFree_spec inv hlive (inv.length_lt enough)
  refine ⟨heap', hfree, chunks', hinv, ?_⟩
  rw [inv.erase_block hlive, hlives]

theorem Holds.grow (holds : Holds r heap live) (here : (ptr, lenReq) ∈ live)
    (asked : lenReq' ≤ lenReq ∨ lenReq' = lenReq + x86_64GrowSize) (enough : x86_64AllocSize ≤ fuel) :
    ∃ heap' ret, execMemGrow r fuel heap ptr lenReq' = some (heap', ret) ∧ (ret = 0 ∨ ret = -1) ∧
      Holds r heap' (if ret = 0 ∧ lenReq < lenReq' then
        insert (ptr, lenReq') (live.erase (ptr, lenReq)) else live) := by
  obtain ⟨chunks, inv, rfl⟩ := holds
  obtain ⟨pre, s, post, rfl, hlive, rfl⟩ := exists_of_mem_blocks here
  rcases execMemGrow_spec inv hlive asked (inv.length_lt enough) with
    ⟨hle, hgrow⟩ | ⟨hlt, hgrow⟩ | ⟨heap', chunks', len, hlt, hgrow, hinv, hlives⟩
  · refine ⟨heap, 0, hgrow, .inl rfl, ?_⟩
    rw [if_neg (by omega)]
    exact ⟨_, inv, rfl⟩
  · refine ⟨heap, -1, hgrow, .inr rfl, ?_⟩
    rw [if_neg (by simp)]
    exact ⟨_, inv, rfl⟩
  · refine ⟨heap', 0, hgrow, .inl rfl, ?_⟩
    rw [if_pos ⟨rfl, hlt⟩]
    refine ⟨chunks', hinv, ?_⟩
    rw [inv.erase_block hlive, hlives]
    ext c
    simp [lives, block]

end Step

theorem step_holds {r : Region} {before after : State} (step : Step r before after)
    (holds : Holds r before.1 before.2) : Holds r after.1 after.2 := by
  cases step with
  | alloc size enough returned => exact holds.alloc size enough returned
  | free here enough returned =>
    obtain ⟨heap', hfree, hholds⟩ := holds.free here enough
    rw [hfree] at returned
    cases returned
    exact hholds
  | grow here asked enough returned =>
    obtain ⟨heap', ret, hgrow, -, hholds⟩ := holds.grow here asked enough
    rw [hgrow] at returned
    cases returned
    exact hholds
  | write here inside =>
    obtain ⟨chunks, inv, hlive⟩ := holds
    simp only at hlive here
    rw [hlive] at here
    obtain ⟨pre, s, post, rfl, htag, rfl⟩ := exists_of_mem_blocks here
    exact ⟨_, inv.write htag inside, hlive⟩

theorem run_holds {r : Region} {before after : State}
    (run : Relation.ReflTransGen (Step r) before after) (holds : Holds r before.1 before.2) :
    Holds r after.1 after.2 := by
  induction run with
  | refl => exact holds
  | tail _ step ih => exact step_holds step ih

/-! ## What a run leaves -/

def blockStop (heap : Heap) (ptr : Nat) : Nat := ptr - 16 + allocLenOf heap.mem (ptr - 16)

/-- The free chunks are listed with their lengths; the chunk of the block at `ptr` starts 16
bytes in front of it. -/
structure Consistent (r : Region) (heap : Heap) (live : Finset (Nat × Nat))
    (free : List (Nat × Nat)) : Prop where
  links : Spells (view r heap.mem) (free.map Prod.fst)
  lens : ∀ c ∈ free, lenOf heap.mem c.1 = c.2
  region : ∀ c ∈ free, r.native ≤ c.1 ∧ c.1 + c.2 ≤ r.native + x86_64AllocSize
  sorted : free.Pairwise fun c d => c.1 + c.2 < d.1
  aligned : ∀ p ∈ live, p.1 % 8 = 0
  usable : ∀ p ∈ live, r.native + 16 ≤ p.1 ∧ p.1 + p.2 ≤ blockStop heap p.1 ∧
    blockStop heap p.1 ≤ r.native + x86_64AllocSize
  disjoint : ∀ p ∈ live, ∀ q ∈ live, p ≠ q →
    blockStop heap p.1 ≤ q.1 - 16 ∨ blockStop heap q.1 ≤ p.1 - 16
  disjointFree : ∀ p ∈ live, ∀ c ∈ free, blockStop heap p.1 ≤ c.1 ∨ c.1 + c.2 ≤ p.1 - 16
  total : ∑ p ∈ live, allocLenOf heap.mem (p.1 - 16) + (free.map Prod.snd).sum = x86_64AllocSize
  count : heap.nAllocations = live.card

theorem sum_lives_frees (chunks : List Chunk) : (chunks.map Seg.len).sum =
    ((lives chunks).map Seg.len).sum +
      ((chunks.filter fun s => s.tag.isNone).map Seg.len).sum := by
  induction chunks with
  | nil => rfl
  | cons s rest ih =>
    cases htag : s.tag with
    | none | some q =>
      simp only [lives, map_cons, sum_cons, filter_cons, htag] at ih ⊢
      simp [ih]
      omega

theorem frees_apart {chunks : List Chunk} {b e : Nat} (tiled : Tiled b chunks e)
    (sizes : ∀ s ∈ chunks, 0 < s.len)
    (merged : chunks.IsChain fun s t => ¬(s.tag = none ∧ t.tag = none)) :
    (chunks.filter fun s => s.tag.isNone).Pairwise fun s t => s.stop < t.start := by
  induction chunks generalizing b with
  | nil => exact List.Pairwise.nil
  | cons s rest ih =>
    obtain ⟨rfl, hrest⟩ := tiled
    have hpairs := ih hrest (fun t ht => sizes t (mem_cons_of_mem s ht)) merged.tail
    by_cases htag : s.tag = none
    · rw [filter_cons_of_pos (by simp [htag])]
      refine pairwise_cons.mpr ⟨fun t ht => ?_, hpairs⟩
      obtain ⟨ht, hfree⟩ := mem_filter.mp ht
      cases rest with
      | nil => cases ht
      | cons x rest =>
        obtain ⟨hx, hrest⟩ := hrest
        have hxlen := sizes x (by simp)
        have hxstop : x.stop = x.start + x.len := rfl
        rcases mem_cons.mp ht with rfl | ht
        · exact absurd ⟨htag, Option.isNone_iff_eq_none.mp hfree⟩ merged.rel
        · have := (hrest.mem ht).1
          omega
    · rw [filter_cons_of_neg (by simp [htag])]
      exact hpairs

section Consistency

variable {r : Region} {heap : Heap} {chunks : List Chunk} {s t : Chunk} {p q : Nat × Nat}

theorem exists_of_mem_live (hp : p ∈ ((lives chunks).map block).toFinset) :
    ∃ s ∈ chunks, s.tag = some p.2 ∧ p.1 = s.start + 16 := by
  obtain ⟨pre, s, post, rfl, htag, hstart⟩ := exists_of_mem_blocks (show (p.1, p.2) ∈ _ from hp)
  exact ⟨s, by simp, htag, hstart⟩

theorem Inv.blockStop_eq (inv : Inv r heap chunks) (hs : s ∈ chunks) (live : s.tag = some p.2) :
    blockStop heap (s.start + 16) = s.stop := by
  obtain ⟨hlen, -, -⟩ := inv.live_header hs live
  rw [blockStop, Nat.add_sub_cancel, hlen, Seg.stop]

theorem Inv.total_live (inv : Inv r heap chunks) :
    ∑ p ∈ ((lives chunks).map block).toFinset, allocLenOf heap.mem (p.1 - 16) =
      ((lives chunks).map Seg.len).sum := by
  rw [sum_toFinset _ inv.blocks_nodup, map_map]
  refine congrArg sum (map_congr_left fun s hs => ?_)
  obtain ⟨hs, htag⟩ := mem_lives.mp hs
  obtain ⟨q, hq⟩ := Option.ne_none_iff_exists'.mp htag
  simp [block, (inv.live_header hs hq).1]

theorem Inv.consistent (inv : Inv r heap chunks) :
    Consistent r heap ((lives chunks).map block).toFinset
      ((chunks.filter fun s => s.tag.isNone).map fun s => (s.start, s.len)) := by
  have hfree : ∀ c ∈ (chunks.filter fun s => s.tag.isNone).map fun s => (s.start, s.len),
      ∃ s ∈ chunks, s.tag = none ∧ c = (s.start, s.len) := by
    intro c hc
    obtain ⟨s, hs, rfl⟩ := mem_map.mp hc
    obtain ⟨hs, htag⟩ := mem_filter.mp hs
    exact ⟨s, hs, Option.isNone_iff_eq_none.mp htag, rfl⟩
  have hpos : ∀ s ∈ chunks, 0 < s.len := fun s hs =>
    lt_of_lt_of_le (show 0 < minFreeChunkSize by decide) (inv.sizes s hs).2
  constructor
  case links => simpa [frees, comp_def] using inv.spells
  case lens =>
    intro c hc
    obtain ⟨s, hs, htag, rfl⟩ := hfree c hc
    exact inv.free_len hs htag
  case region =>
    intro c hc
    obtain ⟨s, hs, -, rfl⟩ := hfree c hc
    exact inv.tiled.mem hs
  case sorted => exact pairwise_map.mpr (frees_apart inv.tiled hpos inv.merged)
  case aligned =>
    intro p hp
    obtain ⟨s, hs, -, hstart⟩ := exists_of_mem_live hp
    have := inv.start_aligned hs
    omega
  case usable =>
    intro p hp
    obtain ⟨s, hs, htag, hstart⟩ := exists_of_mem_live hp
    obtain ⟨-, -, hroom⟩ := inv.live_header hs htag
    have hinside := inv.inside hs
    rw [hstart, inv.blockStop_eq hs htag]
    omega
  case disjoint =>
    intro p hp q hq hne
    obtain ⟨s, hs, htag, hstart⟩ := exists_of_mem_live hp
    obtain ⟨t, ht, htag', hstart'⟩ := exists_of_mem_live hq
    rw [hstart, hstart', inv.blockStop_eq hs htag, inv.blockStop_eq ht htag']
    rcases inv.tiled.apart hs ht with rfl | hst
    · refine absurd (Prod.ext ?_ ?_) hne
      · omega
      · exact Option.some.inj (htag.symm.trans htag')
    · simpa using hst
  case disjointFree =>
    intro p hp c hc
    obtain ⟨s, hs, htag, hstart⟩ := exists_of_mem_live hp
    obtain ⟨t, ht, htag', rfl⟩ := hfree c hc
    rw [hstart, inv.blockStop_eq hs htag]
    rcases inv.tiled.apart hs ht with rfl | hst
    · rw [htag] at htag'
      cases htag'
    · simpa [Seg.stop] using hst
  case total =>
    have hsum := inv.tiled.sum
    have hparts := sum_lives_frees chunks
    rw [inv.total_live, map_map]
    have hlens : ((chunks.filter fun s => s.tag.isNone).map (Prod.snd ∘ fun s => (s.start, s.len))) =
        (chunks.filter fun s => s.tag.isNone).map Seg.len := rfl
    rw [hlens]
    omega
  case count =>
    rw [inv.count, toFinset_card_of_nodup inv.blocks_nodup, length_map,
      countP_eq_length_filter, lives]

end Consistency

/-- Whatever was allocated, freed, grown and written before, the heap is consistent, and the
next operation returns. -/
theorem execMem_runs {r : Region} {mem : Memory} {heap : Heap} {live : Finset (Nat × Nat)}
    (run : Relation.ReflTransGen (Step r) (execMemInit r mem, ∅) (heap, live)) :
    (∃ free, Consistent r heap live free) ∧
    (∀ lenReq fuel, lenReq + 31 < 2 ^ 64 → x86_64AllocSize ≤ fuel →
      ∃ heap' ptr, execMemAlloc r fuel heap lenReq = some (heap', ptr)) ∧
    (∀ p ∈ live, ∀ fuel, x86_64AllocSize ≤ fuel → ∃ heap', execMemFree r fuel heap p.1 = some heap') ∧
    (∀ p ∈ live, ∀ lenReq fuel, lenReq ≤ p.2 ∨ lenReq = p.2 + x86_64GrowSize →
      x86_64AllocSize ≤ fuel →
      ∃ heap' ret, execMemGrow r fuel heap p.1 lenReq = some (heap', ret) ∧ (ret = 0 ∨ ret = -1)) := by
  have holds := run_holds run (holds_init r mem)
  refine ⟨?_, ?_, ?_, ?_⟩
  · obtain ⟨chunks, inv, hlive⟩ := holds
    simp only at hlive
    rw [hlive]
    exact ⟨_, inv.consistent⟩
  · intro lenReq fuel hreq enough
    obtain ⟨chunks, inv, -⟩ := holds
    rcases execMemAlloc_spec inv (inv.length_lt enough) (show lenReq < 2 ^ 64 by omega) with
      ⟨halloc, -⟩ | ⟨-, hwrap⟩ | ⟨pre, s, post, mem', -, -, halloc, -, -⟩
    · exact ⟨_, _, halloc⟩
    · omega
    · exact ⟨_, _, halloc⟩
  · intro p hp fuel enough
    obtain ⟨heap', hfree, -⟩ := holds.free hp enough
    exact ⟨heap', hfree⟩
  · intro p hp lenReq fuel asked enough
    obtain ⟨heap', ret, hgrow, hret, -⟩ := holds.grow hp asked enough
    exact ⟨heap', ret, hgrow, hret⟩

/-- A region at 64 KiB, with `free_mem` below it. -/
def lowRegion : Region where
  native := 0x10000
  freeMem := 0x1000
  aligned := by decide
  pos := by decide
  fits := by decide
  freeMem_lt := by decide
  apart := by decide

theorem execMemAlloc_init : ∃ heap ptr,
    execMemAlloc lowRegion x86_64AllocSize (execMemInit lowRegion fun _ => 0) 100 =
      some (heap, ptr) ∧ ptr ≠ 0 := by
  have inv := inv_init lowRegion fun _ => 0
  rcases execMemAlloc_spec inv (inv.length_lt (le_refl _)) (show 100 < 2 ^ 64 by decide) with
    ⟨-, hnone⟩ | ⟨-, hwrap⟩ | ⟨pre, s, post, mem, -, -, halloc, -, -⟩
  · exact absurd (hnone _ mem_cons_self rfl) (by decide)
  · exact absurd hwrap (by decide)
  · exact ⟨_, _, halloc, Nat.succ_ne_zero _⟩

theorem execMem_runs_alloc : ∃ heap ptr,
    execMemAlloc lowRegion x86_64AllocSize (execMemInit lowRegion fun _ => 0) 100 = some (heap, ptr) ∧
    ptr ≠ 0 ∧ ∃ free, Consistent lowRegion heap {(ptr, 100)} free := by
  obtain ⟨heap, ptr, halloc, hptr⟩ := execMemAlloc_init
  have step : Step lowRegion (execMemInit lowRegion fun _ => 0, ∅) _ :=
    Step.alloc (by decide) (le_refl _) halloc
  rw [if_neg hptr] at step
  exact ⟨heap, ptr, halloc, hptr, (execMem_runs (.single step)).1⟩

theorem frees_le_lives {chunks : List Chunk}
    (merged : chunks.IsChain fun s t => ¬(s.tag = none ∧ t.tag = none)) :
    (chunks.filter fun s => s.tag.isNone).length ≤ (lives chunks).length + 1 := by
  induction chunks using twoStepInduction with
  | nil => exact Nat.zero_le _
  | singleton s => exact (length_filter_le _ _).trans (Nat.le_add_left _ _)
  | cons_cons s t rest ih ih' =>
    rw [isChain_cons_cons] at merged
    have hrest := ih merged.2.tail
    have hnext := ih' t merged.2
    cases hs : s.tag <;> cases ht : t.tag <;> simp_all [lives]
    omega

theorem Consistent.free_eq {r : Region} {heap : Heap} {free : List (Nat × Nat)}
    (consistent : Consistent r heap ∅ free) (le : free.length ≤ 1) :
    free = [(r.native, x86_64AllocSize)] := by
  have htotal := consistent.total
  have hregion := consistent.region
  have hpos : 0 < x86_64AllocSize := by decide
  generalize x86_64AllocSize = size at htotal hregion hpos ⊢
  rcases free with _ | ⟨c, _ | ⟨c', rest⟩⟩
  · simp only [Finset.sum_empty, map_nil, sum_nil] at htotal
    omega
  · have hc := hregion c mem_cons_self
    simp only [Finset.sum_empty, map_cons, map_nil, sum_cons, sum_nil] at htotal
    rw [show c = (r.native, size) from Prod.ext (by omega) (by omega)]
  · simp at le

/-- The heap is cut into at most one free chunk more than there are blocks, and without blocks the
whole region is one free chunk. -/
theorem run_free_le {r : Region} {mem : Memory} {heap : Heap} {live : Finset (Nat × Nat)}
    (run : Relation.ReflTransGen (Step r) (execMemInit r mem, ∅) (heap, live)) :
    ∃ free, Consistent r heap live free ∧ free.length ≤ live.card + 1 ∧
      (live = ∅ → free = [(r.native, x86_64AllocSize)]) := by
  obtain ⟨chunks, inv, rfl⟩ := run_holds run (holds_init r mem)
  have hle : ((chunks.filter fun s => s.tag.isNone).map fun s => (s.start, s.len)).length ≤
      ((lives chunks).map block).toFinset.card + 1 := by
    rw [length_map, ← inv.consistent.count, inv.count, countP_eq_length_filter]
    exact frees_le_lives inv.merged
  refine ⟨_, inv.consistent, hle, fun hempty => ?_⟩
  have hconsistent := inv.consistent
  rw [hempty] at hconsistent hle
  exact hconsistent.free_eq hle

/-- A block is allocated and freed again. -/
theorem run_free_le_freed : ∃ heap ptr heap',
    execMemAlloc lowRegion x86_64AllocSize (execMemInit lowRegion fun _ => 0) 100 = some (heap, ptr) ∧
    execMemFree lowRegion x86_64AllocSize heap ptr = some heap' ∧
    Consistent lowRegion heap' ∅ [(lowRegion.native, x86_64AllocSize)] := by
  obtain ⟨heap, ptr, halloc, hptr⟩ := execMemAlloc_init
  have allocated : Step lowRegion (execMemInit lowRegion fun _ => 0, ∅) _ :=
    Step.alloc (by decide) (le_refl _) halloc
  rw [if_neg hptr] at allocated
  have here : (ptr, 100) ∈ insert (ptr, 100) (∅ : Finset (Nat × Nat)) := Finset.mem_insert_self _ _
  obtain ⟨heap', hfree, -⟩ := (run_holds (.single allocated) (holds_init _ _)).free here (le_refl _)
  have freed := Relation.ReflTransGen.tail (.single allocated) (Step.free here (le_refl _) hfree)
  have hnone : (insert (ptr, 100) ∅ : Finset (Nat × Nat)).erase (ptr, 100) = ∅ := by simp
  rw [hnone] at freed
  obtain ⟨free, hconsistent, -, hwhole⟩ := run_free_le freed
  exact ⟨heap, ptr, heap', halloc, hfree, hwhole rfl ▸ hconsistent⟩

end ExecMem
