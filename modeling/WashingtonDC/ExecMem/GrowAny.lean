import WashingtonDC.ExecMem.Runs

/-!
# Growing executable memory by any amount

`exec_mem_grow` is right for a length exactly when `GrowFits`. When an allocation grows by eight
bytes into a chunk of which a part is left, the header of the new chunk covers the back link that
is read afterwards: the free list keeps the old chunk, which is now inside the allocation. When
the end of the allocation is past the last address the sum wraps around, and the function reports
success.

The model takes every address as mapped, where the process would fault on some of them.
-/
namespace ExecMem

open ByteMemory IntrusiveList

section Overlap

variable {r : Region} {heap : Heap} {mem : Memory} {pre rest post : List Chunk} {s t : Chunk}
  {a l lt link next fuel lenReq lenReq' : Nat}

theorem Around.link_low {mid : List Chunk} {b e : Nat} {p : Link Nat}
    (h : Around r mem pre mid post b e p) : addrOf r p < 2 ^ 47 := by
  rcases h.link with rfl | ⟨s, hs, -, rfl⟩
  · exact r.freeMem_lt
  · have := h.inside (s := s) (by simp [hs])
    simp only [addrOf]
    omega

theorem growSplit_stale (lenReq : Nat) (h : Behind r mem a l lt link next) (low : link < 2 ^ 47)
    (rest : 32 ≤ lt) :
    load64 (growSplit mem a (a + l) (a + l + 8 - 1) lenReq) link = load64 mem link ∧
      allocLenOf (growSplit mem a (a + l) (a + l + 8 - 1) lenReq) a = l + 8 := by
  obtain ⟨⟨hfirst, hlast, hlink, -, hnext⟩, hsize, hsizeBehind, hallocLen, hlen, hforward, -⟩ := h
  have hfits := r.fits
  have hnew : add64 (a + l + 8 - 1) 1 = a + l + 8 := by
    rw [add64_eq (by omega)]
    omega
  have hgrown : add64 (sub64 (a + l + 8 - 1) a) 1 = l + 8 := by
    rw [sub64_eq (by omega) (by omega), add64_eq (by omega)]
    omega
  simp only [nextOf, lenOf] at hforward hlen
  have hback : load64 (fill mem (a + l + 8) 24 0xaa) (a + l + 8) = 0xaaaaaaaaaaaaaaaa :=
    load64_fill_aa mem (by omega)
  constructor
  all_goals
    simp (disch := omega) only [growSplit, setAllocLen, setAllocLenReq, setNext, setPprev, setLen,
      nextOf, pprevOf, lenOf, allocLenOf, sizeofFreeChunk, hnew, hgrown, load64_store64_ne,
      load64_store64_same, load64_fill_ne, load64_setPprevOf_ne, hforward, hback]

section
variable (inv : Inv r heap (pre ++ [s] ++ t :: rest))
include inv

theorem not_grown_of_stale (live : s.tag = some lenReq) (free : t.tag = none) (size : 32 ≤ t.len) :
    ¬ Grown r heap ⟨growSplit heap.mem s.start (s.start + s.len) (s.start + s.len + 8 - 1) lenReq',
      heap.nAllocations⟩ pre s (t :: rest) lenReq' := by
  rintro ⟨t', rest', len, hpost, -, -, -, -, inv', -⟩
  obtain ⟨rfl, rfl⟩ := List.cons.inj hpost
  have hinv : Inv r heap (pre ++ [s, t] ++ rest) := by simpa using inv
  obtain ⟨b, e, q, hq, hthreads⟩ := hinv.around
  obtain ⟨p, around, behind, hstart⟩ := hinv.behind live free
  obtain rfl : q = p := path_end_unique hq.reached around.reached
  obtain ⟨hstale, hgrown⟩ := growSplit_stale lenReq' behind around.link_low size
  -- the header of the allocation gives its length, so the rest begins eight bytes further
  obtain ⟨hlen, -, -⟩ := inv'.live_header (s := ⟨s.start, len, some lenReq'⟩) (by simp) rfl
  obtain rfl : s.len + 8 = len := hgrown.symm.trans hlen
  obtain ⟨b', e', q', hq', hthreads'⟩ := inv'.around
  obtain rfl : q' = q := path_end_unique hq'.reached around.reached
  have hfrees : frees [s, t] = [s.start + s.len] := by simp [frees, live, free, hstart]
  have hfrees' : frees (⟨s.start, s.len + 8, some lenReq'⟩ :: leftover s t (s.len + 8)) =
      [s.start + (s.len + 8)] := by
    rw [leftover, if_neg (by omega)]
    simp [frees]
  rw [hfrees] at hthreads
  rw [hfrees'] at hthreads'
  have hold := hthreads.load_eq
  have hnew := hthreads'.load_eq
  rw [hstale, hold] at hnew
  omega

theorem not_grown_of_wraps {heap' : Heap} (wraps : 2 ^ 64 < s.start + grownLen s lenReq lenReq') :
    ¬ Grown r heap heap' pre s (t :: rest) lenReq' := by
  rintro ⟨t', rest', len, hpost, -, -, hlen, hroom, -, -⟩
  obtain ⟨rfl, rfl⟩ := List.cons.inj hpost
  have hinside := inv.inside (s := s) (by simp)
  have htinside := inv.inside (s := t) (by simp)
  rw [grownLen] at wraps
  omega

section
variable (live : s.tag = some lenReq) (free : t.tag = none)
  (more : lenReq < lenReq') (size : lenReq' < 2 ^ 64)
  (enough : (pre ++ [s] ++ t :: rest).length < fuel)
include live free more size enough

theorem execMemGrow_wraps (wraps : 2 ^ 64 < s.start + grownLen s lenReq lenReq') :
    ∃ heap', execMemGrow r fuel heap (s.start + 16) lenReq' = some (heap', 0) := by
  obtain ⟨-, htsize⟩ := inv.sizes t (by simp)
  have hmin : minFreeChunkSize = 24 := rfl
  have hgoal : (s.start + grownLen s lenReq lenReq' - 1) % 2 ^ 64 ≤ s.start + s.len + t.len - 1 := by
    rw [grownLen] at wraps ⊢
    omega
  rw [execMemGrow_into inv live free more size enough, if_neg (not_lt.mpr hgoal)]
  split
  · exact ⟨_, rfl⟩
  · exact ⟨_, rfl⟩

theorem execMemGrow_stale (cover : grownLen s lenReq lenReq' = s.len + 8) (left : 32 ≤ t.len) :
    execMemGrow r fuel heap (s.start + 16) lenReq' =
      some (⟨growSplit heap.mem s.start (s.start + s.len) (s.start + s.len + 8 - 1) lenReq',
        heap.nAllocations⟩, 0) := by
  have htinside := inv.inside (s := t) (by simp)
  have hinside := inv.inside (s := s) (by simp)
  have hmin : minFreeChunkSize = 24 := rfl
  have hgoal : (s.start + (s.len + 8) - 1) % 2 ^ 64 = s.start + s.len + 8 - 1 := by omega
  have hleft : add64 (sub64 s.len ((s.len + 8) % 2 ^ 64)) t.len = t.len - 8 := by
    rw [add64, sub64]
    omega
  rw [execMemGrow_into inv live free more size enough, cover, hgoal, hleft, if_neg (by omega),
    if_neg (by omega)]

end

end

theorem not_growsRight {heap' : Heap} (more : lenReq < lenReq')
    (returned : execMemGrow r fuel heap (s.start + 16) lenReq' = some (heap', 0))
    (wrong : ¬ Grown r heap heap' pre s post lenReq') :
    ¬ GrowsRight r fuel heap pre s post lenReq lenReq' := by
  rintro ⟨heap'', ret, hgrow, hcases⟩
  obtain ⟨rfl, rfl⟩ : heap' = heap'' ∧ 0 = ret := by
    simpa using returned.symm.trans hgrow
  rcases hcases with ⟨hret, -⟩ | ⟨-, less, -⟩ | ⟨-, -, hgrown⟩
  · cases hret
  · omega
  · exact wrong hgrown

theorem not_growsRight_of_not_fits (inv : Inv r heap (pre ++ [s] ++ post))
    (live : s.tag = some lenReq) (size : lenReq' < 2 ^ 64)
    (enough : (pre ++ [s] ++ post).length < fuel) (unfit : ¬ GrowFits s post lenReq lenReq') :
    ¬ GrowsRight r fuel heap pre s post lenReq lenReq' := by
  simp only [GrowFits, not_forall] at unfit
  obtain ⟨more, t, rest, rfl, free, hnot⟩ := unfit
  by_cases wraps : 2 ^ 64 < s.start + grownLen s lenReq lenReq'
  · obtain ⟨heap', hgrow⟩ := execMemGrow_wraps inv live free more size enough wraps
    exact not_growsRight more hgrow (not_grown_of_wraps inv wraps)
  · have hcover : grownLen s lenReq lenReq' = s.len + 8 ∧ 32 ≤ t.len := by omega
    exact not_growsRight more (execMemGrow_stale inv live free more size enough hcover.1 hcover.2)
      (not_grown_of_stale inv live free hcover.2)

end Overlap

/-- Growing a live allocation to any length, with any chunks around it. -/
theorem execMemGrow_right_iff {r : Region} {heap : Heap} {pre post : List Chunk} {s : Chunk}
    {fuel lenReq lenReq' : Nat} (inv : Inv r heap (pre ++ [s] ++ post))
    (live : s.tag = some lenReq) (size : lenReq' < 2 ^ 64)
    (enough : (pre ++ [s] ++ post).length < fuel) :
    GrowsRight r fuel heap pre s post lenReq lenReq' ↔ GrowFits s post lenReq lenReq' := by
  constructor
  · intro hright
    by_contra unfit
    exact not_growsRight_of_not_fits inv live size enough unfit hright
  · exact execMemGrow_right inv live size enough

theorem lowRegion_alloc : ∃ heap,
    execMemAlloc lowRegion 4 (execMemInit lowRegion fun _ => 0) 100 = some (heap, 0x10010) ∧
    Inv lowRegion heap ([] ++ [⟨0x10000, 128, some 100⟩] ++
      [⟨0x10080, x86_64AllocSize - 128, none⟩]) := by
  have inv := inv_init lowRegion fun _ => 0
  have hall : x86_64AllocSize = 536870912 := rfl
  have halign : align8 (add64 100 24) = 128 := by decide
  rcases execMemAlloc_spec inv (show _ < 4 by decide) (show 100 < 2 ^ 64 by decide) with
    ⟨-, hsmall⟩ | ⟨-, hwrap⟩ | ⟨pre, s, post, mem, hchunks, -, halloc, -, hinv⟩
  · have := hsmall _ (List.mem_singleton_self _) rfl
    simp only [halign] at this
    omega
  · omega
  · rw [halign] at hinv
    obtain ⟨rfl, rfl, rfl⟩ : pre = [] ∧ s = ⟨0x10000, x86_64AllocSize, none⟩ ∧ post = [] := by
      cases pre with
      | nil =>
        obtain ⟨hs, hpost⟩ := List.cons.inj hchunks
        exact ⟨rfl, hs.symm, hpost.symm⟩
      | cons c pre => simp at hchunks
    exact ⟨_, halloc, hinv⟩

theorem execMemGrow_right_by_32 : ∃ heap, ∃ s t : Chunk,
    Inv lowRegion heap ([] ++ [s] ++ [t]) ∧ s.tag = some 100 ∧ t.tag = none ∧
      GrowsRight lowRegion 4 heap [] s [t] 100 132 := by
  obtain ⟨heap, -, inv⟩ := lowRegion_alloc
  refine ⟨heap, _, _, inv, rfl, rfl, (execMemGrow_right_iff inv rfl (by decide) (by simp)).mpr ?_⟩
  intro _ t rest _ _
  constructor
  · decide
  · intro h
    simp [grownLen] at h

/-- An allocation of 100 bytes that is to have 108, and one that is to have 2^64 - 1. -/
theorem execMemGrow_by_8_wrong : ∃ heap, ∃ s t : Chunk,
    execMemAlloc lowRegion 4 (execMemInit lowRegion fun _ => 0) 100 =
      some (heap, s.start + sizeofAllocChunk) ∧
    Inv lowRegion heap ([] ++ [s] ++ [t]) ∧ s.tag = some 100 ∧ t.tag = none ∧
      ¬ GrowsRight lowRegion 4 heap [] s [t] 100 108 ∧
      ¬ GrowsRight lowRegion 4 heap [] s [t] 100 (2 ^ 64 - 1) := by
  obtain ⟨heap, halloc, inv⟩ := lowRegion_alloc
  refine ⟨heap, ⟨0x10000, 128, some 100⟩, _, halloc, inv, rfl, rfl, ?_, ?_⟩
  · refine not_growsRight_of_not_fits inv rfl (by decide) (by simp) fun fits => ?_
    have hcover := (fits (by decide) _ _ rfl rfl).2 rfl
    revert hcover
    decide
  · refine not_growsRight_of_not_fits inv rfl (by decide) (by simp) fun fits => ?_
    have hend := (fits (by decide) _ _ rfl rfl).1
    revert hend
    decide

end ExecMem
