import WashingtonDC.ExecMem.Chunks

/-!
# Allocation of executable memory

An allocation takes the front of the largest free chunk. The header of the rest is written
before the one of the allocation, which overwrites the header of the chunk that was taken.
-/
namespace ExecMem

open ByteMemory IntrusiveList Tiling List

section Alloc

variable {r : Region} {mem : Memory} {a e link next len lenReq : Nat}

section
variable (margins : Margins r a e link next) (size : 24 ≤ len) (rest : a + len + 24 ≤ e)
  (back : pprevOf mem a = link) (forward : nextOf mem a = next) (total : a + lenOf mem a = e)
include margins size rest back forward total

theorem splitChunk_eq :
    splitChunk mem a len =
      store64 (store64 (store64 (setPprevOf (store64 mem (a + len) next) next (a + len))
        (a + len + 8) link) link (a + len)) (a + len + 16) (e - (a + len)) := by
  obtain ⟨hfirst, hlast, hlink, hlinkFits, hnext⟩ := margins
  have hfits := r.fits
  have hsub : sub64 (lenOf mem a) len = e - (a + len) := by
    rw [sub64_eq (by omega) (by omega)]
    omega
  simp only [nextOf, pprevOf, lenOf] at back forward hsub
  simp (disch := omega) only [splitChunk, setNext, setPprev, setLen, nextOf, pprevOf, lenOf,
    add64_eq, load64_store64_same, load64_store64_ne, load64_setPprevOf_ne, back, forward, hsub]

theorem splitChunk_confined : Confined mem (splitChunk mem a len) a e link next := by
  rw [splitChunk_eq margins size rest back forward total]
  intro x hx hlink hnext
  rw [store64_outside _ (by omega), store64_outside _ hlink, store64_outside _ (by omega),
    setPprevOf_outside _ hnext, store64_outside _ (by omega)]

theorem splitChunk_threads :
    Threads (splitChunk mem a len) link [a + len] next ∧
      lenOf (splitChunk mem a len) (a + len) = e - (a + len) := by
  rw [splitChunk_eq margins size rest back forward total]
  obtain ⟨hfirst, hlast, hlink, hlinkFits, hnext⟩ := margins
  have hfits := r.fits
  refine ⟨⟨?_, ?_, ?_, fun hne => ?_⟩, ?_⟩
  · rw [load64_store64_ne _ (by omega), load64_store64_same _ _ (by omega)]
  · rw [pprevOf, load64_store64_ne _ (by omega), load64_store64_ne _ (by omega),
      load64_store64_same _ _ hlinkFits]
  · rw [load64_store64_ne _ (by omega), load64_store64_ne _ (by omega),
      load64_store64_ne _ (by omega), load64_setPprevOf_ne _ (by omega),
      load64_store64_same _ _ (by omega)]
  · rw [pprevOf, load64_store64_ne _ (by omega), load64_store64_ne _ (by omega),
      load64_store64_ne _ (by omega), load64_setPprevOf_same _ hne (by omega)]
  · exact load64_store64_same _ _ (by omega)

end

/-- The bytes of an allocation are all that writing its header and clearing it changes. -/
def writeAlloc (mem : Memory) (a len lenReq : Nat) : Memory :=
  fill (setAllocLenReq (setAllocLen mem a len) a lenReq) (a + 16) lenReq 0

theorem writeAlloc_outside (mem : Memory) (room : lenReq + 24 ≤ len) {x : Nat}
    (outside : x < a ∨ a + len ≤ x) : writeAlloc mem a len lenReq x = mem x := by
  simp only [writeAlloc, setAllocLenReq, setAllocLen]
  rw [fill_outside _ (by omega), store64_outside _ (by omega), store64_outside _ (by omega)]

theorem writeAlloc_header (mem : Memory) (room : lenReq + 24 ≤ len) (fits : len < 2 ^ 64) :
    Header (writeAlloc mem a len lenReq) ⟨a, len, some lenReq⟩ := by
  refine ⟨?_, ?_, room⟩
  · simp only [allocLenOf, writeAlloc, setAllocLenReq, setAllocLen]
    rw [load64_fill_ne _ (by omega), load64_store64_ne _ (by omega), load64_store64_same _ _ fits]
  · simp only [allocLenReqOf, writeAlloc, setAllocLenReq, setAllocLen]
    rw [load64_fill_ne _ (by omega), load64_store64_same _ _ (by omega)]

variable {heap : Heap} {pre post : List Chunk} {s : Chunk}

theorem Inv.chunk_threads (inv : Inv r heap (pre ++ [s] ++ post)) (free : s.tag = none) :
    ∃ p, Around r heap.mem pre [s] post s.start s.stop p ∧
      pprevOf heap.mem s.start = addrOf r p ∧ nextOf heap.mem s.start = nextFree post := by
  obtain ⟨b, e, p, around, threads⟩ := inv.around
  obtain ⟨rfl, rfl⟩ := around.inner
  have hfrees : frees [s] = [s.start] := by simp [frees, free]
  rw [hfrees] at threads
  exact ⟨p, around, threads.2.1, threads.2.2.1⟩

/-- What is left of a free chunk from which `len` bytes are taken. -/
def remainder (s : Chunk) (len : Nat) : List Chunk :=
  if s.len - len < minFreeChunkSize then [] else [⟨s.start + len, s.len - len, none⟩]

/-- The length that is taken, which is all of the chunk when nothing of use would be left. -/
def takenLen (s : Chunk) (len : Nat) : Nat :=
  if s.len - len < minFreeChunkSize then s.len else len

theorem mem_remainder {t : Chunk} (ht : t ∈ remainder s len) :
    t = ⟨s.start + len, s.len - len, none⟩ ∧ takenLen s len = len ∧ 24 ≤ s.len - len := by
  by_cases hwhole : s.len - len < minFreeChunkSize
  · simp [remainder, hwhole] at ht
  · simp only [remainder, hwhole, ↓reduceIte, mem_singleton] at ht
    exact ⟨ht, if_neg hwhole, not_lt.mp hwhole⟩

theorem takeCandidate_spec {p : Link Nat} (around : Around r mem pre [s] post s.start s.stop p)
    (back : pprevOf mem s.start = addrOf r p) (forward : nextOf mem s.start = nextFree post)
    (hlen : lenOf mem s.start = s.len) (size : 24 ≤ len) (fits : len ≤ s.len) :
    ∃ mem', takeCandidate mem s.start len = (mem', takenLen s len) ∧
      Confined mem mem' s.start s.stop (addrOf r p) (nextFree post) ∧
      Threads mem' (addrOf r p) (frees (remainder s len)) (nextFree post) ∧
      ∀ t ∈ remainder s len, lenOf mem' t.start = t.len := by
  have margins := around.margins
  have hinside := around.inside (s := s) (by simp)
  have hstop : s.stop = s.start + s.len := rfl
  have hsub : sub64 s.len len = s.len - len := sub64_eq fits (by omega)
  by_cases hwhole : s.len - len < minFreeChunkSize
  · refine ⟨removeChunk mem s.start, ?_, removeChunk_confined margins hinside.1 back forward, ?_, ?_⟩
    · by_cases hexact : s.len = len
      · simp [takeCandidate, takenLen, hlen, hexact]
      · simp [takeCandidate, takenLen, hlen, hexact, hsub, hwhole]
    · simpa [remainder, hwhole, frees] using
        removeChunk_threads margins hinside.1 back forward
    · simp [remainder, hwhole]
  · have hrest : s.start + len + 24 ≤ s.stop := by
      simp only [minFreeChunkSize, sizeofFreeChunk] at hwhole
      omega
    have htotal : s.start + lenOf mem s.start = s.stop := by rw [hlen, hstop]
    have hexact : s.len ≠ len := by omega
    obtain ⟨hthreads, hnewLen⟩ := splitChunk_threads margins size hrest back forward htotal
    refine ⟨splitChunk mem s.start len, ?_,
      splitChunk_confined margins size hrest back forward htotal, ?_, ?_⟩
    · simp [takeCandidate, takenLen, hlen, hexact, hsub, hwhole]
    · simpa [remainder, hwhole, frees] using hthreads
    · simp only [remainder, hwhole, ↓reduceIte, mem_singleton, forall_eq]
      omega

theorem Inv.take (inv : Inv r heap (pre ++ [s] ++ post)) (free : s.tag = none) (aligned : len % 8 = 0)
    (room : lenReq + 24 ≤ len) (fits : len ≤ s.len) :
    ∃ mem', takeCandidate heap.mem s.start len = (mem', takenLen s len) ∧
      Inv r ⟨writeAlloc mem' s.start (takenLen s len) lenReq, heap.nAllocations + 1⟩
        (pre ++ ⟨s.start, takenLen s len, some lenReq⟩ :: remainder s len ++ post) := by
  obtain ⟨p, around, back, forward⟩ := inv.chunk_threads free
  have hmem : s ∈ pre ++ [s] ++ post := by simp
  have hlen := inv.free_len hmem free
  obtain ⟨mem', htake, hconfined, hthreads, hlens⟩ :=
    takeCandidate_spec around back forward hlen (by omega) fits
  refine ⟨mem', htake, ?_⟩
  obtain ⟨halign, hsize⟩ := inv.sizes s hmem
  have margins := around.margins
  have hinside := around.inside hmem
  have htaken : len ≤ takenLen s len ∧ takenLen s len ≤ s.len ∧ takenLen s len % 8 = 0 := by
    simp only [takenLen]
    split <;> omega
  have houtside : ∀ x, x < s.start ∨ s.start + takenLen s len ≤ x →
      writeAlloc mem' s.start (takenLen s len) lenReq x = mem' x :=
    fun x hx => writeAlloc_outside _ (by omega) hx
  have hremainder : ∀ t ∈ remainder s len, t.tag = none ∧ s.start + takenLen s len ≤ t.start ∧
      t.len % 8 = 0 ∧ minFreeChunkSize ≤ t.len := by
    intro t ht
    obtain ⟨rfl, htaken, hsize⟩ := mem_remainder ht
    rw [htaken]
    exact ⟨rfl, le_refl _, by simp only; omega, hsize⟩
  obtain ⟨hpre, -, hpost, hfront, hbehind⟩ := isChain_middle.mp inv.merged
  refine inv.edit around (fun x hx hp hn => (houtside x (by omega)).trans (hconfined x hx hp hn))
    ⟨rfl, ?_⟩ ?_ ?_ ?_ ?_ ?_
  · simp only [Seg.stop, remainder, takenLen]
    split
    · rfl
    · exact ⟨rfl, by simp only [Tiled, Seg.stop]; omega⟩
  · intro t ht
    rcases mem_cons.mp ht with rfl | ht
    · exact ⟨htaken.2.2, by simp only [minFreeChunkSize, sizeofFreeChunk]; omega⟩
    · exact (hremainder t ht).2.2
  · refine isChain_middle.mpr ⟨hpre, ?_, hpost, by simp, ?_⟩
    · simp only [remainder]
      split <;> simp
    · simp only [remainder]
      split
      · simp
      · simpa [free] using hbehind
  · intro t ht
    rcases mem_cons.mp ht with rfl | ht
    · exact writeAlloc_header _ (by omega) (by omega)
    · obtain ⟨htag, hstart, -, -⟩ := hremainder t ht
      simp only [Header, htag, lenOf]
      rw [load64_congr fun x hx _ => houtside x (by omega)]
      exact hlens t ht
  · have hfrees : frees (⟨s.start, takenLen s len, some lenReq⟩ :: remainder s len) =
        frees (remainder s len) := by simp [frees]
    rw [hfrees]
    have hlink := margins.linkApart
    have hnext := margins.nextApart
    refine hthreads.outside houtside (by omega) ?_ (by omega)
    intro a ha
    obtain ⟨t, ht, -, rfl⟩ := mem_frees.mp ha
    exact .inr (hremainder t ht).2.1
  · have hlives : (remainder s len).countP (fun t => t.tag.isSome) = 0 :=
      countP_eq_zero.mpr fun t ht => by simp [(hremainder t ht).1]
    simp [free, hlives]

variable {chunks : List Chunk} {fuel : Nat}

theorem candidateLoop_spec (len : Nat) {as : List Nat} (threads : Threads mem link as 0)
    (pos : ∀ a ∈ as, a ≠ 0) (enough : as.length < fuel) (candidate : Nat) :
    ∃ c, candidateLoop mem len fuel (load64 mem link) candidate = some c ∧
      (c = candidate ∨ c ∈ as ∧ len ≤ lenOf mem c) ∧ (c = 0 → ∀ a ∈ as, lenOf mem a < len) := by
  induction as generalizing link fuel candidate with
  | nil =>
    obtain ⟨fuel, rfl⟩ : ∃ n, fuel = n + 1 := ⟨fuel - 1, by omega⟩
    exact ⟨candidate, by simp [candidateLoop, threads.1], .inl rfl, by simp⟩
  | cons a rest ih =>
    simp only [length_cons] at enough
    obtain ⟨fuel, rfl⟩ : ∃ n, fuel = n + 1 := ⟨fuel - 1, by omega⟩
    obtain ⟨forward, -, hrest⟩ := threads
    have ha : a ≠ 0 := pos a mem_cons_self
    have hpos : ∀ x ∈ rest, x ≠ 0 := fun x hx => pos x (mem_cons_of_mem a hx)
    simp only [candidateLoop, forward, ha, ↓reduceIte]
    split
    case isTrue hbetter =>
      obtain ⟨c, hloop, hc, -⟩ := ih hrest hpos (show rest.length < fuel by omega) a
      refine ⟨c, hloop, .inr ?_, fun hzero => ?_⟩
      · rcases hc with rfl | ⟨hc, hle⟩
        · exact ⟨mem_cons_self, hbetter.1⟩
        · exact ⟨mem_cons_of_mem a hc, hle⟩
      · rcases hc with rfl | ⟨hc, -⟩
        · exact absurd hzero ha
        · exact absurd hzero (hpos c hc)
    case isFalse hworse =>
      obtain ⟨c, hloop, hc, hnone⟩ := ih hrest hpos (show rest.length < fuel by omega) candidate
      refine ⟨c, hloop, hc.imp_right fun ⟨hc, hle⟩ => ⟨mem_cons_of_mem a hc, hle⟩, ?_⟩
      intro hzero x hx
      rcases mem_cons.mp hx with rfl | hx
      · by_contra hle
        rcases hc with rfl | ⟨hc, -⟩
        · exact hworse ⟨not_lt.mp hle, .inl hzero⟩
        · exact hpos c hc hzero
      · exact hnone hzero x hx

theorem execMemAlloc_eq {c len' : Nat} {mem' : Memory} (hc : c ≠ 0) (aligned : c % 8 = 0)
    (fits : c + 24 ≤ r.native + x86_64AllocSize)
    (hloop : candidateLoop heap.mem (align8 (add64 lenReq 24)) fuel (load64 heap.mem r.freeMem) 0 =
      some c)
    (htake : takeCandidate heap.mem c (align8 (add64 lenReq 24)) = (mem', len')) :
    execMemAlloc r fuel heap lenReq =
      if c + 16 + lenReq ≤ r.native + x86_64AllocSize then
        some (⟨writeAlloc mem' c len' lenReq, add64 heap.nAllocations 1⟩, c + 16)
      else none := by
  have hregion := r.fits
  have hret : align8 (add64 c 16) = c + 16 := by
    rw [add64_eq (by omega), align8_eq (by omega)]
    omega
  simp only [execMemAlloc, sizeofAllocChunk, Nat.reduceAdd, hloop, htake, hret, memset,
    Option.bind_eq_bind, Option.bind_some, hc, ↓reduceIte]
  split <;> rfl

theorem execMemAlloc_spec (inv : Inv r heap chunks) (enough : chunks.length < fuel)
    (hreq : lenReq < 2 ^ 64) :
    (execMemAlloc r fuel heap lenReq = some (heap, 0) ∧
      ∀ s ∈ chunks, s.tag = none → s.len < align8 (add64 lenReq 24)) ∨
    (execMemAlloc r fuel heap lenReq = none ∧ 2 ^ 64 ≤ lenReq + 31) ∨
    ∃ pre s post mem, chunks = pre ++ [s] ++ post ∧ s.tag = none ∧
      execMemAlloc r fuel heap lenReq =
        some (⟨mem, heap.nAllocations + 1⟩, s.start + 16) ∧
      (∀ x, s.start + 16 ≤ x → x < s.start + 16 + lenReq → mem x = 0) ∧
      Inv r ⟨mem, heap.nAllocations + 1⟩
        (pre ++ ⟨s.start, takenLen s (align8 (add64 lenReq 24)), some lenReq⟩ ::
          remainder s (align8 (add64 lenReq 24)) ++ post) := by
  have hfrees := frees_length_le chunks
  obtain ⟨c, hloop, hc, hnone⟩ := candidateLoop_spec (align8 (add64 lenReq 24)) inv.threads
    (fun a ha => inv.frees_ne ha) (show (frees chunks).length < fuel by omega) 0
  rcases hc with rfl | ⟨hc, hfits⟩
  · refine .inl ⟨?_, fun s hs htag => ?_⟩
    · simp [execMemAlloc, sizeofAllocChunk, hloop]
    · rw [← inv.free_len hs htag]
      exact hnone rfl s.start (mem_frees.mpr ⟨s, hs, htag, rfl⟩)
  · have hne := inv.frees_ne hc
    obtain ⟨pre, s, post, rfl, htag, rfl⟩ := exists_of_mem_frees hc
    have hmem : s ∈ pre ++ [s] ++ post := by simp
    have hinside := inv.inside hmem
    have haligned := inv.start_aligned hmem
    have hcount := inv.count_le
    right
    by_cases hwrap : 2 ^ 64 ≤ lenReq + 31
    · refine .inl ⟨?_, hwrap⟩
      rw [execMemAlloc_eq hne haligned (by omega) hloop Prod.mk.eta.symm]
      exact if_neg (by omega)
    · rw [inv.free_len hmem htag] at hfits
      have hlen : align8 (add64 lenReq 24) = (lenReq + 24 + 7) / 8 * 8 := by
        rw [add64_eq (by omega), align8_eq (by omega)]
      obtain ⟨mem', htake, hinv⟩ := inv.take htag (show align8 (add64 lenReq 24) % 8 = 0 by omega)
        (show lenReq + 24 ≤ align8 (add64 lenReq 24) by omega) hfits
      refine .inr ⟨pre, s, post, _, rfl, htag, ?_, ?_, hinv⟩
      · have hadd : add64 heap.nAllocations 1 = heap.nAllocations + 1 := add64_eq (by omega)
        rw [execMemAlloc_eq hne haligned (by omega) hloop htake, if_pos (by omega), hadd]
      · intro x hx hx'
        exact if_pos ⟨hx, hx'⟩

end Alloc

end ExecMem
