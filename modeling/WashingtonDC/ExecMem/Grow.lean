import WashingtonDC.ExecMem.Chunks

/-!
# Growing executable memory

An allocation grows into the free chunk right behind it. The new header of that chunk is
written before the old one is read, so growth is only sound when it does not cover the links in
the old one; it does not for the 32 bytes that the emitter asks for. `execMemGrow_more` is the
function for every length, with its sums as they wrap around, and `execMemGrow_right` what it
does when `GrowFits`.
-/
namespace ExecMem

open ByteMemory IntrusiveList Tiling List

/-- By how much `try_grow` extends an allocation. -/
def x86_64GrowSize : Nat := 32

section Memory

variable {r : Region} {mem : Memory} {a l lt link next lenReq : Nat}

/-- The allocation `a` of length `l` and the free chunk behind it, of length `lt`. -/
structure Behind (r : Region) (mem : Memory) (a l lt link next : Nat) : Prop where
  margins : Margins r a (a + l + lt) link next
  size : 24 ≤ l
  sizeBehind : 24 ≤ lt
  allocLen : allocLenOf mem a = l
  len : lenOf mem (a + l) = lt
  forward : nextOf mem (a + l) = next
  back : pprevOf mem (a + l) = link

section
variable (h : Behind r mem a l lt link next)
include h

theorem growWhole_eq :
    growWhole mem a (a + l) lenReq =
      store64 (fill (store64 (store64 (setPprevOf mem next link) link next) a (l + lt)) (a + l) 24 0)
        (a + 8) lenReq := by
  obtain ⟨⟨hfirst, hlast, hlink, hlinkFits, hnext⟩, hsize, hsizeBehind, hallocLen, hlen, hforward,
    hback⟩ := h
  have hfits := r.fits
  have margins : Margins r (a + l) (a + l + lt) link next :=
    ⟨by omega, hlast, by omega, hlinkFits, hnext⟩
  have hremove := removeChunk_eq margins (by omega) hback hforward
  simp only [allocLenOf, lenOf] at hallocLen hlen
  simp (disch := omega) only [growWhole, hremove, setAllocLen, setAllocLenReq, allocLenOf, lenOf,
    sizeofFreeChunk, add64_eq, load64_store64_ne, load64_setPprevOf_ne, hallocLen, hlen]

theorem growWhole_spec (room : lenReq + 24 ≤ l + lt) :
    Confined mem (growWhole mem a (a + l) lenReq) a (a + l + lt) link next ∧
      (∀ x, a + 16 ≤ x → x < a + l → growWhole mem a (a + l) lenReq x = mem x) ∧
      Threads (growWhole mem a (a + l) lenReq) link [] next ∧
      Header (growWhole mem a (a + l) lenReq) ⟨a, l + lt, some lenReq⟩ := by
  rw [growWhole_eq h]
  obtain ⟨⟨hfirst, hlast, hlink, hlinkFits, hnext⟩, hsize, hsizeBehind, -, -, -, -⟩ := h
  have hfits := r.fits
  refine ⟨fun x hx hx' hx'' => ?_, fun x hx hx' => ?_, ⟨?_, fun hne => ?_⟩, ?_, ?_, room⟩
  iterate 2 simp (disch := omega) only [store64_outside, fill_outside, setPprevOf_outside]
  all_goals
    simp (disch := omega) only [pprevOf, allocLenOf, allocLenReqOf, load64_store64_ne,
      load64_store64_same, load64_fill_ne, load64_setPprevOf_same]

theorem growSplit_eq {n : Nat} (far : a + l + 16 ≤ n) (rest : n + 24 ≤ a + l + lt) :
    growSplit mem a (a + l) (n - 1) lenReq =
      store64 (store64 (store64 (setPprevOf (store64 (store64 (store64 (fill mem n 24 0xaa) (n + 8)
        link) link n) n next) next n) (n + 16) (a + l + lt - n)) (a + 8) lenReq) a (n - a) := by
  obtain ⟨⟨hfirst, hlast, hlink, hlinkFits, hnext⟩, hsize, hsizeBehind, hallocLen, hlen, hforward,
    hback⟩ := h
  have hfits := r.fits
  have hnew : add64 (n - 1) 1 = n := by
    rw [add64_eq (by omega)]
    omega
  have hrest : add64 (sub64 (add64 (a + l) (sub64 lt 1)) n) 1 = a + l + lt - n := by
    rw [lastAddr_eq (by omega) (by omega), sub64_eq (by omega) (by omega), add64_eq (by omega)]
    omega
  have hgrown : add64 (sub64 (n - 1) a) 1 = n - a := by
    rw [sub64_eq (by omega) (by omega), add64_eq (by omega)]
    omega
  simp only [nextOf, pprevOf, lenOf] at hforward hback hlen
  simp (disch := omega) only [growSplit, setAllocLen, setAllocLenReq, setNext, setPprev, setLen,
    nextOf, pprevOf, lenOf, sizeofFreeChunk, hnew, hlen, hrest, hgrown, load64_store64_ne,
    load64_store64_same, load64_fill_ne, hforward, hback]

theorem growSplit_spec {n : Nat} (far : a + l + 16 ≤ n) (rest : n + 24 ≤ a + l + lt)
    (room : lenReq + 24 ≤ n - a) :
    Confined mem (growSplit mem a (a + l) (n - 1) lenReq) a (a + l + lt) link next ∧
      (∀ x, a + 16 ≤ x → x < a + l → growSplit mem a (a + l) (n - 1) lenReq x = mem x) ∧
      Threads (growSplit mem a (a + l) (n - 1) lenReq) link [n] next ∧
      Header (growSplit mem a (a + l) (n - 1) lenReq) ⟨a, n - a, some lenReq⟩ ∧
      Header (growSplit mem a (a + l) (n - 1) lenReq) ⟨n, a + l + lt - n, none⟩ := by
  rw [growSplit_eq h far rest]
  obtain ⟨⟨hfirst, hlast, hlink, hlinkFits, hnext⟩, hsize, hsizeBehind, -, -, -, -⟩ := h
  have hfits := r.fits
  refine ⟨fun x hx hx' hx'' => ?_, fun x hx hx' => ?_, ⟨?_, ?_, ?_, fun hne => ?_⟩,
    ⟨?_, ?_, room⟩, ?_⟩
  iterate 2 simp (disch := omega) only [store64_outside, fill_outside, setPprevOf_outside]
  all_goals
    simp (disch := omega) only [Header, pprevOf, lenOf, allocLenOf, allocLenReqOf,
      load64_store64_ne, load64_store64_same, load64_setPprevOf_ne, load64_setPprevOf_same]

end

end Memory

section Grow

variable {r : Region} {heap : Heap} {mem : Memory} {pre post rest chunks : List Chunk}
  {s t : Chunk} {link fuel lenReq lenReq' : Nat}

theorem behindLoop_spec (last : Nat) {as bs : List Nat} (threads : Threads mem link (as ++ bs) 0)
    (pos : ∀ a ∈ as ++ bs, a ≠ 0) (fits : ∀ a ∈ as ++ bs, a < 2 ^ 64) (low : ∀ a ∈ as, a ≤ last)
    (high : ∀ a ∈ bs, last < a) (enough : as.length < fuel) :
    behindLoop mem last fuel (load64 mem link) =
      some (if bs.head? = some (last + 1) then last + 1 else 0) := by
  induction as generalizing link fuel with
  | nil =>
    obtain ⟨fuel, rfl⟩ : ∃ n, fuel = n + 1 := ⟨fuel - 1, by omega⟩
    cases bs with
    | nil => simp [behindLoop, threads.1]
    | cons b bs =>
      have hb : b ≠ 0 := pos b (by simp)
      have hlast : last < b := high b (by simp)
      have hsub : sub64 b 1 = b - 1 := sub64_eq (by omega) (fits b (by simp))
      simp only [behindLoop, threads.load_eq, hb, ↓reduceIte, hsub, hlast, head?_cons,
        Option.some.injEq]
      by_cases htouch : b = last + 1
      · simp [htouch]
      · rw [if_neg (by omega), if_neg htouch]
  | cons a as ih =>
    simp only [length_cons] at enough
    obtain ⟨fuel, rfl⟩ : ∃ n, fuel = n + 1 := ⟨fuel - 1, by omega⟩
    obtain ⟨forward, -, hrest⟩ := threads
    have ha : a ≠ 0 := pos a (by simp)
    have hlow : a ≤ last := low a (by simp)
    have hsub : sub64 a 1 = a - 1 := sub64_eq (by omega) (fits a (by simp))
    simp only [behindLoop, forward, ha, ↓reduceIte, hsub]
    rw [if_neg (by omega), if_neg (by omega)]
    exact ih hrest (fun c hc => pos c (mem_cons_of_mem a hc))
      (fun c hc => fits c (mem_cons_of_mem a hc))
      (fun c hc => low c (mem_cons_of_mem a hc)) (by omega)

theorem Inv.behindLoop_eq (inv : Inv r heap (pre ++ [s] ++ post)) (live : s.tag = some lenReq)
    (enough : (pre ++ [s] ++ post).length < fuel) :
    behindLoop heap.mem (s.stop - 1) fuel (load64 heap.mem r.freeMem) =
      some (if nextFree post = s.stop then s.stop else 0) := by
  have hinside := inv.inside (s := s) (by simp)
  obtain ⟨b, e, p, around, -⟩ := inv.around
  obtain ⟨rfl, rfl⟩ := around.inner
  have hfrees : frees (pre ++ [s] ++ post) = frees pre ++ frees post := by
    simp only [frees_append]
    simp [frees, live]
  have hthreads := inv.threads
  rw [hfrees] at hthreads
  have hne : ∀ a ∈ frees pre ++ frees post, a ≠ 0 := fun a ha => inv.frees_ne (hfrees ▸ ha)
  have hloop := behindLoop_spec (s.stop - 1) hthreads hne ?_ ?_ ?_
    (show (frees pre).length < fuel by
      have := frees_length_le pre
      simp only [length_append] at enough
      omega)
  · have hhead := around.head?_eq
    have hstop : s.stop - 1 + 1 = s.stop := by omega
    rw [hloop, hstop]
    by_cases hnext : nextFree post = s.stop
    · rw [if_pos, if_pos hnext]
      rw [hhead, hnext, ptr, if_neg (by omega)]
    · rw [if_neg, if_neg hnext]
      intro heq
      exact hnext (by simp [nextFree, heq])
  · intro a ha
    rw [← hfrees] at ha
    obtain ⟨t, ht, -, rfl⟩ := mem_frees.mp ha
    have := inv.inside ht
    omega
  · intro a ha
    obtain ⟨t, ht, -, rfl⟩ := mem_frees.mp ha
    have := around.before.mem ht
    have := inv.inside (s := t) (by simp [ht])
    omega
  · intro a ha
    obtain ⟨t, ht, -, rfl⟩ := mem_frees.mp ha
    have := (around.behind.mem ht).1
    omega

section
variable (inv : Inv r heap (pre ++ [s, t] ++ rest)) (live : s.tag = some lenReq)
  (free : t.tag = none)
include inv live free

theorem Inv.behind :
    ∃ p, Around r heap.mem pre [s, t] rest s.start (s.start + s.len + t.len) p ∧
      Behind r heap.mem s.start s.len t.len (addrOf r p) (nextFree rest) ∧
      t.start = s.start + s.len := by
  obtain ⟨b, e, p, around, threads⟩ := inv.around
  obtain ⟨rfl, htouch, rfl⟩ := around.inner
  have hfrees : frees [s, t] = [t.start] := by simp [frees, live, free]
  rw [hfrees] at threads
  obtain ⟨-, hback, hforward, -⟩ := threads
  have hstart : t.start = s.start + s.len := htouch
  have hstop : t.stop = s.start + s.len + t.len := by rw [Seg.stop, hstart]
  have hlen := inv.free_len (s := t) (by simp) free
  obtain ⟨hallocLen, -, -⟩ := inv.live_header (s := s) (by simp) live
  rw [hstop] at around
  rw [hstart] at hback hforward hlen
  exact ⟨p, around, ⟨around.margins, (inv.sizes s (by simp)).2, (inv.sizes t (by simp)).2,
    hallocLen, hlen, hforward, hback⟩, hstart⟩

theorem Inv.growWhole (lenReq' : Nat) (room : lenReq' + 24 ≤ s.len + t.len) :
    Inv r ⟨growWhole heap.mem s.start (s.start + s.len) lenReq', heap.nAllocations⟩
      (pre ++ [⟨s.start, s.len + t.len, some lenReq'⟩] ++ rest) := by
  obtain ⟨p, around, behind, -⟩ := inv.behind live free
  obtain ⟨hconfined, -, hthreads, hheader⟩ := growWhole_spec behind room
  have hs := inv.sizes s (by simp)
  have ht := inv.sizes t (by simp)
  have hchain := isChain_middle.mp inv.merged
  refine inv.edit around hconfined ⟨rfl, by simp [Seg.stop, Tiled, add_assoc]⟩ ?_ ?_ ?_ ?_ ?_
  · simp only [mem_singleton, forall_eq]
    omega
  · exact isChain_middle.mpr ⟨hchain.1, isChain_singleton _, hchain.2.2.1, by simp, by simp⟩
  · simpa using hheader
  · simpa [frees] using hthreads
  · simp [live, free]

theorem Inv.growSplit {n : Nat} (lenReq' : Nat) (far : s.start + s.len + 16 ≤ n)
    (left : n + 24 ≤ s.start + s.len + t.len) (aligned : (n - s.start) % 8 = 0)
    (room : lenReq' + 24 ≤ n - s.start) :
    Inv r ⟨growSplit heap.mem s.start (s.start + s.len) (n - 1) lenReq', heap.nAllocations⟩
      (pre ++ [⟨s.start, n - s.start, some lenReq'⟩, ⟨n, s.start + s.len + t.len - n, none⟩] ++
        rest) := by
  obtain ⟨p, around, behind, -⟩ := inv.behind live free
  obtain ⟨hconfined, -, hthreads, hheader, hheader'⟩ := growSplit_spec behind far left room
  have hs := inv.sizes s (by simp)
  have ht := inv.sizes t (by simp)
  have hchain := isChain_middle.mp inv.merged
  refine inv.edit around hconfined ⟨rfl, ?_, ?_⟩ ?_ ?_ ?_ ?_ ?_
  · simp only [Seg.stop]
    omega
  · simp only [Seg.stop, Tiled]
    omega
  · simp only [mem_cons, not_mem_nil, or_false, forall_eq_or_imp, forall_eq,
      minFreeChunkSize, sizeofFreeChunk]
    omega
  · refine isChain_middle.mpr ⟨hchain.1, by simp, hchain.2.2.1, by simp, ?_⟩
    simpa [free] using hchain.2.2.2.2
  · simpa using ⟨hheader, hheader'⟩
  · simpa [frees] using hthreads
  · simp [live, free]

end

/-- The length that an allocation is to have, if no sum wraps around. -/
def grownLen (s : Chunk) (lenReq lenReq' : Nat) : Nat := (s.len + (lenReq' - lenReq) + 7) / 8 * 8

section
variable (inv : Inv r heap (pre ++ [s] ++ post))
include inv

theorem execMemGrow_more {curs : Nat} (live : s.tag = some lenReq) (more : lenReq < lenReq')
    (size : lenReq' < 2 ^ 64)
    (hloop : behindLoop heap.mem (s.stop - 1) fuel (load64 heap.mem r.freeMem) = some curs) :
    execMemGrow r fuel heap (s.start + 16) lenReq' =
      if curs = 0 then some (heap, -1)
      else if (s.start + grownLen s lenReq lenReq' - 1) % 2 ^ 64 >
          add64 curs (sub64 (lenOf heap.mem curs) 1) then some (heap, -1)
      else if add64 (sub64 s.len (grownLen s lenReq lenReq' % 2 ^ 64)) (lenOf heap.mem curs) <
          minFreeChunkSize then
        some (⟨growWhole heap.mem s.start curs lenReq', heap.nAllocations⟩, 0)
      else some (⟨growSplit heap.mem s.start curs
        ((s.start + grownLen s lenReq lenReq' - 1) % 2 ^ 64) lenReq', heap.nAllocations⟩, 0) := by
  obtain ⟨hlen, hreq, hroom⟩ := inv.live_header (s := s) (by simp) live
  have hinside := inv.inside (s := s) (by simp)
  have hlast : add64 s.start (sub64 s.len 1) = s.stop - 1 := lastAddr_eq (by omega) (by omega)
  have hamt : sub64 lenReq' lenReq = lenReq' - lenReq := sub64_eq (by omega) size
  have haligned : align8 (add64 s.len (lenReq' - lenReq)) = grownLen s lenReq lenReq' % 2 ^ 64 := by
    rw [add64, align8_mod (Nat.mod_lt _ (by decide)), grownLen]
    omega
  have hgoal : sub64 (add64 s.start (grownLen s lenReq lenReq' % 2 ^ 64)) 1 =
      (s.start + grownLen s lenReq lenReq' - 1) % 2 ^ 64 := by
    rw [sub64, add64]
    omega
  have hmore : ¬ lenReq ≥ lenReq' := by omega
  simp only [execMemGrow, getAllocStart_eq (show s.start + 16 < 2 ^ 64 by omega), hlen, hreq, hlast,
    hamt, haligned, hgoal, hmore, hloop, ↓reduceIte, Option.bind_eq_bind, Option.bind_some,
    Option.pure_def]

theorem execMemGrow_less (live : s.tag = some lenReq) (less : lenReq' ≤ lenReq) :
    execMemGrow r fuel heap (s.start + 16) lenReq' = some (heap, 0) := by
  obtain ⟨-, hreq, -⟩ := inv.live_header (s := s) (by simp) live
  have hinside := inv.inside (s := s) (by simp)
  simp only [execMemGrow, getAllocStart_eq (show s.start + 16 < 2 ^ 64 by omega), hreq, less,
    ↓reduceIte, Option.pure_def]

theorem Inv.behind_free (touch : nextFree post = s.stop) :
    ∃ t rest, post = t :: rest ∧ t.tag = none := by
  have hinside := inv.inside (s := s) (by simp)
  obtain ⟨b, e, p, around, -⟩ := inv.around
  obtain ⟨rfl, rfl⟩ := around.inner
  rcases around.behind_cases with hbehind | ⟨-, hfar⟩
  · exact hbehind
  · omega

end

theorem Inv.nextFree_behind (inv : Inv r heap (pre ++ [s] ++ t :: rest)) (free : t.tag = none) :
    nextFree (t :: rest) = s.stop := by
  obtain ⟨b, e, p, around, -⟩ := inv.around
  obtain ⟨rfl, rfl⟩ := around.inner
  rw [nextFree, frees_cons_free free]
  exact around.behind.1

def KeepsUsable (mem mem' : Memory) (chunks : List Chunk) : Prop :=
  ∀ u ∈ lives chunks, ∀ x, u.start + sizeofAllocChunk ≤ x → x < u.stop → mem' x = mem x

/-- What is left of the free chunk `t` when the allocation before it has the length `len`. -/
def leftover (s t : Chunk) (len : Nat) : List Chunk :=
  if len = s.len + t.len then [] else [⟨s.start + len, s.len + t.len - len, none⟩]

/-- The allocation `s` has taken bytes of the free chunk behind it, and of no other one. -/
def Grown (r : Region) (heap heap' : Heap) (pre : List Chunk) (s : Chunk) (post : List Chunk)
    (lenReq' : Nat) : Prop :=
  ∃ t rest len, post = t :: rest ∧ t.tag = none ∧ s.len ≤ len ∧ len ≤ s.len + t.len ∧
    lenReq' + sizeofAllocChunk ≤ len ∧
    Inv r heap' (pre ++ ⟨s.start, len, some lenReq'⟩ :: leftover s t len ++ rest) ∧
    KeepsUsable heap.mem heap'.mem (pre ++ [s] ++ post)

/-- `exec_mem_grow` returns; it fails without a change or the allocation has the length. -/
def GrowsRight (r : Region) (fuel : Nat) (heap : Heap) (pre : List Chunk) (s : Chunk)
    (post : List Chunk) (lenReq lenReq' : Nat) : Prop :=
  ∃ heap' ret, execMemGrow r fuel heap (s.start + sizeofAllocChunk) lenReq' = some (heap', ret) ∧
    (ret = -1 ∧ heap' = heap ∨ ret = 0 ∧ lenReq' ≤ lenReq ∧ heap' = heap ∨
      ret = 0 ∧ lenReq < lenReq' ∧ Grown r heap heap' pre s post lenReq')

/-- The end of the allocation is an address, and where a new chunk is made its header does not
cover the back link in the old one. -/
def GrowFits (s : Chunk) (post : List Chunk) (lenReq lenReq' : Nat) : Prop :=
  lenReq < lenReq' → ∀ t rest, post = t :: rest → t.tag = none →
    s.start + grownLen s lenReq lenReq' ≤ 2 ^ 64 ∧
      (grownLen s lenReq lenReq' = s.len + 8 → t.len < 32)

theorem Confined.keepsUsable {mid : List Chunk} {mem' : Memory} {b e : Nat} {p : Link Nat}
    (h : Confined mem mem' b e (addrOf r p) (nextFree post))
    (around : Around r mem pre mid post b e p) : KeepsUsable mem mem' (pre ++ post) := by
  intro u hu x hx hx'
  obtain ⟨hu, hlive⟩ := mem_filter.mp hu
  have hmem : u ∈ pre ++ mid ++ post := by
    rcases mem_append.mp hu with hu | hu <;> simp [hu]
  have hinside := around.inside hmem
  -- a chunk that is linked is free, so it is not `u`
  have other : ∀ t ∈ pre ++ mid ++ post, t.tag = none → u.stop ≤ t.start ∨ t.stop ≤ u.start := by
    intro t ht hfree
    rcases around.tiled.apart hmem ht with rfl | hut | htu
    · simp [hfree] at hlive
    · exact .inl hut
    · exact .inr htu
  refine h x ?_ ?_ ?_
  · rcases mem_append.mp hu with hu | hu
    · have := (around.before.mem hu).2
      omega
    · have := (around.behind.mem hu).1
      omega
  · rcases around.link with rfl | ⟨t, ht, hfree, rfl⟩
    · simp only [addrOf]
      omega
    · have := around.inside (s := t) (by simp [ht])
      have := other t (by simp [ht]) hfree
      simp only [addrOf]
      omega
  · rcases nextFree_cases post with ⟨-, hzero⟩ | ⟨t, ht, hfree, -, hnext⟩
    · exact .inl hzero
    · have := around.inside (s := t) (by simp [ht])
      have := other t (by simp [ht]) hfree
      omega

theorem Behind.keepsUsable {mem' : Memory} {p : Link Nat} (inv : Inv r heap (pre ++ [s, t] ++ rest))
    (free : t.tag = none)
    (around : Around r heap.mem pre [s, t] rest s.start (s.start + s.len + t.len) p)
    (confined : Confined heap.mem mem' s.start (s.start + s.len + t.len) (addrOf r p) (nextFree rest))
    (own : ∀ x, s.start + sizeofAllocChunk ≤ x → x < s.stop → mem' x = heap.mem x) :
    KeepsUsable heap.mem mem' (pre ++ [s] ++ t :: rest) := by
  have hothers := confined.keepsUsable around
  intro u hu
  have hcases : u ∈ lives (pre ++ rest) ∨ u = s := by
    simp only [lives, mem_filter, mem_append, mem_cons, not_mem_nil,
      or_false] at hu ⊢
    obtain ⟨(hu | rfl) | rfl | hu, hlive⟩ := hu
    · exact .inl ⟨.inl hu, hlive⟩
    · exact .inr rfl
    · simp [free] at hlive
    · exact .inl ⟨.inr hu, hlive⟩
  rcases hcases with hu | rfl
  · exact hothers u hu
  · exact own

section
variable (inv : Inv r heap (pre ++ [s] ++ t :: rest)) (live : s.tag = some lenReq)
  (free : t.tag = none)
include inv live free

theorem execMemGrow_into (more : lenReq < lenReq') (size : lenReq' < 2 ^ 64)
    (enough : (pre ++ [s] ++ t :: rest).length < fuel) :
    execMemGrow r fuel heap (s.start + 16) lenReq' =
      if (s.start + grownLen s lenReq lenReq' - 1) % 2 ^ 64 > s.start + s.len + t.len - 1 then
        some (heap, -1)
      else if add64 (sub64 s.len (grownLen s lenReq lenReq' % 2 ^ 64)) t.len < minFreeChunkSize then
        some (⟨growWhole heap.mem s.start (s.start + s.len) lenReq', heap.nAllocations⟩, 0)
      else some (⟨growSplit heap.mem s.start (s.start + s.len)
        ((s.start + grownLen s lenReq lenReq' - 1) % 2 ^ 64) lenReq', heap.nAllocations⟩, 0) := by
  have hstop : s.stop = s.start + s.len := rfl
  have htouch := inv.nextFree_behind free
  have hloop := inv.behindLoop_eq live enough
  rw [htouch, if_pos rfl, hstop] at hloop
  have hstart : t.start = s.start + s.len := by
    rw [nextFree, frees_cons_free free] at htouch
    exact htouch
  have htinside := inv.inside (s := t) (by simp)
  have htlen := inv.free_len (s := t) (by simp) free
  rw [hstart] at htlen
  have hlast : add64 (s.start + s.len) (sub64 t.len 1) = s.start + s.len + t.len - 1 :=
    lastAddr_eq (by omega) (by omega)
  rw [execMemGrow_more inv live more size hloop, htlen, hlast, if_neg (by omega)]

theorem Inv.grown_whole (room : lenReq' + 24 ≤ s.len + t.len) :
    Grown r heap ⟨ExecMem.growWhole heap.mem s.start (s.start + s.len) lenReq', heap.nAllocations⟩
      pre s (t :: rest) lenReq' := by
  have inv' : Inv r heap (pre ++ [s, t] ++ rest) := by simpa using inv
  obtain ⟨p, around, behind, -⟩ := inv'.behind live free
  obtain ⟨hconfined, hown, -, -⟩ := growWhole_spec behind room
  have hinv := inv'.growWhole live free lenReq' room
  have hsize : sizeofAllocChunk = 16 := rfl
  refine ⟨t, rest, s.len + t.len, rfl, free, by omega, le_refl _, by omega, ?_,
    Behind.keepsUsable inv' free around hconfined hown⟩
  rw [leftover, if_pos rfl]
  exact hinv

theorem Inv.grown_split {n : Nat} (far : s.len + 16 ≤ n) (left : n + 24 ≤ s.len + t.len)
    (aligned : n % 8 = 0) (room : lenReq' + 24 ≤ n) :
    Grown r heap
      ⟨ExecMem.growSplit heap.mem s.start (s.start + s.len) (s.start + n - 1) lenReq',
        heap.nAllocations⟩ pre s (t :: rest) lenReq' := by
  have inv' : Inv r heap (pre ++ [s, t] ++ rest) := by simpa using inv
  obtain ⟨p, around, behind, -⟩ := inv'.behind live free
  have hlen : s.start + n - s.start = n := Nat.add_sub_cancel_left _ _
  have hrest : s.start + s.len + t.len - (s.start + n) = s.len + t.len - n := by omega
  have hfar : s.start + s.len + 16 ≤ s.start + n := by omega
  have hleft : s.start + n + 24 ≤ s.start + s.len + t.len := by omega
  obtain ⟨hconfined, hown, -, -, -⟩ := growSplit_spec behind hfar hleft
    (show lenReq' + 24 ≤ s.start + n - s.start by omega)
  have hinv := inv'.growSplit live free lenReq' hfar hleft (by omega) (by omega)
  rw [hlen, hrest] at hinv
  have hsize : sizeofAllocChunk = 16 := rfl
  refine ⟨t, rest, n, rfl, free, by omega, by omega, by omega, ?_,
    Behind.keepsUsable inv' free around hconfined hown⟩
  rw [leftover, if_neg (by omega)]
  exact hinv

end

section
variable (inv : Inv r heap (pre ++ [s] ++ post))
include inv

theorem execMemGrow_right (live : s.tag = some lenReq) (size : lenReq' < 2 ^ 64)
    (enough : (pre ++ [s] ++ post).length < fuel) (fits : GrowFits s post lenReq lenReq') :
    GrowsRight r fuel heap pre s post lenReq lenReq' := by
  have hinside := inv.inside (s := s) (by simp)
  by_cases more : lenReq < lenReq'
  · by_cases touch : nextFree post = s.stop
    · obtain ⟨t, rest, rfl, free⟩ := inv.behind_free touch
      obtain ⟨hend, hcover⟩ := fits more t rest rfl free
      have hinto := execMemGrow_into inv live free more size enough
      have htinside := inv.inside (s := t) (by simp)
      obtain ⟨-, -, hroom⟩ := inv.live_header (s := s) (by simp) live
      obtain ⟨hsaligned, -⟩ := inv.sizes s (by simp)
      obtain ⟨htaligned, htsize⟩ := inv.sizes t (by simp)
      have hmin : minFreeChunkSize = 24 := rfl
      have hgrown : grownLen s lenReq lenReq' % 8 = 0 ∧ s.len + (lenReq' - lenReq) ≤
          grownLen s lenReq lenReq' ∧ s.len + 8 ≤ grownLen s lenReq lenReq' := by
        rw [grownLen]
        omega
      generalize grownLen s lenReq lenReq' = n at hend hcover hinto hgrown
      have hgoal : (s.start + n - 1) % 2 ^ 64 = s.start + n - 1 := Nat.mod_eq_of_lt (by omega)
      have hwrap : n % 2 ^ 64 = n := Nat.mod_eq_of_lt (by omega)
      rw [hgoal, hwrap] at hinto
      by_cases hshort : s.start + n - 1 > s.start + s.len + t.len - 1
      · rw [if_pos hshort] at hinto
        exact ⟨heap, -1, hinto, .inl ⟨rfl, rfl⟩⟩
      · have hleft : add64 (sub64 s.len n) t.len = s.len + t.len - n := by
          rw [add64, sub64]
          omega
        rw [if_neg hshort, hleft] at hinto
        by_cases hwhole : s.len + t.len - n < minFreeChunkSize
        · rw [if_pos hwhole] at hinto
          exact ⟨_, 0, hinto, .inr (.inr ⟨rfl, more, inv.grown_whole live free (by omega)⟩)⟩
        · rw [if_neg hwhole] at hinto
          have hfar : s.len + 16 ≤ n := by omega
          exact ⟨_, 0, hinto, .inr (.inr ⟨rfl, more,
            inv.grown_split live free hfar (by omega) (by omega) (by omega)⟩)⟩
    · have hloop := inv.behindLoop_eq live enough
      rw [if_neg touch] at hloop
      refine ⟨heap, -1, ?_, .inl ⟨rfl, rfl⟩⟩
      exact (execMemGrow_more inv live more size hloop).trans (if_pos rfl)
  · have less : lenReq' ≤ lenReq := Nat.le_of_not_lt more
    exact ⟨heap, 0, execMemGrow_less inv live less, .inr (.inl ⟨rfl, less, rfl⟩)⟩

theorem growFits_growSize (asked : lenReq' ≤ lenReq ∨ lenReq' = lenReq + x86_64GrowSize) :
    GrowFits s post lenReq lenReq' := by
  intro more t rest hpost free
  have hinside := inv.inside (s := s) (by simp)
  have hsize : x86_64GrowSize = 32 := rfl
  have haligned := (inv.sizes s (by simp)).1
  have hgrown : grownLen s lenReq lenReq' = s.len + 32 := by
    rw [grownLen]
    omega
  exact ⟨by omega, by omega⟩

theorem execMemGrow_spec (live : s.tag = some lenReq)
    (asked : lenReq' ≤ lenReq ∨ lenReq' = lenReq + x86_64GrowSize)
    (enough : (pre ++ [s] ++ post).length < fuel) :
    (lenReq' ≤ lenReq ∧ execMemGrow r fuel heap (s.start + 16) lenReq' = some (heap, 0)) ∨
    (lenReq < lenReq' ∧ execMemGrow r fuel heap (s.start + 16) lenReq' = some (heap, -1)) ∨
    ∃ heap' chunks len, lenReq < lenReq' ∧
      execMemGrow r fuel heap (s.start + 16) lenReq' = some (heap', 0) ∧ Inv r heap' chunks ∧
      lives chunks = lives pre ++ ⟨s.start, len, some lenReq'⟩ :: lives post := by
  obtain ⟨-, -, hroom⟩ := inv.live_header (s := s) (by simp) live
  have hinside := inv.inside (s := s) (by simp)
  have hsize : x86_64GrowSize = 32 := rfl
  by_cases less : lenReq' ≤ lenReq
  · exact .inl ⟨less, execMemGrow_less inv live less⟩
  · have hfits := growFits_growSize inv asked
    obtain ⟨heap', ret, hgrow, ⟨rfl, rfl⟩ | ⟨-, hless, -⟩ | ⟨rfl, more, hgrown⟩⟩ :=
      execMemGrow_right inv live (by omega) enough hfits
    · exact .inr (.inl ⟨by omega, hgrow⟩)
    · exact absurd hless less
    · obtain ⟨t, rest, len, rfl, free, -, -, -, hinv, -⟩ := hgrown
      refine .inr (.inr ⟨heap', _, len, more, hgrow, hinv, ?_⟩)
      have hleft : lives (leftover s t len) = [] := by
        rw [leftover]
        split <;> simp [lives]
      simp only [lives] at hleft ⊢
      simp [hleft, free]

end

end Grow

end ExecMem
