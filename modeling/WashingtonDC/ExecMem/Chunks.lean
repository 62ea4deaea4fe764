import WashingtonDC.ExecMem
import WashingtonDC.IntrusiveList
import WashingtonDC.Tiling
import Mathlib.Data.List.Chain
import Mathlib.Algebra.Order.BigOperators.Group.List

/-!
# The chunks of the executable memory

The region is cut into chunks, each free or allocated. `Inv` relates them to the headers in
memory, and `Inv.edit` replaces neighbouring chunks by others over the same bytes: what it
asks of the new memory is only about the bytes of these chunks, one forward link and one
back link.
-/
namespace ExecMem

open ByteMemory IntrusiveList Tiling List

/-! ## Chunks -/

def ptr (v : Nat) : Option Nat := if v = 0 then none else some v

def addrOf (r : Region) : Link Nat → Nat
  | .head => r.freeMem
  | .next a => a

def linkOf (r : Region) (v : Nat) : Link Nat := if v = r.freeMem then .head else .next v

def view (r : Region) (mem : Memory) : Links Nat where
  head := ptr (load64 mem r.freeMem)
  next a := ptr (nextOf mem a)
  pprev a := some (linkOf r (pprevOf mem a))

theorem view_get (r : Region) (mem : Memory) (p : Link Nat) :
    (view r mem).get p = ptr (load64 mem (addrOf r p)) := by
  cases p <;> simp only [view, Links.get, addrOf, nextOf]

theorem view_pprev (r : Region) (mem : Memory) (a : Nat) :
    (view r mem).pprev a = some (linkOf r (pprevOf mem a)) := rfl

theorem addrOf_linkOf (r : Region) (v : Nat) : addrOf r (linkOf r v) = v := by
  by_cases h : v = r.freeMem <;> simp [linkOf, h, addrOf]

/-- A chunk is free, or allocated with the length that was requested. -/
abbrev Chunk := Seg (Option Nat)

def frees (chunks : List Chunk) : List Nat :=
  (chunks.filter fun s => s.tag.isNone).map Seg.start

theorem frees_append (xs ys : List Chunk) : frees (xs ++ ys) = frees xs ++ frees ys := by
  simp [frees]

theorem mem_frees {xs : List Chunk} {a : Nat} :
    a ∈ frees xs ↔ ∃ s ∈ xs, s.tag = none ∧ s.start = a := by
  simp [frees, and_assoc]

def lives (chunks : List Chunk) : List Chunk := chunks.filter fun s => s.tag.isSome

def Header (mem : Memory) (s : Chunk) : Prop :=
  match s.tag with
  | none => lenOf mem s.start = s.len
  | some lenReq => allocLenOf mem s.start = s.len ∧ allocLenReqOf mem s.start = lenReq ∧
      lenReq + sizeofAllocChunk + 8 ≤ s.len

structure Inv (r : Region) (heap : Heap) (chunks : List Chunk) : Prop where
  tiled : Tiled r.native chunks (r.native + x86_64AllocSize)
  sizes : ∀ s ∈ chunks, s.len % 8 = 0 ∧ minFreeChunkSize ≤ s.len
  merged : chunks.IsChain fun s t => ¬(s.tag = none ∧ t.tag = none)
  headers : ∀ s ∈ chunks, Header heap.mem s
  spells : Spells (view r heap.mem) (frees chunks)
  count : heap.nAllocations = chunks.countP fun s => s.tag.isSome

def nextFree (chunks : List Chunk) : Nat := (frees chunks).head?.getD 0

/-- The links from the address `link` through the free chunks `as` to the chunk `next`. -/
def Threads (mem : Memory) : Nat → List Nat → Nat → Prop
  | link, [], next => load64 mem link = next ∧ (next ≠ 0 → pprevOf mem next = link)
  | link, a :: rest, next =>
    load64 mem link = a ∧ pprevOf mem a = link ∧ Threads mem a rest next

section Edit

variable {r : Region} {mem mem' : Memory} {pre mid mid' post : List Chunk} {b e : Nat}
  {p : Link Nat}

variable {as : List Nat} {s : Chunk} {heap : Heap}

theorem threads_of_path {l : Link Nat} {next : Nat} (path : Path (view r mem) p as l)
    (forward : load64 mem (addrOf r l) = next) (backward : next ≠ 0 → pprevOf mem next = addrOf r l) :
    Threads mem (addrOf r p) as next := by
  induction as generalizing p with
  | nil =>
    obtain rfl : p = l := path
    exact ⟨forward, backward⟩
  | cons a rest ih =>
    obtain ⟨hget, hback, hrest⟩ := path
    refine ⟨?_, ?_, ih hrest⟩
    · rw [view_get, ptr] at hget
      split at hget
      · cases hget
      · exact Option.some.inj hget
    · have hlink : linkOf r (pprevOf mem a) = p := Option.some.inj hback
      rw [← hlink, addrOf_linkOf]

theorem Threads.path {next : Nat} (proper : linkOf r (addrOf r p) = p)
    (chunks : ∀ a ∈ as, a ≠ 0 ∧ a ≠ r.freeMem) (threads : Threads mem (addrOf r p) as next) :
    ∃ l, Path (view r mem) p as l ∧ (view r mem).get l = ptr next ∧
      (next ≠ 0 → (view r mem).pprev next = some l) := by
  induction as generalizing p with
  | nil =>
    obtain ⟨forward, backward⟩ := threads
    refine ⟨p, rfl, by rw [view_get, forward], fun hnext => ?_⟩
    rw [view_pprev, backward hnext, proper]
  | cons a rest ih =>
    obtain ⟨forward, backward, hrest⟩ := threads
    obtain ⟨hzero, hne⟩ := chunks a mem_cons_self
    have hproper : linkOf r (addrOf r (.next a)) = .next a := if_neg hne
    obtain ⟨l, hpath, hget, hback⟩ := ih hproper
      (fun x hx => chunks x (mem_cons_of_mem a hx)) hrest
    refine ⟨l, ⟨?_, ?_, hpath⟩, hget, hback⟩
    · rw [view_get, forward]
      exact if_neg hzero
    · rw [view_pprev, backward, proper]

/-- Where a change of the chunks between `b` and `e` may write: into these chunks, to the
link at `link` that points at the first of them that is free, and to the back link of the
free chunk `next` behind them. -/
def Confined (mem mem' : Memory) (b e link next : Nat) : Prop :=
  ∀ x, (x < b ∨ e ≤ x) → (x < link ∨ link + 8 ≤ x) → (next = 0 ∨ x < next + 8 ∨ next + 16 ≤ x) →
    mem' x = mem x

/-- The chunks `mid` lie between `b` and `e`, and `p` is the link to the first free one. -/
structure Around (r : Region) (mem : Memory) (pre mid post : List Chunk) (b e : Nat)
    (p : Link Nat) : Prop where
  before : Tiled r.native pre b
  inner : Tiled b mid e
  behind : Tiled e post (r.native + x86_64AllocSize)
  sizes : ∀ s ∈ pre ++ mid ++ post, s.len % 8 = 0 ∧ minFreeChunkSize ≤ s.len
  reached : Path (view r mem) .head (frees pre) p

section
variable (h : Around r mem pre mid post b e p)
include h

theorem Around.link : p = .head ∨ ∃ s ∈ pre, s.tag = none ∧ p = .next s.start := by
  rcases path_end h.reached with rfl | ⟨a, ha, rfl⟩
  · exact .inl rfl
  · obtain ⟨s, hs, htag, rfl⟩ := mem_frees.mp ha
    exact .inr ⟨s, hs, htag, rfl⟩

theorem Around.tiled : Tiled r.native (pre ++ mid ++ post) (r.native + x86_64AllocSize) :=
  tiled_append.mpr ⟨e, tiled_append.mpr ⟨b, h.before, h.inner⟩, h.behind⟩

theorem Around.bounds : r.native ≤ b ∧ b ≤ e ∧ e ≤ r.native + x86_64AllocSize :=
  ⟨Nat.le.intro h.before.sum, Nat.le.intro h.inner.sum, Nat.le.intro h.behind.sum⟩

theorem Around.inside (hs : s ∈ pre ++ mid ++ post) :
    s.start + 24 ≤ s.stop ∧ s.stop ≤ r.native + x86_64AllocSize ∧ r.native ≤ s.start ∧
      (r.freeMem + 8 ≤ s.start ∨ s.stop ≤ r.freeMem) ∧ s.stop = s.start + s.len ∧
      0 < r.native ∧ r.native + x86_64AllocSize ≤ 2 ^ 47 := by
  obtain ⟨hfirst, hlast⟩ := h.tiled.mem hs
  have hsize : 24 ≤ s.len := (h.sizes s hs).2
  have hstop : s.stop = s.start + s.len := rfl
  have hapart := r.apart
  have hpos := r.pos
  have hfits := r.fits
  omega

theorem Around.start_inj {t : Chunk} (hs : s ∈ pre ++ mid ++ post) (ht : t ∈ pre ++ mid ++ post)
    (same : s.start = t.start) :
    s = t := by
  have hsize := h.inside hs
  have htsize := h.inside ht
  rcases h.tiled.apart hs ht with heq | hst | hts
  · exact heq
  · omega
  · omega

theorem Around.link_apart :
    (addrOf r p + 8 ≤ b ∨ r.native + x86_64AllocSize ≤ addrOf r p) ∧ addrOf r p < 2 ^ 64 := by
  have hbounds := h.bounds
  rcases h.link with rfl | ⟨s, hs, -, rfl⟩
  · have := r.apart
    have := r.freeMem_lt
    simp only [addrOf]
    omega
  · have := h.inside (s := s) (by simp [hs])
    have := h.before.mem hs
    simp only [addrOf]
    omega

theorem Around.proper : linkOf r (addrOf r p) = p := by
  rcases h.link with rfl | ⟨s, hs, -, rfl⟩
  · simp [addrOf, linkOf]
  · have := h.inside (s := s) (by simp [hs])
    exact if_neg (by simp only [addrOf]; omega)

end

theorem nextFree_cases (chunks : List Chunk) :
    (frees chunks).head? = none ∧ nextFree chunks = 0 ∨
      ∃ s ∈ chunks, s.tag = none ∧ (frees chunks).head? = some s.start ∧
        nextFree chunks = s.start := by
  cases hhead : (frees chunks).head? with
  | none => exact .inl ⟨rfl, by simp [nextFree, hhead]⟩
  | some a =>
    obtain ⟨s, hs, htag, rfl⟩ := mem_frees.mp (mem_of_mem_head? hhead)
    exact .inr ⟨s, hs, htag, rfl, by simp [nextFree, hhead]⟩

theorem Around.nextFree_apart (h : Around r mem pre mid post b e p) :
    nextFree post = 0 ∨
      e ≤ nextFree post ∧ nextFree post + 24 ≤ r.native + x86_64AllocSize := by
  rcases nextFree_cases post with ⟨-, hzero⟩ | ⟨s, hs, -, -, hnext⟩
  · exact .inl hzero
  · have := h.inside (s := s) (by simp [hs])
    have := h.behind.mem hs
    omega

theorem Around.head?_eq (h : Around r mem pre mid post b e p) :
    (frees post).head? = ptr (nextFree post) := by
  rcases nextFree_cases post with ⟨hhead, hzero⟩ | ⟨s, hs, -, hhead, hnext⟩
  · rw [hhead, hzero, ptr, if_pos rfl]
  · have := h.inside (s := s) (by simp [hs])
    rw [hhead, hnext, ptr, if_neg (by omega)]

theorem Confined.word (h : Confined mem mem' b e (addrOf r p) (nextFree post))
    (around : Around r mem pre mid post b e p) (hs : s ∈ pre ++ post) {i : Nat}
    (word : i = 0 ∨ i = 8 ∨ i = 16) (notLink : i = 0 → addrOf r p ≠ s.start)
    (notBack : i = 8 → nextFree post ≠ s.start) :
    load64 mem' (s.start + i) = load64 mem (s.start + i) := by
  have hmem : s ∈ pre ++ mid ++ post := by
    rcases mem_append.mp hs with hs | hs <;> simp [hs]
  have hsize := around.inside hmem
  refine load64_congr fun x hx hx' => h x ?_ ?_ ?_
  · rcases mem_append.mp hs with hs | hs
    · have := (around.before.mem hs).2
      omega
    · have := (around.behind.mem hs).1
      omega
  · rcases around.link with rfl | ⟨t, ht, -, rfl⟩
    · simp only [addrOf]
      omega
    · simp only [addrOf] at notLink ⊢
      have hother : t ∈ pre ++ mid ++ post := by simp [ht]
      have htsize := around.inside hother
      rcases around.tiled.apart hmem hother with rfl | hst
      · have hi : i ≠ 0 := fun hi => notLink hi rfl
        omega
      · omega
  · rcases nextFree_cases post with ⟨-, hzero⟩ | ⟨t, ht, -, -, hnext⟩
    · exact .inl hzero
    · have hother : t ∈ pre ++ mid ++ post := by simp [ht]
      have htsize := around.inside hother
      rw [hnext] at notBack ⊢
      rcases around.tiled.apart hmem hother with rfl | hst
      · have hi : i ≠ 8 := fun hi => notBack hi rfl
        omega
      · omega

theorem Around.addrOf_ne (h : Around r mem pre mid post b e p) (hs : s ∈ pre ++ mid ++ post)
    (other : p = .next s.start → s.tag ≠ none) :
    addrOf r p ≠ s.start := by
  rcases h.link with rfl | ⟨t, ht, htag, rfl⟩
  · have := h.inside hs
    simp only [addrOf]
    omega
  · intro heq
    obtain rfl : t = s := h.start_inj (by simp [ht]) hs heq
    exact other rfl htag

theorem Confined.header (h : Confined mem mem' b e (addrOf r p) (nextFree post))
    (around : Around r mem pre mid post b e p) (hs : s ∈ pre ++ post) (header : Header mem s) :
    Header mem' s := by
  have hmem : s ∈ pre ++ mid ++ post := by
    rcases mem_append.mp hs with hs | hs <;> simp [hs]
  cases htag : s.tag with
  | none =>
    simp only [Header, htag, lenOf] at header ⊢
    rw [h.word around hs (i := 16) (by simp) (by simp) (by simp)]
    exact header
  | some lenReq =>
    have notLink : addrOf r p ≠ s.start := around.addrOf_ne hmem fun _ => by simp [htag]
    have notBack : nextFree post ≠ s.start := by
      have hinside := around.inside hmem
      rcases nextFree_cases post with ⟨-, hzero⟩ | ⟨t, ht, hfree, -, hnext⟩
      · omega
      · intro heq
        obtain rfl : t = s := around.start_inj (by simp [ht]) hmem (hnext.symm.trans heq)
        rw [htag] at hfree
        cases hfree
    simp only [Header, htag, allocLenOf, allocLenReqOf] at header ⊢
    have hlen : load64 mem' s.start = load64 mem s.start :=
      h.word around hs (i := 0) (by simp) (fun _ => notLink) (by simp)
    rw [hlen, h.word around hs (i := 8) (by simp) (by simp) (fun _ => notBack)]
    exact header

theorem Confined.edited (h : Confined mem mem' b e (addrOf r p) (nextFree post))
    (around : Around r mem pre mid post b e p) :
    Edited (view r mem) (view r mem') p (frees pre) (frees post) := by
  have hstart : ∀ a ∈ frees pre ++ frees post, ∃ s ∈ pre ++ post, s.start = a := by
    intro a ha
    rw [← frees_append] at ha
    obtain ⟨s, hs, -, hstart⟩ := mem_frees.mp ha
    exact ⟨s, hs, hstart⟩
  refine ⟨?_, ?_⟩
  · rintro q hq (rfl | ⟨a, ha, rfl⟩)
    · rw [view_get, view_get]
      refine congrArg ptr (load64_congr fun x hx hx' => ?_)
      have hapart := r.apart
      have hbounds := around.bounds
      have hnext := around.nextFree_apart
      simp only [addrOf] at hx hx'
      refine h x (by omega) ?_ (by omega)
      rcases around.link with rfl | ⟨t, ht, -, rfl⟩
      · exact absurd rfl hq
      · have := around.inside (s := t) (by simp [ht])
        simp only [addrOf]
        omega
    · obtain ⟨s, hs, rfl⟩ := hstart a ha
      have hmem : s ∈ pre ++ mid ++ post := by
        rcases mem_append.mp hs with hs | hs <;> simp [hs]
      rw [view_get, view_get]
      refine congrArg ptr (h.word around hs (i := 0) (by simp) (fun _ => ?_) (by simp))
      exact around.addrOf_ne hmem fun heq => absurd heq.symm hq
  · intro a ha hhead
    obtain ⟨s, hs, rfl⟩ := hstart a ha
    have hmem : s ∈ pre ++ mid ++ post := by
      rcases mem_append.mp hs with hs | hs <;> simp [hs]
    have notBack : nextFree post ≠ s.start := by
      intro heq
      rw [around.head?_eq, heq, ptr, if_neg] at hhead
      · exact hhead rfl
      · have := around.inside hmem
        omega
    have hword := h.word around hs (i := 8) (by simp) (by simp) (fun _ => notBack)
    rw [view_pprev, view_pprev, pprevOf, pprevOf, hword]

theorem frees_sublist (chunks : List Chunk) :
    (frees chunks).Sublist (chunks.map Seg.start) :=
  filter_sublist.map _

theorem tiled_frees_nodup {chunks : List Chunk} (tiled : Tiled b chunks e)
    (sizes : ∀ s ∈ chunks, s.len % 8 = 0 ∧ minFreeChunkSize ≤ s.len) : (frees chunks).Nodup := by
  have hlt := tiled.starts_lt fun s hs =>
    lt_of_lt_of_le (show 0 < minFreeChunkSize by decide) (sizes s hs).2
  refine Nodup.sublist (frees_sublist chunks) ?_
  exact (pairwise_map.mpr hlt).imp ne_of_lt

theorem Inv.edit {n : Nat} (inv : Inv r heap (pre ++ mid ++ post))
    (around : Around r heap.mem pre mid post b e p)
    (confined : Confined heap.mem mem' b e (addrOf r p) (nextFree post)) (inner : Tiled b mid' e)
    (sizes : ∀ s ∈ mid', s.len % 8 = 0 ∧ minFreeChunkSize ≤ s.len)
    (merged : (pre ++ mid' ++ post).IsChain fun s t => ¬(s.tag = none ∧ t.tag = none))
    (headers : ∀ s ∈ mid', Header mem' s)
    (threads : Threads mem' (addrOf r p) (frees mid') (nextFree post))
    (count : n + mid.countP (fun s => s.tag.isSome) = heap.nAllocations + mid'.countP fun s => s.tag.isSome) :
    Inv r ⟨mem', n⟩ (pre ++ mid' ++ post) := by
  have hsizes : ∀ s ∈ pre ++ mid' ++ post, s.len % 8 = 0 ∧ minFreeChunkSize ≤ s.len := by
    intro s hs
    simp only [mem_append] at hs
    rcases hs with (hs | hs) | hs
    · exact inv.sizes s (by simp [hs])
    · exact sizes s hs
    · exact inv.sizes s (by simp [hs])
  have around' : Around r heap.mem pre mid' post b e p :=
    ⟨around.before, inner, around.behind, hsizes, around.reached⟩
  refine ⟨around'.tiled, hsizes, merged, ?_, ?_, ?_⟩
  · intro s hs
    simp only [mem_append] at hs
    rcases hs with (hs | hs) | hs
    · exact confined.header around (by simp [hs]) (inv.headers s (by simp [hs]))
    · exact headers s hs
    · exact confined.header around (by simp [hs]) (inv.headers s (by simp [hs]))
  · have hspells := inv.spells
    have hchunks : ∀ a ∈ frees mid', a ≠ 0 ∧ a ≠ r.freeMem := by
      intro a ha
      obtain ⟨s, hs, -, rfl⟩ := mem_frees.mp ha
      have := around'.inside (s := s) (by simp [hs])
      omega
    obtain ⟨l, middle, forward, backward⟩ := threads.path around.proper hchunks
    rw [frees_append, frees_append] at hspells ⊢
    refine spells_splice hspells (confined.edited around) around.reached ?_ middle ?_ ?_
    · rw [← frees_append, ← frees_append]
      exact tiled_frees_nodup around'.tiled hsizes
    · rw [forward, around.head?_eq]
    · intro a ha
      have hnext : nextFree post = a := by simp [nextFree, ha]
      rw [hnext] at backward
      refine backward fun hzero => ?_
      rw [around.head?_eq, hnext, hzero] at ha
      cases ha
  · have hcount := inv.count
    simp only [countP_append] at hcount ⊢
    omega

theorem Inv.around (inv : Inv r heap (pre ++ mid ++ post)) :
    ∃ b e p, Around r heap.mem pre mid post b e p ∧
      Threads heap.mem (addrOf r p) (frees mid) (nextFree post) := by
  obtain ⟨e, htiled, behind⟩ := tiled_append.mp inv.tiled
  obtain ⟨b, before, inner⟩ := tiled_append.mp htiled
  have hspells := inv.spells
  rw [frees_append, frees_append, append_assoc] at hspells
  obtain ⟨p, q, hpre, hrest, hq, -⟩ := hspells.split
  obtain ⟨l, hmid, hpost⟩ := path_append.mp hrest
  have around : Around r heap.mem pre mid post b e p := ⟨before, inner, behind, inv.sizes, hpre⟩
  have hforward := path_get hpost hq
  refine ⟨b, e, p, around, threads_of_path hmid ?_ ?_⟩
  · rw [around.head?_eq, view_get] at hforward
    simp only [ptr] at hforward
    split at hforward <;> split at hforward <;> simp_all
  · intro hne
    rcases nextFree_cases post with ⟨-, hzero⟩ | ⟨s, hs, -, hhead, hnext⟩
    · exact absurd hzero hne
    · cases hfrees : frees post with
      | nil => simp [hfrees] at hhead
      | cons a rest =>
        rw [hfrees] at hpost hhead
        obtain rfl : a = s.start := by simpa using hhead
        have hlink : linkOf r (pprevOf heap.mem s.start) = l := Option.some.inj hpost.2.1
        rw [hnext, ← hlink, addrOf_linkOf]

end Edit

/-! ## Arithmetic and field writes -/

theorem add64_eq {a b : Nat} (h : a + b < 2 ^ 64) : add64 a b = a + b := Nat.mod_eq_of_lt h

theorem sub64_eq {a b : Nat} (h : b ≤ a) (fits : a < 2 ^ 64) : sub64 a b = a - b := by
  simp only [sub64]
  omega

theorem alignLoop_eq {fuel n : Nat} (enough : 7 < fuel + n % 8 ∨ n % 8 = 0) (fits : n + 7 < 2 ^ 64) :
    alignLoop fuel n = (n + 7) / 8 * 8 := by
  induction fuel generalizing n with
  | zero =>
    simp only [alignLoop]
    omega
  | succ fuel ih =>
    simp only [alignLoop]
    split
    · omega
    · rw [add64_eq (by omega), ih (by omega) (by omega)]
      omega

theorem align8_eq {n : Nat} (fits : n + 7 < 2 ^ 64) : align8 n = (n + 7) / 8 * 8 :=
  alignLoop_eq (by omega) fits

theorem alignLoop_wrap {fuel n : Nat} (enough : 2 ^ 64 ≤ fuel + n) (fits : n < 2 ^ 64)
    (wraps : 2 ^ 64 ≤ n + 7) : alignLoop fuel n = 0 := by
  induction fuel generalizing n with
  | zero => omega
  | succ fuel ih =>
    rw [alignLoop, if_neg (by omega)]
    by_cases hlast : n = 2 ^ 64 - 1
    · subst hlast
      cases fuel <;> rfl
    · rw [add64_eq (by omega)]
      exact ih (by omega) (by omega) (by omega)

theorem align8_mod {n : Nat} (fits : n < 2 ^ 64) : align8 n = (n + 7) / 8 * 8 % 2 ^ 64 := by
  by_cases wraps : n + 7 < 2 ^ 64
  · rw [align8_eq wraps]
    omega
  · rw [align8, alignLoop_wrap (by omega) fits (by omega)]
    omega

theorem setPprevOf_outside (mem : Memory) {next link x : Nat}
    (outside : next = 0 ∨ x < next + 8 ∨ next + 16 ≤ x) : setPprevOf mem next link x = mem x := by
  simp only [setPprevOf, setPprev]
  split
  · exact store64_outside mem (by omega)
  · rfl

theorem load64_setPprevOf_ne (mem : Memory) {next link a : Nat}
    (apart : next = 0 ∨ a + 8 ≤ next + 8 ∨ next + 16 ≤ a) :
    load64 (setPprevOf mem next link) a = load64 mem a :=
  load64_congr fun _ hx hx' => setPprevOf_outside mem (by omega)

theorem load64_setPprevOf_same (mem : Memory) {next link : Nat} (here : next ≠ 0)
    (fits : link < 2 ^ 64) : load64 (setPprevOf mem next link) (next + 8) = link := by
  rw [setPprevOf, if_pos here]
  exact load64_store64_same mem _ fits

/-- The numbers in an edit: the link and the next free chunk are outside of it. -/
structure Margins (r : Region) (b e link next : Nat) : Prop where
  first : r.native ≤ b
  last : e ≤ r.native + x86_64AllocSize
  linkApart : link + 8 ≤ b ∨ r.native + x86_64AllocSize ≤ link
  linkFits : link < 2 ^ 64
  nextApart : next = 0 ∨ e ≤ next ∧ next + 24 ≤ r.native + x86_64AllocSize

theorem Around.margins {r : Region} {mem : Memory} {pre mid post : List Chunk} {b e : Nat}
    {p : Link Nat} (h : Around r mem pre mid post b e p) :
    Margins r b e (addrOf r p) (nextFree post) :=
  ⟨h.bounds.1, h.bounds.2.2, h.link_apart.1, h.link_apart.2, h.nextFree_apart⟩

section Remove

variable {r : Region} {mem : Memory} {a e link next : Nat}

section
variable (margins : Margins r a e link next) (size : a + 24 ≤ e) (back : pprevOf mem a = link)
  (forward : nextOf mem a = next)
include margins size back forward

theorem removeChunk_eq :
    removeChunk mem a = store64 (setPprevOf mem next link) link next := by
  obtain ⟨hfirst, hlast, hlink, -, hnext⟩ := margins
  have hback : pprevOf (setPprevOf mem next link) a = link := by
    rw [pprevOf, load64_setPprevOf_ne _ (by omega)]
    exact back
  have hforward : nextOf (setPprevOf mem next link) a = next := by
    rw [nextOf, load64_setPprevOf_ne _ (by omega)]
    exact forward
  simp only [removeChunk, back, forward, hback, hforward]

theorem removeChunk_confined : Confined mem (removeChunk mem a) a e link next := by
  rw [removeChunk_eq margins size back forward]
  intro x hx hlink hnext
  rw [store64_outside _ hlink, setPprevOf_outside _ hnext]

theorem removeChunk_threads : Threads (removeChunk mem a) link [] next := by
  rw [removeChunk_eq margins size back forward]
  obtain ⟨hfirst, hlast, hlink, hlinkFits, hnext⟩ := margins
  have hfits := r.fits
  refine ⟨load64_store64_same _ _ (by omega), fun hne => ?_⟩
  rw [pprevOf, load64_store64_ne _ (by omega), load64_setPprevOf_same _ hne hlinkFits]

end

end Remove

section Facts

variable {r : Region} {mem : Memory} {link next : Nat} {heap : Heap} {chunks : List Chunk}
  {s : Chunk}

variable {as : List Nat} {a : Nat}

theorem Threads.outside {mem' : Memory} {lo hi : Nat}
    (same : ∀ x, x < lo ∨ hi ≤ x → mem' x = mem x) (hlink : link + 8 ≤ lo ∨ hi ≤ link)
    (has : ∀ a ∈ as, a + 24 ≤ lo ∨ hi ≤ a) (hnext : next = 0 ∨ next + 24 ≤ lo ∨ hi ≤ next)
    (threads : Threads mem link as next) : Threads mem' link as next := by
  have word : ∀ a, a + 8 ≤ lo ∨ hi ≤ a → load64 mem' a = load64 mem a :=
    fun a ha => load64_congr fun x hx hx' => same x (by omega)
  induction as generalizing link with
  | nil =>
    obtain ⟨forward, backward⟩ := threads
    refine ⟨(word link hlink).trans forward, fun hne => ?_⟩
    rw [pprevOf, word _ (by omega)]
    exact backward hne
  | cons a rest ih =>
    obtain ⟨forward, backward, hrest⟩ := threads
    have ha := has a mem_cons_self
    refine ⟨(word link hlink).trans forward, ?_, ?_⟩
    · rw [pprevOf, word _ (by omega)]
      exact backward
    · exact ih (by omega) (fun x hx => has x (mem_cons_of_mem a hx)) hrest

theorem isChain_middle {α : Type} {R : α → α → Prop} {xs ms ys : List α} {m : α} :
    (xs ++ m :: ms ++ ys).IsChain R ↔ xs.IsChain R ∧ (m :: ms).IsChain R ∧ ys.IsChain R ∧
      (∀ x ∈ xs.getLast?, R x m) ∧ ∀ x ∈ (m :: ms).getLast?, ∀ y ∈ ys.head?, R x y := by
  have hlast : (xs ++ m :: ms).getLast? = (m :: ms).getLast? := by
    simp [getLast?_append, getLast?_cons]
  rw [isChain_append, isChain_append, hlast]
  simp only [head?_cons, Option.mem_some_iff, forall_eq']
  tauto

theorem Inv.threads (inv : Inv r heap chunks) : Threads heap.mem r.freeMem (frees chunks) 0 := by
  have hinv : Inv r heap ([] ++ chunks ++ []) := by simpa using inv
  obtain ⟨b, e, p, around, threads⟩ := hinv.around
  obtain rfl : Link.head = p := around.reached
  exact threads

theorem Inv.inside (inv : Inv r heap chunks) (hs : s ∈ chunks) :
    s.start + 24 ≤ s.stop ∧ s.stop ≤ r.native + x86_64AllocSize ∧ r.native ≤ s.start ∧
      (r.freeMem + 8 ≤ s.start ∨ s.stop ≤ r.freeMem) ∧ s.stop = s.start + s.len ∧
      0 < r.native ∧ r.native + x86_64AllocSize ≤ 2 ^ 47 := by
  have hinv : Inv r heap ([] ++ chunks ++ []) := by simpa using inv
  obtain ⟨b, e, p, around, -⟩ := hinv.around
  exact around.inside (by simpa using hs)

theorem Inv.frees_ne (inv : Inv r heap chunks) (ha : a ∈ frees chunks) : a ≠ 0 := by
  obtain ⟨s, hs, -, rfl⟩ := mem_frees.mp ha
  have := inv.inside hs
  omega

theorem frees_length_le (chunks : List Chunk) : (frees chunks).length ≤ chunks.length :=
  (frees_sublist chunks).length_le.trans_eq (length_map _)

theorem exists_of_mem_frees (ha : a ∈ frees chunks) :
    ∃ pre s post, chunks = pre ++ [s] ++ post ∧ s.tag = none ∧ s.start = a := by
  obtain ⟨s, hs, htag, hstart⟩ := mem_frees.mp ha
  obtain ⟨pre, post, rfl⟩ := append_of_mem hs
  exact ⟨pre, s, post, by simp, htag, hstart⟩

theorem Inv.count_le (inv : Inv r heap chunks) : heap.nAllocations ≤ x86_64AllocSize := by
  have hsum := inv.tiled.sum
  have hlen : chunks.length ≤ (chunks.map Seg.len).sum := by
    rw [← length_map (f := Seg.len)]
    refine length_le_sum_of_one_le _ fun n hn => ?_
    obtain ⟨s, hs, rfl⟩ := mem_map.mp hn
    have := (inv.sizes s hs).2
    simp only [minFreeChunkSize, sizeofFreeChunk] at this
    omega
  have hcount : chunks.countP (fun s => s.tag.isSome) ≤ chunks.length := countP_le_length
  rw [inv.count]
  omega

theorem Inv.start_aligned (inv : Inv r heap chunks) (hs : s ∈ chunks) : s.start % 8 = 0 :=
  (inv.tiled.mod (fun t ht => (inv.sizes t ht).1) hs).trans r.aligned

theorem lastAddr_eq {l : Nat} (size : 0 < l) (fits : a + l < 2 ^ 64) :
    add64 a (sub64 l 1) = a + l - 1 := by
  rw [sub64_eq (by omega) (by omega), add64_eq (by omega)]
  omega

theorem getAllocStart_eq (fits : a + 16 < 2 ^ 64) : getAllocStart (a + 16) = a := by
  have halign : align8 sizeofAllocChunk = 16 := by decide
  rw [getAllocStart, halign, sub64_eq (by omega) fits]
  omega

theorem Inv.live_header {lenReq : Nat} (inv : Inv r heap chunks) (hs : s ∈ chunks)
    (live : s.tag = some lenReq) :
    allocLenOf heap.mem s.start = s.len ∧ allocLenReqOf heap.mem s.start = lenReq ∧
      lenReq + 24 ≤ s.len := by
  have := inv.headers s hs
  simpa only [Header, live, sizeofAllocChunk, add_assoc, Nat.reduceAdd] using this

theorem Inv.free_len (inv : Inv r heap chunks) (hs : s ∈ chunks)
    (free : s.tag = none) : lenOf heap.mem s.start = s.len := by
  have := inv.headers s hs
  simpa only [Header, free] using this

theorem Threads.load_eq (threads : Threads mem link (a :: as) next) :
    load64 mem link = a := threads.1

theorem frees_nil_iff : frees chunks = [] ↔ ∀ s ∈ chunks, s.tag ≠ none := by
  rw [eq_nil_iff_forall_not_mem]
  exact ⟨fun h s hs htag => h s.start (mem_frees.mpr ⟨s, hs, htag, rfl⟩),
    fun h a ha => by
      obtain ⟨s, hs, htag, -⟩ := mem_frees.mp ha
      exact h s hs htag⟩

theorem frees_cons_free (free : s.tag = none) (chunks : List Chunk) :
    frees (s :: chunks) = s.start :: frees chunks := by
  simp [frees, free]

theorem frees_cons_live (live : s.tag ≠ none) (chunks : List Chunk) :
    frees (s :: chunks) = frees chunks := by
  simp [frees, Option.isNone_iff_eq_none, live]

theorem Around.behind_cases {mid : List Chunk} {b e : Nat} {p : Link Nat}
    (h : Around r mem pre mid post b e p) : (∃ t rest, post = t :: rest ∧ t.tag = none) ∨
      (∀ x ∈ post.head?, x.tag ≠ none) ∧ (nextFree post = 0 ∨ e < nextFree post) := by
  cases post with
  | nil => exact .inr ⟨by simp, .inl rfl⟩
  | cons x rest =>
    by_cases hx : x.tag = none
    · exact .inl ⟨x, rest, rfl, hx⟩
    · refine .inr ⟨by simpa using hx, ?_⟩
      rcases nextFree_cases (x :: rest) with ⟨-, hzero⟩ | ⟨t, ht, hfree, -, hnext⟩
      · exact .inl hzero
      · obtain rfl | ht := mem_cons.mp ht
        · exact absurd hfree hx
        · have := h.inside (s := x) (by simp)
          have := h.behind.stop_le ht
          have := h.behind.1
          omega

end Facts

end ExecMem
