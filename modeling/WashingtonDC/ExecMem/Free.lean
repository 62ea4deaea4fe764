import WashingtonDC.ExecMem.Chunks

/-!
# Freeing executable memory

A freed chunk is merged with the free chunks that it touches. The memory lemmas say that the
merged chunk is linked in where the chunks that it replaces were, first with what is free in
front of it and then with what is free behind it.
-/
namespace ExecMem

open ByteMemory IntrusiveList Tiling List

/-- The free chunk `c` of length `l` takes the place of what was between `b` and `e`. -/
structure Released (mem mem' : Memory) (b e link next c l : Nat) : Prop where
  confined : Confined mem mem' b e link next
  threads : Threads mem' link [c] next
  len : lenOf mem' c = l

/-- The free chunk `c` of length `l` is linked in, but not yet with what is free behind it. -/
structure Stored (mem mem' : Memory) (c l link : Nat) : Prop where
  confined : Confined mem mem' c (c + l) link 0
  forward : load64 mem' link = c
  back : pprevOf mem' c = link
  len : lenOf mem' c = l

/-- The chunk `c` of length `l` is released when the next free chunk is `n`, which it may touch. -/
structure Releases (r : Region) (mem mem' : Memory) (c l link n : Nat) : Prop where
  apart : n = 0 ∨ c + l < n → Margins r c (c + l) link n →
    Released mem mem' c (c + l) link n c l
  touch : ∀ lt next, n = c + l → Margins r c (c + l + lt) link next → 24 ≤ lt →
    nextOf mem (c + l) = next → lenOf mem (c + l) = lt →
      Released mem mem' c (c + l + lt) link next c (l + lt)

section Memory

variable {r : Region} {mem mem' : Memory} {a c l link n next pre lp lt : Nat}

theorem freeOnly_released (margins : Margins r a (a + l) r.freeMem 0) (size : 24 ≤ l) :
    Released mem (freeOnly r (fill mem a 24 0) a l) a (a + l) r.freeMem 0 a l := by
  obtain ⟨hfirst, hlast, hlink, hlinkFits, -⟩ := margins
  have hfits := r.fits
  simp only [freeOnly, setLen, setPprev]
  refine ⟨fun x hx hx' _ => ?_, ⟨?_, ?_, ?_, by simp⟩, ?_⟩
  · rw [store64_outside _ hx', store64_outside _ (by omega), store64_outside _ (by omega),
      fill_outside _ (by omega)]
  · exact load64_store64_same _ _ (by omega)
  · rw [pprevOf, load64_store64_ne _ (by omega), load64_store64_same _ _ hlinkFits]
  · rw [load64_store64_ne _ (by omega), load64_store64_ne _ (by omega),
      load64_store64_ne _ (by omega), load64_fill_zero _ (by omega)]
  · rw [lenOf, load64_store64_ne _ (by omega), load64_store64_ne _ (by omega),
      load64_store64_same _ _ (by omega)]

theorem freeFirst_released (margins : Margins r a (a + l) r.freeMem next) (size : 24 ≤ l)
    (here : next ≠ 0) (forward : load64 mem r.freeMem = next) :
    Released mem (freeFirst r (fill mem a 24 0) a l) a (a + l) r.freeMem next a l := by
  obtain ⟨hfirst, hlast, hlink, hlinkFits, hnext⟩ := margins
  have hfits := r.fits
  have heq : freeFirst r (fill mem a 24 0) a l =
      store64 (store64 (store64 (store64 (store64 (fill mem a 24 0) (a + 16) l) (a + 8) r.freeMem)
        a next) (next + 8) a) r.freeMem a := by
    simp (disch := omega) only [freeFirst, setLen, setPprev, setNext, nextOf, load64_store64_ne,
      load64_store64_same, load64_fill_ne, forward]
  rw [heq]
  refine ⟨fun x hx hx' hx'' => ?_, ⟨?_, ?_, ?_, fun _ => ?_⟩, ?_⟩
  · simp (disch := omega) only [store64_outside, fill_outside]
  all_goals
    simp (disch := omega) only [pprevOf, lenOf, load64_store64_ne, load64_store64_same]

theorem freeAbsorb_released (margins : Margins r a (a + l + lt) r.freeMem next) (size : 24 ≤ l)
    (sizeBehind : 24 ≤ lt) (forward : load64 mem r.freeMem = a + l)
    (behind : nextOf mem (a + l) = next) (len : lenOf mem (a + l) = lt) :
    Released mem (freeAbsorb r (fill mem a 24 0) a l) a (a + l + lt) r.freeMem next a (l + lt) := by
  obtain ⟨hfirst, hlast, hlink, hlinkFits, hnext⟩ := margins
  have hfits := r.fits
  simp only [nextOf, lenOf] at behind len
  have heq : freeAbsorb r (fill mem a 24 0) a l =
      store64 (store64 (setPprevOf (store64 (store64 (fill mem a 24 0) (a + 16) (l + lt)) a next)
        next a) (a + 8) r.freeMem) r.freeMem a := by
    simp (disch := omega) only [freeAbsorb, setLen, setPprev, setNext, nextOf, lenOf, add64_eq,
      load64_store64_ne, load64_store64_same, load64_fill_ne, forward, behind, len]
  rw [heq]
  refine ⟨fun x hx hx' hx'' => ?_, ⟨?_, ?_, ?_, fun hne => ?_⟩, ?_⟩
  · simp (disch := omega) only [store64_outside, fill_outside, setPprevOf_outside]
  all_goals
    simp (disch := omega) only [pprevOf, lenOf, load64_store64_ne, load64_store64_same,
      load64_setPprevOf_ne, load64_setPprevOf_same]

theorem releases_first (size : 24 ≤ l) (forward : load64 mem r.freeMem = n) :
    Releases r mem (if n = 0 then freeOnly r (fill mem a 24 0) a l
      else if n = a + l then freeAbsorb r (fill mem a 24 0) a l
      else freeFirst r (fill mem a 24 0) a l) a l r.freeMem n := by
  constructor
  · rintro (rfl | far) margins
    · rw [if_pos rfl]
      exact freeOnly_released margins size
    · rw [if_neg (by omega), if_neg (by omega)]
      exact freeFirst_released margins size (by omega) forward
  · intro lt next touch margins sizeBehind behind len
    rw [if_neg (by omega), if_pos touch]
    exact freeAbsorb_released margins size sizeBehind (forward.trans touch) behind len

section
variable (stored : Stored mem mem' c l link) (size : 24 ≤ l)
include stored size

theorem Stored.joinPost_far (margins : Margins r c (c + l) link n)
    (far : c + l < n) :
    Released mem (joinPost mem' c (c + l - 1) n) c (c + l) link n c l := by
  obtain ⟨hconfined, hforward, hback, hlen⟩ := stored
  obtain ⟨hfirst, hlast, hlink, hlinkFits, hnext⟩ := margins
  have hfits := r.fits
  have heq : joinPost mem' c (c + l - 1) n = store64 (store64 mem' c n) (n + 8) c := by
    simp only [joinPost, setPprev, setNext]
    rw [sub64_eq (by omega) (by omega), if_neg (by omega)]
  rw [heq]
  simp only [pprevOf, lenOf] at hback hlen
  refine ⟨fun x hx hx' hx'' => ?_, ⟨?_, ?_, ?_, fun _ => ?_⟩, ?_⟩
  · rw [store64_outside _ (by omega), store64_outside _ (by omega), hconfined x hx hx' (.inl rfl)]
  all_goals
    simp (disch := omega) only [pprevOf, lenOf, load64_store64_ne, load64_store64_same, hforward,
      hback, hlen]

theorem Stored.joinPost_touch (margins : Margins r c (c + l + lt) link next)
    (sizeBehind : 24 ≤ lt) (forward : nextOf mem (c + l) = next) (len : lenOf mem (c + l) = lt) :
    Released mem (joinPost mem' c (c + l - 1) (c + l)) c (c + l + lt) link next c (l + lt) := by
  obtain ⟨hconfined, hforward, hback, hlen⟩ := stored
  obtain ⟨hfirst, hlast, hlink, hlinkFits, hnext⟩ := margins
  have hfits := r.fits
  have hbehind : ∀ i, i + 8 ≤ lt → load64 mem' (c + l + i) = load64 mem (c + l + i) :=
    fun i hi => load64_congr fun x _ _ => hconfined x (by omega) (by omega) (.inl rfl)
  simp only [pprevOf, lenOf] at hback hlen
  have hnextOf : load64 mem' (c + l) = next := (hbehind 0 (by omega)).trans forward
  have hlenOf : load64 mem' (c + l + 16) = lt := (hbehind 16 (by omega)).trans len
  have heq : joinPost mem' c (c + l - 1) (c + l) =
      store64 (setPprevOf (store64 mem' c next) next c) (c + 16) (l + lt) := by
    simp only [joinPost]
    rw [sub64_eq (by omega) (by omega), if_pos rfl]
    simp (disch := omega) only [setLen, setNext, nextOf, lenOf, add64_eq, load64_store64_ne,
      load64_store64_same, load64_setPprevOf_ne, hnextOf, hlenOf, hlen]
  rw [heq]
  refine ⟨fun x hx hx' hx'' => ?_, ⟨?_, ?_, ?_, fun hne => ?_⟩, ?_⟩
  · rw [store64_outside _ (by omega), setPprevOf_outside _ hx'', store64_outside _ (by omega),
      hconfined x (by omega) hx' (.inl rfl)]
  all_goals
    simp (disch := omega) only [pprevOf, lenOf, load64_store64_ne, load64_store64_same,
      load64_setPprevOf_ne, load64_setPprevOf_same, hforward, hback]

theorem Stored.releases {between : Nat → Memory} {last : Memory}
    (joined : ∀ post, between post = joinPost mem' c (c + l - 1) post)
    (alone : n = 0 → Margins r c (c + l) link 0 → Released mem last c (c + l) link 0 c l) :
    Releases r mem (if n ≠ 0 then between n else last) c l link n := by
  constructor
  · rintro (rfl | far) margins
    · rw [if_neg (fun hne => hne rfl)]
      exact alone rfl margins
    · rw [if_pos (by omega), joined]
      exact stored.joinPost_far size margins far
  · rintro lt next rfl margins sizeBehind forward len
    rw [if_pos (by omega), joined]
    exact stored.joinPost_touch size margins sizeBehind forward len

end

theorem lenOf_cleared (len : lenOf mem pre = lp) (below : pre + 24 ≤ a) (l : Nat) :
    lenOf (fill mem a 24 0) pre = lp ∧ lenOf (store64 (fill mem a 24 0) (a + 16) l) pre = lp := by
  have hlen : lenOf (fill mem a 24 0) pre = lp := (load64_fill_ne _ (by omega)).trans len
  exact ⟨hlen, (load64_store64_ne _ (by omega)).trans hlen⟩

section
variable (size : 24 ≤ l) (sizePre : 24 ≤ lp) (len : lenOf mem pre = lp)

section
variable (far : pre + lp < a)
include size sizePre len far

theorem joinPre_far (fits : a + l < 2 ^ 64) :
    ∃ mem', joinPre (store64 (fill mem a 24 0) (a + 16) l) a l pre = (mem', a) ∧
      Stored mem mem' a l pre := by
  obtain ⟨-, hlen⟩ := lenOf_cleared (a := a) len (by omega) l
  refine ⟨store64 (store64 (store64 (fill mem a 24 0) (a + 16) l) pre a) (a + 8) pre, ?_,
    fun x hx hx' _ => ?_, ?_, ?_, ?_⟩
  · simp only [joinPre, hlen, setPprev, setNext]
    rw [lastAddr_eq (by omega) (by omega), sub64_eq (by omega) (by omega), if_neg (by omega)]
  · simp (disch := omega) only [store64_outside, fill_outside]
  all_goals
    simp (disch := omega) only [pprevOf, lenOf, load64_store64_ne, load64_store64_same]

theorem freeLast_apart (margins : Margins r a (a + l) pre 0) :
    Released mem (freeLast (fill mem a 24 0) a l pre) a (a + l) pre 0 a l := by
  obtain ⟨hfirst, hlast, hlink, hlinkFits, -⟩ := margins
  have hfits := r.fits
  obtain ⟨hlen, -⟩ := lenOf_cleared (a := a) len (by omega) l
  have heq : freeLast (fill mem a 24 0) a l pre =
      store64 (store64 (store64 (store64 (fill mem a 24 0) (a + 16) l) a 0) (a + 8) pre) pre a := by
    simp only [freeLast, hlen, setLen, setNext, setPprev]
    rw [lastAddr_eq (by omega) (by omega), sub64_eq (by omega) (by omega), if_neg (by omega)]
  rw [heq]
  refine ⟨fun x hx hx' _ => ?_, ⟨?_, ?_, ?_, by simp⟩, ?_⟩
  · simp (disch := omega) only [store64_outside, fill_outside]
  all_goals
    simp (disch := omega) only [pprevOf, lenOf, load64_store64_ne, load64_store64_same]

theorem releases_apart (fits : a + l < 2 ^ 64) :
    Releases r mem (if n ≠ 0 then freeBetween (fill mem a 24 0) a l pre n
      else freeLast (fill mem a 24 0) a l pre) a l pre n := by
  obtain ⟨mem', hpre, stored⟩ := joinPre_far size sizePre len far fits
  refine stored.releases size (fun post => ?_) fun _ =>
    freeLast_apart size sizePre len far
  simp only [freeBetween, setLen, hpre, lastAddr_eq (show 0 < l by omega) fits]

end

section
variable (forward : load64 mem link = pre) (back : pprevOf mem pre = link)
include size sizePre len forward back

theorem joinPre_touch (apart : link + 8 ≤ pre ∨ pre + (lp + l) ≤ link)
    (fits : pre + lp + l < 2 ^ 64) :
    ∃ mem', joinPre (store64 (fill mem (pre + lp) 24 0) (pre + lp + 16) l) (pre + lp) l pre =
      (mem', pre) ∧ Stored mem mem' pre (lp + l) link := by
  obtain ⟨-, hlen⟩ := lenOf_cleared (a := pre + lp) len (by omega) l
  simp only [pprevOf] at back
  refine ⟨store64 (store64 (fill mem (pre + lp) 24 0) (pre + lp + 16) l) (pre + 16) (lp + l), ?_,
    fun x hx hx' _ => ?_, ?_, ?_, ?_⟩
  · simp only [joinPre, hlen, setLen]
    rw [lastAddr_eq (by omega) (by omega), sub64_eq (by omega) (by omega), add64_eq (by omega),
      if_pos (by omega)]
  · simp (disch := omega) only [store64_outside, fill_outside]
  all_goals
    simp (disch := omega) only [pprevOf, lenOf, load64_store64_ne, load64_store64_same,
      load64_fill_ne, forward, back]

theorem freeLast_front (margins : Margins r pre (pre + (lp + l)) link 0)
    (last : nextOf mem pre = 0) :
    Released mem (freeLast (fill mem (pre + lp) 24 0) (pre + lp) l pre) pre (pre + (lp + l)) link 0
      pre (lp + l) := by
  obtain ⟨hfirst, hlast, hlink, hlinkFits, -⟩ := margins
  have hfits := r.fits
  obtain ⟨hlen, -⟩ := lenOf_cleared (a := pre + lp) len (by omega) l
  have heq : freeLast (fill mem (pre + lp) 24 0) (pre + lp) l pre =
      store64 (fill mem (pre + lp) 24 0) (pre + 16) (lp + l) := by
    simp only [freeLast, hlen, setLen]
    rw [lastAddr_eq (by omega) (by omega), sub64_eq (by omega) (by omega), add64_eq (by omega),
      if_pos (by omega)]
  rw [heq]
  simp only [pprevOf, nextOf] at back last
  refine ⟨fun x hx hx' _ => ?_, ⟨?_, ?_, ?_, by simp⟩, ?_⟩
  · simp (disch := omega) only [store64_outside, fill_outside]
  all_goals
    simp (disch := omega) only [pprevOf, lenOf, load64_store64_ne, load64_store64_same,
      load64_fill_ne, forward, back, last]

theorem releases_front (apart : link + 8 ≤ pre ∨ pre + (lp + l) ≤ link)
    (last : n = 0 → nextOf mem pre = 0) (fits : pre + lp + l < 2 ^ 64) :
    Releases r mem (if n ≠ 0 then freeBetween (fill mem (pre + lp) 24 0) (pre + lp) l pre n
      else freeLast (fill mem (pre + lp) 24 0) (pre + lp) l pre) pre (lp + l) link n := by
  obtain ⟨mem', hpre, stored⟩ := joinPre_touch size sizePre len forward back apart fits
  refine stored.releases (by omega) (fun post => ?_) fun hn margins =>
    freeLast_front size sizePre len forward back margins (last hn)
  simp only [freeBetween, setLen, hpre, lastAddr_eq (show 0 < l by omega) fits]
  rw [add_assoc]

end

end

end Memory

/-! ## Chunks around a freed one -/

theorem frees_last (chunks : List Chunk) : frees chunks = [] ∨
    ∃ pre q between, chunks = pre ++ q :: between ∧ q.tag = none ∧ frees between = [] := by
  induction chunks with
  | nil => exact .inl rfl
  | cons s rest ih =>
    rcases ih with hnone | ⟨pre, q, between, rfl, hfree, hbetween⟩
    · by_cases htag : s.tag = none
      · exact .inr ⟨[], s, rest, rfl, htag, hnone⟩
      · exact .inl (by rw [frees_cons_live htag, hnone])
    · exact .inr ⟨s :: pre, q, between, rfl, hfree, hbetween⟩

section Release

variable {r : Region} {heap : Heap} {mem mem' : Memory} {pre mid post between : List Chunk}
  {q s t : Chunk} {b e l last fuel lenReq : Nat} {p : Link Nat}

theorem Around.link_last (h : Around r mem (pre ++ q :: between) mid post b e p)
    (free : q.tag = none) (hbetween : frees between = []) : addrOf r p = q.start := by
  have hreached := h.reached
  rw [frees_append, frees_cons_free free, hbetween] at hreached
  obtain ⟨l, -, -, -, rfl⟩ := path_append.mp hreached
  rfl

theorem Around.link_nil (h : Around r mem pre mid post b e p) (hpre : frees pre = []) :
    addrOf r p = r.freeMem := by
  have hreached := h.reached
  rw [hpre] at hreached
  obtain rfl : Link.head = p := hreached
  rfl

theorem aroundLoop_spec {link x : Nat} {as bs : List Nat}
    (threads : Threads mem link (as ++ x :: bs) 0) (pos : ∀ a ∈ as ++ x :: bs, a ≠ 0)
    (low : ∀ a ∈ as, a ≤ last) (lowLast : x ≤ last) (high : ∀ a ∈ bs, last < a)
    (enough : as.length < fuel) :
    aroundLoop mem last fuel (load64 mem link) = some (x, bs.head?.getD 0) := by
  induction as generalizing link fuel with
  | nil =>
    obtain ⟨fuel, rfl⟩ : ∃ n, fuel = n + 1 := ⟨fuel - 1, by omega⟩
    obtain ⟨forward, -, hrest⟩ := threads
    have hx : x ≠ 0 := pos x (by simp)
    cases bs with
    | nil => simp [aroundLoop, forward, hx, nextOf, hrest.1]
    | cons y bs =>
      have hy : y ≠ 0 := pos y (by simp)
      simp [aroundLoop, forward, hx, nextOf, hrest.load_eq, hy, high y mem_cons_self]
  | cons a as ih =>
    simp only [length_cons] at enough
    obtain ⟨fuel, rfl⟩ : ∃ n, fuel = n + 1 := ⟨fuel - 1, by omega⟩
    obtain ⟨forward, -, hrest⟩ := threads
    have ha : a ≠ 0 := pos a (by simp)
    obtain ⟨y, hy, hle⟩ : ∃ y, load64 mem a = y ∧ y ≠ 0 ∧ y ≤ last := by
      cases as with
      | nil => exact ⟨x, hrest.load_eq, pos x (by simp), lowLast⟩
      | cons y as => exact ⟨y, hrest.load_eq, pos y (by simp), low y (by simp)⟩
    have hstep : aroundLoop mem last (fuel + 1) (load64 mem link) =
        aroundLoop mem last fuel (load64 mem a) := by
      simp [aroundLoop, forward, ha, nextOf, hy, hle.1, not_lt.mpr hle.2]
    rw [hstep]
    exact ih hrest (fun c hc => pos c (mem_cons_of_mem a hc))
      (fun c hc => low c (mem_cons_of_mem a hc)) (by omega)

theorem Inv.execMemFree_eq (inv : Inv r heap (pre ++ [s] ++ post)) (live : s.tag = some lenReq)
    (hfree : freeIntoList r fuel (fill heap.mem s.start 24 0) s.start s.len = some mem') :
    execMemFree r fuel heap (s.start + 16) = some ⟨mem', heap.nAllocations - 1⟩ := by
  obtain ⟨hlen, -, -⟩ := inv.live_header (by simp) live
  have hinside := inv.inside (s := s) (by simp)
  have hcount : heap.nAllocations ≠ 0 := by
    rw [inv.count]
    simp [live]
  have hle := inv.count_le
  have hsub : sub64 heap.nAllocations 1 = heap.nAllocations - 1 :=
    sub64_eq (by omega) (by omega)
  simp [execMemFree, getAllocStart_eq (show s.start + 16 < 2 ^ 64 by omega), hlen,
    sizeofFreeChunk, hfree, hsub]

/-- The chunk was put into the free list, and every other allocation is still there. -/
def FreesTo (r : Region) (fuel : Nat) (heap : Heap) (s : Chunk) (others : List Chunk) : Prop :=
  ∃ mem' chunks, freeIntoList r fuel (fill heap.mem s.start 24 0) s.start s.len = some mem' ∧
    Inv r ⟨mem', heap.nAllocations - 1⟩ chunks ∧ lives chunks = lives others

theorem last_not_free (h : frees pre = []) : ∀ x ∈ pre.getLast?, x.tag ≠ none :=
  fun x hx => frees_nil_iff.mp h x (mem_of_mem_getLast? hx)

theorem Inv.next_eq (inv : Inv r heap (pre ++ [t] ++ post)) (free : t.tag = none) :
    nextOf heap.mem t.start = nextFree post := by
  obtain ⟨b, e, p, -, threads⟩ := inv.around
  rw [frees_cons_free free] at threads
  exact threads.2.2.1

section
variable (inv : Inv r heap (pre ++ mid ++ post)) (around : Around r heap.mem pre mid post b e p)
  (whole : b + l = e) (aligned : l % 8 = 0) (size : 24 ≤ l)
  (one : mid.countP (fun s => s.tag.isSome) = 1) (front : ∀ x ∈ pre.getLast?, x.tag ≠ none)
include inv around whole aligned size one front

theorem Inv.release (released : Released heap.mem mem' b e (addrOf r p) (nextFree post) b l)
    (behind : ∀ x ∈ post.head?, x.tag ≠ none) :
    Inv r ⟨mem', heap.nAllocations - 1⟩ (pre ++ [⟨b, l, none⟩] ++ post) := by
  have hchain := inv.merged
  have hcount := inv.count
  simp only [countP_append] at hcount
  refine inv.edit around released.confined ⟨rfl, whole⟩ ?_ ?_ ?_ ?_ ?_
  · simpa using ⟨aligned, size⟩
  · refine isChain_middle.mpr ⟨?_, isChain_singleton _, ?_, ?_, ?_⟩
    · exact (isChain_append.mp (isChain_append.mp hchain).1).1
    · exact (isChain_append.mp hchain).2.1
    · exact fun x hx h => front x hx h.1
    · exact fun x _ y hy h => behind y hy h.2
  · simpa [Header] using released.len
  · simpa [frees] using released.threads
  · simp only [countP_cons, countP_nil, Option.isSome_none, Bool.false_eq_true, ↓reduceIte]
    omega

theorem Inv.release_behind
    (releases : Releases r heap.mem mem' b l (addrOf r p) (nextFree post)) :
    ∃ chunks, Inv r ⟨mem', heap.nAllocations - 1⟩ chunks ∧ lives chunks = lives (pre ++ post) := by
  subst whole
  rcases around.behind_cases with ⟨t, rest, rfl, hfree⟩ | ⟨hbehind, hfar⟩
  -- The chunk behind is free, and becomes a part of the released one.
  · obtain ⟨htouch, hrest⟩ := around.behind
    have inv' : Inv r heap (pre ++ (mid ++ [t]) ++ rest) := by simpa using inv
    have inv'' : Inv r heap (pre ++ mid ++ [t] ++ rest) := by simpa using inv
    have around' : Around r heap.mem pre (mid ++ [t]) rest b t.stop p :=
      ⟨around.before, tiled_append.mpr ⟨_, around.inner, htouch, rfl⟩, hrest, inv'.sizes,
        around.reached⟩
    have htlen := inv.free_len (s := t) (by simp) hfree
    have htnext := inv''.next_eq hfree
    have htinside := inv.inside (s := t) (by simp)
    obtain ⟨htaligned, -⟩ := inv.sizes t (by simp)
    have hchain := (isChain_middle.mp inv''.merged).2.2.2.2
    have hstop : t.stop = b + l + t.len := by omega
    have margins := around'.margins
    rw [hstop] at margins
    rw [htouch] at htlen htnext
    refine ⟨_, inv'.release (l := l + t.len) around' (by omega) (by omega) (by omega) ?_ front ?_ ?_,
      by simp [lives, hfree]⟩
    · simp [one, hfree]
    · rw [hstop]
      refine releases.touch t.len _ ?_ margins (by omega) htnext htlen
      rw [nextFree, frees_cons_free hfree, ← htouch]
      rfl
    · exact fun x hx hxfree => hchain t (by simp) x hx ⟨hfree, hxfree⟩
  · exact ⟨_, inv.release around rfl aligned size one front (releases.apart hfar around.margins)
      hbehind, by simp [lives]⟩

end

theorem Inv.free_first (inv : Inv r heap (pre ++ [s] ++ post)) (live : s.tag = some lenReq)
    (hpre : frees pre = []) : FreesTo r fuel heap s (pre ++ post) := by
  obtain ⟨b, e, p, around, threads⟩ := inv.around
  obtain ⟨rfl, rfl⟩ := around.inner
  have hlink := around.link_nil hpre
  have hfrees : frees [s] = [] := by simp [frees, live]
  rw [hlink, hfrees] at threads
  have hinside := inv.inside (s := s) (by simp)
  have hnext := around.nextFree_apart
  obtain ⟨haligned, -⟩ := inv.sizes s (by simp)
  have releases := releases_first (a := s.start) (l := s.len) (by omega) threads.1
  rw [← hlink] at releases
  obtain ⟨chunks, hinv, hlives⟩ := inv.release_behind around rfl haligned (by omega)
    (by simp [live]) (last_not_free hpre) releases
  refine ⟨_, chunks, ?_, hinv, hlives⟩
  have hload : load64 (fill heap.mem s.start 24 0) r.freeMem = nextFree post := by
    rw [load64_fill_ne _ (by omega), threads.1]
  simp only [freeIntoList, hload, lastAddr_eq (a := s.start) (l := s.len) (by omega) (by omega)]
  by_cases hzero : nextFree post = 0
  · rw [if_pos hzero, if_pos hzero]
  · rw [if_neg hzero, if_neg hzero, sub64_eq (by omega) (by omega)]
    by_cases htouch : nextFree post = s.start + s.len
    · rw [if_pos htouch, if_neg (by omega), if_pos (by omega)]
    · rw [if_neg htouch, if_pos (by omega)]

theorem Inv.freeIntoList_eq (inv : Inv r heap (pre ++ q :: between ++ [s] ++ post))
    (live : s.tag = some lenReq) (free : q.tag = none) (hbetween : frees between = [])
    (enough : (pre ++ q :: between ++ [s] ++ post).length < fuel) :
    freeIntoList r fuel (fill heap.mem s.start 24 0) s.start s.len =
      some (if nextFree post ≠ 0 then
          freeBetween (fill heap.mem s.start 24 0) s.start s.len q.start (nextFree post)
        else freeLast (fill heap.mem s.start 24 0) s.start s.len q.start) := by
  have hmem : s ∈ pre ++ q :: between ++ [s] ++ post := by simp
  have hinside := inv.inside hmem
  have hlast := lastAddr_eq (a := s.start) (l := s.len) (by omega) (by omega)
  obtain ⟨b, e, p, around, -⟩ := inv.around
  obtain ⟨rfl, rfl⟩ := around.inner
  have hfrees : frees (pre ++ q :: between ++ [s] ++ post) =
      frees pre ++ q.start :: frees post := by
    simp only [frees_append, frees_cons_free free, hbetween]
    simp [frees, live]
  have hbefore : ∀ a ∈ frees pre ++ [q.start], a + 24 ≤ s.start := by
    intro a ha
    have ha' : a ∈ frees (pre ++ q :: between) := by
      simpa [frees_append, frees_cons_free free, hbetween] using ha
    obtain ⟨t, ht, -, rfl⟩ := mem_frees.mp ha'
    have := around.before.mem ht
    have := around.inside (mem_append_left _ (mem_append_left _ ht))
    omega
  have hafter : ∀ a ∈ frees post, s.stop ≤ a := by
    intro a ha
    obtain ⟨t, ht, -, rfl⟩ := mem_frees.mp ha
    exact (around.behind.mem ht).1
  have hthreads : Threads (fill heap.mem s.start 24 0) r.freeMem
      (frees pre ++ q.start :: frees post) 0 := by
    have hall := inv.threads
    rw [hfrees] at hall
    refine hall.outside (fun x hx => fill_outside _ hx) (by omega) ?_ (.inl rfl)
    intro a ha
    simp only [mem_append, mem_cons] at ha
    rcases ha with ha | rfl | ha
    · exact .inl (hbefore a (by simp [ha]))
    · exact .inl (hbefore q.start (by simp))
    · have := hafter a ha
      omega
  have hpos : ∀ a ∈ frees pre ++ q.start :: frees post, a ≠ 0 := by
    intro a ha
    rw [← hfrees] at ha
    exact inv.frees_ne ha
  obtain ⟨f, hload, hf, hfs⟩ : ∃ f, load64 (fill heap.mem s.start 24 0) r.freeMem = f ∧ f ≠ 0 ∧
      f + 24 ≤ s.start := by
    cases hfront : frees pre with
    | nil =>
      rw [hfront] at hthreads hbefore hpos
      exact ⟨q.start, hthreads.load_eq, hpos _ (by simp), hbefore _ (by simp)⟩
    | cons f rest =>
      rw [hfront] at hthreads hbefore hpos
      exact ⟨f, hthreads.load_eq, hpos _ (by simp), hbefore _ (by simp)⟩
  have hloop : aroundLoop (fill heap.mem s.start 24 0) (s.start + s.len - 1) fuel f =
      some (q.start, nextFree post) := by
    rw [← hload]
    refine aroundLoop_spec hthreads hpos ?_ ?_ ?_ ?_
    · intro a ha
      have := hbefore a (by simp [ha])
      omega
    · have := hbefore q.start (by simp)
      omega
    · intro a ha
      have := hafter a ha
      omega
    · have := frees_length_le pre
      simp only [length_append, length_cons] at enough
      omega
  simp only [freeIntoList, hload, hf, hlast, ↓reduceIte]
  rw [sub64_eq (by omega) (by omega), if_neg (by omega), if_neg (by omega), hloop]
  simp only [Option.bind_eq_bind, Option.bind_some]
  split <;> rfl

theorem Inv.free_touching (inv : Inv r heap (pre ++ [q] ++ [s] ++ post))
    (live : s.tag = some lenReq) (free : q.tag = none)
    (enough : (pre ++ [q] ++ [s] ++ post).length < fuel) :
    FreesTo r fuel heap s (pre ++ [q] ++ post) := by
  have hfreeInto := inv.freeIntoList_eq live free rfl enough
  have hqlen := inv.free_len (s := q) (by simp) free
  have hsinside := inv.inside (s := s) (by simp)
  have hqinside := inv.inside (s := q) (by simp)
  obtain ⟨hsaligned, -⟩ := inv.sizes s (by simp)
  obtain ⟨hqaligned, -⟩ := inv.sizes q (by simp)
  have inv' : Inv r heap (pre ++ [q, s] ++ post) := by simpa using inv
  have hfront : ∀ x ∈ pre.getLast?, x.tag ≠ none :=
    fun x hx hxfree => (isChain_middle.mp inv'.merged).2.2.2.1 x hx ⟨hxfree, free⟩
  obtain ⟨b, e, p, around, threads⟩ := inv'.around
  obtain ⟨rfl, htouch, rfl⟩ := around.inner
  have hfrees : frees [q, s] = [q.start] := by simp [frees, live, free]
  rw [hfrees] at threads
  obtain ⟨hforward, hback, hlast, -⟩ := threads
  have hlink := around.link_apart
  have releases := releases_front (r := r) (l := s.len) (n := nextFree post) (by omega) (by omega)
    hqlen hforward hback (by omega) hlast.trans (by omega)
  obtain ⟨chunks, hinv, hlives⟩ := inv'.release_behind around (by omega) (by omega) (by omega)
    (by simp [live, free]) hfront releases
  refine ⟨_, chunks, hfreeInto, ?_, hlives.trans (by simp [lives, free])⟩
  rw [htouch, Seg.stop]
  exact hinv

theorem Inv.free_apart {x : Chunk} (inv : Inv r heap (pre ++ q :: x :: between ++ [s] ++ post))
    (live : s.tag = some lenReq) (free : q.tag = none) (hbetween : frees (x :: between) = [])
    (enough : (pre ++ q :: x :: between ++ [s] ++ post).length < fuel) :
    FreesTo r fuel heap s (pre ++ q :: x :: between ++ post) := by
  have hfreeInto := inv.freeIntoList_eq live free hbetween enough
  have hqlen := inv.free_len (s := q) (by simp) free
  have hsinside := inv.inside (s := s) (by simp)
  have hqinside := inv.inside (s := q) (by simp)
  have hxinside := inv.inside (s := x) (by simp)
  obtain ⟨hsaligned, -⟩ := inv.sizes s (by simp)
  obtain ⟨b, e, p, around, threads⟩ := inv.around
  obtain ⟨rfl, rfl⟩ := around.inner
  have hfar : q.start + q.len < s.start := by
    have hx := (around.before.mem (s := x) (by simp)).2
    obtain ⟨m, -, -, hqx, -⟩ := tiled_append.mp around.before
    omega
  have hfront : ∀ y ∈ (pre ++ q :: x :: between).getLast?, y.tag ≠ none := by
    have hlast : (pre ++ q :: x :: between).getLast? = (x :: between).getLast? := by
      simp [getLast?_append, getLast?_cons]
    rw [hlast]
    exact last_not_free hbetween
  have releases := releases_apart (r := r) (l := s.len) (n := nextFree post) (by omega) (by omega)
    hqlen hfar (by omega)
  rw [← around.link_last free hbetween] at releases
  obtain ⟨chunks, hinv, hlives⟩ := inv.release_behind around rfl hsaligned (by omega)
    (by simp [live]) hfront releases
  rw [around.link_last free hbetween] at hinv
  exact ⟨_, chunks, hfreeInto, hinv, hlives⟩

theorem execMemFree_spec (inv : Inv r heap (pre ++ [s] ++ post)) (live : s.tag = some lenReq)
    (enough : (pre ++ [s] ++ post).length < fuel) :
    ∃ heap' chunks, execMemFree r fuel heap (s.start + 16) = some heap' ∧ Inv r heap' chunks ∧
      lives chunks = lives (pre ++ post) := by
  have hto : FreesTo r fuel heap s (pre ++ post) := by
    rcases frees_last pre with hpre | ⟨front, q, between, rfl, hfree, hbetween⟩
    · exact inv.free_first live hpre
    · cases between with
      | nil => exact inv.free_touching live hfree enough
      | cons x between => exact inv.free_apart live hfree hbetween enough
  obtain ⟨mem', chunks, hfreeInto, hinv, hlives⟩ := hto
  exact ⟨_, chunks, inv.execMemFree_eq live hfreeInto, hinv, hlives⟩

end Release

end ExecMem
