import WashingtonDC.Avl

/-!
# The code cache

Entries are found through a hash table in front of an AVL tree. Invalidation moves the
whole tree to a list that is freed later, outside of CPU context. The entries live in one
heap: a pointer is allocated while it is in `live`, and an allocation may return any
pointer that is not. `freed`, `epoch` and `born` only record history: the entries freed so
far, the number of invalidations, and the one during which an entry was created. The
compiled code in an entry is left out.
-/
namespace CodeCache

open TreeZipper LinkedTree Avl Function List Relation UInt32 Option

set_option linter.unusedSectionVars false

def codeCacheHashTblMask : UInt32 := 0xffff

def maxEntries : UInt32 := 1024 * 1024

/-- The heap of cache entries. -/
structure EntryHeap (Node : Type) where
  live : Finset Node
  nEntries : UInt32
  freed : List Node
  epoch : Nat
  born : Node → Nat

/-- `tree` is the current tree; its node fields are those of every entry. `oldroot` holds
the roots of the invalidated trees. -/
structure Cache (Node : Type) where
  tree : AvlTree Node
  oldroot : List (Option Node)
  codeCacheTbl : UInt32 → Option Node
  heap : EntryHeap Node

variable {Node : Type} [DecidableEq Node]

/-- `ent` is the memory that `calloc` returns. -/
def cacheEntryCtor (ent : Node) : AvlNodeCtor Node (EntryHeap Node) := fun heap =>
  let nEntries := heap.nEntries + 1
  if nEntries ≥ maxEntries then none
  else some (ent, { heap with
    live := insert ent heap.live
    nEntries
    born := update heap.born ent heap.epoch })

def cacheEntryDtor (node : Node) (heap : EntryHeap Node) : Option (EntryHeap Node) :=
  if node ∈ heap.live then
    some { heap with live := heap.live.erase node, freed := heap.freed ++ [node] }
  else none

def codeCacheInit (cache : Cache Node) : Cache Node where
  tree := avlInit cache.tree
  oldroot := []
  codeCacheTbl := fun _ => none
  heap := ⟨∅, 0, [], 0, cache.heap.born⟩

def codeCacheInvalidateAll (cache : Cache Node) : Cache Node where
  tree := avlInit cache.tree
  oldroot := cache.tree.links.root :: cache.oldroot
  codeCacheTbl := fun _ => none
  heap := { cache.heap with nEntries := 0, epoch := cache.heap.epoch + 1 }

/-- The loop of `code_cache_gc` over the old trees. -/
def gcLoop (links : Links Node) (fuel : Nat) :
    List (Option Node) → EntryHeap Node → Option (EntryHeap Node)
  | [], heap => some heap
  | root :: next, heap => do
    let heap ← avlCleanup cacheEntryDtor links fuel root heap
    gcLoop links fuel next heap

def codeCacheGc (fuel : Nat) (cache : Cache Node) : Option (Cache Node) := do
  let heap ← gcLoop cache.tree.links fuel cache.oldroot cache.heap
  return { cache with oldroot := [], heap }

def codeCacheFindSlow (fuel : Nat) (ent : Node) (cache : Cache Node) (addr : UInt32) :
    Option (Cache Node × Node) := do
  let (tree, node, heap) ← avlFind fuel (cacheEntryCtor ent) cache.heap cache.tree addr
  return ({ cache with tree, heap }, node)

def hashIdx (addr : UInt32) : UInt32 := addr &&& codeCacheHashTblMask

def Cache.store (cache : Cache Node) (idx : UInt32) (ent : Node) : Cache Node :=
  { cache with codeCacheTbl := update cache.codeCacheTbl idx (some ent) }

/-- `code_cache_find_slow` followed by a write to the hash table, as it is done by
`code_cache_find` and by the slow path of the code emitted by `native_dispatch_emit`. -/
def codeCacheFindSlowStore (fuel : Nat) (ent : Node) (cache : Cache Node) (addr : UInt32) :
    Option (Cache Node × Node) := do
  let (cache, ret) ← codeCacheFindSlow fuel ent cache addr
  return (cache.store (hashIdx addr) ret, ret)

def codeCacheFind (fuel : Nat) (ent : Node) (cache : Cache Node) (addr : UInt32) :
    Option (Cache Node × Node) :=
  match cache.codeCacheTbl (hashIdx addr) with
  | some maybe =>
    if maybe ∉ cache.heap.live then none
    else if cache.tree.key maybe = addr then some (cache, maybe)
    else codeCacheFindSlowStore fuel ent cache addr
  | none => codeCacheFindSlowStore fuel ent cache addr

/-! ## Freeing a tree -/

/-- The entries `xs` were allocated, and each has been freed once. -/
structure Frees (heap heap' : EntryHeap Node) (xs : List Node) : Prop where
  freed : ∃ l, l.Perm xs ∧ heap'.freed = heap.freed ++ l
  live : heap'.live = heap.live \ xs.toFinset
  nEntries : heap'.nEntries = heap.nEntries
  epoch : heap'.epoch = heap.epoch
  born : heap'.born = heap.born

variable {heap heap' heap'' : EntryHeap Node} {xs ys : List Node} {node : Node} {links : Links Node}

theorem Frees.refl (heap : EntryHeap Node) : Frees heap heap [] :=
  ⟨⟨[], Perm.nil, by simp⟩, by simp, rfl, rfl, rfl⟩

theorem Frees.mem_live (h : Frees heap heap' xs) (live : node ∈ heap.live) (kept : node ∉ xs) :
    node ∈ heap'.live := by
  rw [h.live, Finset.mem_sdiff, List.mem_toFinset]
  exact ⟨live, kept⟩

theorem Frees.trans (h : Frees heap heap' xs) (h' : Frees heap' heap'' ys) :
    Frees heap heap'' (xs ++ ys) := by
  obtain ⟨l, hl, hfreed⟩ := h.freed
  obtain ⟨l', hl', hfreed'⟩ := h'.freed
  refine ⟨⟨l ++ l', hl.append hl', by rw [hfreed', hfreed, append_assoc]⟩, ?_,
    h'.nEntries.trans h.nEntries, h'.epoch.trans h.epoch, h'.born.trans h.born⟩
  rw [h'.live, h.live, toFinset_append, sdiff_sdiff_left]
  rfl

theorem Frees.perm (h : Frees heap heap' xs) (same : xs.Perm ys) : Frees heap heap' ys := by
  obtain ⟨l, hl, hfreed⟩ := h.freed
  refine ⟨⟨l, hl.trans same, hfreed⟩, ?_, h.nEntries, h.epoch, h.born⟩
  rw [h.live, toFinset_eq_of_perm _ _ same]

theorem cacheEntryDtor_frees (here : node ∈ heap.live) :
    ∃ heap', cacheEntryDtor node heap = some heap' ∧ Frees heap heap' [node] := by
  refine ⟨_, if_pos here, ⟨[node], List.Perm.refl _, rfl⟩, ?_, rfl, rfl, rfl⟩
  ext x
  simp [and_comm]

theorem avlCleanup_frees {t : BinaryTree Node} {up : Option Node} {fuel : Nat}
    (linked : Linked links up t) (nodup : (inorder t).Nodup)
    (allocated : ∀ x ∈ inorder t, x ∈ heap.live) (enough : t.height ≤ fuel) :
    ∃ heap', avlCleanup cacheEntryDtor links fuel (top t) heap = some heap' ∧
      Frees heap heap' (inorder t) := by
  induction t generalizing up heap fuel with
  | nil => exact ⟨heap, rfl, Frees.refl heap⟩
  | node a l r ihl ihr =>
    simp only [BinaryTree.height] at enough
    obtain ⟨fuel, rfl⟩ : ∃ n, fuel = n + 1 := ⟨fuel - 1, by omega⟩
    obtain ⟨-, hleft, hright, hl, hr⟩ := linked
    simp only [inorder, nodup_append, nodup_cons, mem_append,
      mem_cons] at nodup allocated
    obtain ⟨hnl, ⟨har, hnr⟩, hdisjoint⟩ := nodup
    obtain ⟨heap₁, hclear₁, hfrees₁⟩ := ihl hl hnl (fun x hx => allocated x (.inl hx))
      (show l.height ≤ fuel by omega)
    have hrlive : ∀ x ∈ inorder r, x ∈ heap₁.live := fun x hx =>
      hfrees₁.mem_live (allocated x (.inr (.inr hx)))
        fun hxl => hdisjoint x hxl x (.inr hx) rfl
    obtain ⟨heap₂, hclear₂, hfrees₂⟩ := ihr hr hnr hrlive (show r.height ≤ fuel by omega)
    have halive : a ∈ heap₁.live := hfrees₁.mem_live (allocated a (.inr (.inl rfl)))
      fun hal => hdisjoint a hal a (.inl rfl) rfl
    obtain ⟨heap₃, hdtor, hfrees₃⟩ := cacheEntryDtor_frees (hfrees₂.mem_live halive har)
    refine ⟨heap₃, ?_, ((hfrees₁.trans hfrees₂).trans hfrees₃).perm ?_⟩
    · change avlClearNode cacheEntryDtor links (fuel + 1) a heap = some heap₃
      rw [avlClearNode_succ, hleft, hright, hclear₁, bind_some, hclear₂, bind_some,
        hdtor]
    · rw [append_assoc]
      exact Perm.append_left _ (perm_append_singleton a (inorder r))

theorem gcLoop_frees {olds : List (BinaryTree Node)} {fuel : Nat}
    (linked : ∀ t ∈ olds, Linked links none t) (nodup : (olds.flatMap inorder).Nodup)
    (allocated : ∀ x ∈ olds.flatMap inorder, x ∈ heap.live)
    (enough : (olds.flatMap inorder).length ≤ fuel) :
    ∃ heap', gcLoop links fuel (olds.map top) heap = some heap' ∧
      Frees heap heap' (olds.flatMap inorder) := by
  induction olds generalizing heap with
  | nil => exact ⟨heap, rfl, Frees.refl heap⟩
  | cons t rest ih =>
    simp only [flatMap_cons, nodup_append, mem_append, length_append]
      at nodup allocated enough
    obtain ⟨hnt, hnrest, hdisjoint⟩ := nodup
    have hheight := height_le_length t
    obtain ⟨heap₁, hclear, hfrees₁⟩ := avlCleanup_frees (linked t (by simp)) hnt
      (fun x hx => allocated x (.inl hx)) (show t.height ≤ fuel by omega)
    have hlive : ∀ x ∈ rest.flatMap inorder, x ∈ heap₁.live := fun x hx =>
      hfrees₁.mem_live (allocated x (.inr hx)) fun hxt => hdisjoint x hxt x hx rfl
    obtain ⟨heap₂, hloop, hfrees₂⟩ := ih (fun t' ht' => linked t' (by simp [ht'])) hnrest hlive
      (by omega)
    exact ⟨heap₂, by simp [gcLoop, hclear, hloop], hfrees₁.trans hfrees₂⟩

/-! ## Coherence -/

/-- `xs` are the entries of the current tree, `olds` the invalidated trees. -/
structure Coherent (cache : Cache Node) (xs : List Node) (olds : List (BinaryTree Node)) :
    Prop where
  current : Valid cache.tree xs
  oldroot : cache.oldroot = olds.map top
  old : ∀ t ∈ olds, Linked cache.tree.links none t
  nodup : (xs ++ olds.flatMap inorder).Nodup
  live : cache.heap.live = (xs ++ olds.flatMap inorder).toFinset
  tbl : ∀ i ent, cache.codeCacheTbl i = some ent →
    ent ∈ xs ∧ hashIdx (cache.tree.key ent) = i
  born : ∀ ent ∈ xs, cache.heap.born ent = cache.heap.epoch
  bornOld : ∀ ent ∈ olds.flatMap inorder, cache.heap.born ent < cache.heap.epoch
  count : cache.heap.nEntries.toNat = xs.length
  room : xs.length < maxEntries.toNat

theorem coherent_init (cache : Cache Node) : Coherent (codeCacheInit cache) [] [] where
  current := ⟨⟨.nil, ⟨rfl, trivial, nodup_nil⟩, trivial, rfl⟩, List.Pairwise.nil⟩
  oldroot := rfl
  old := nofun
  nodup := nodup_nil
  live := rfl
  tbl := nofun
  born := nofun
  bornOld := nofun
  count := rfl
  room := show 0 < maxEntries.toNat by decide

theorem linked_setRoot {up root : Option Node} {t : BinaryTree Node} (h : Linked links up t) :
    Linked (links.setRoot root) up t :=
  h.congr fun _ _ => ⟨rfl, fun _ => rfl⟩

section Operations

variable {cache cache' : Cache Node} {olds : List (BinaryTree Node)}

theorem Coherent.invalidateAll (coherent : Coherent cache xs olds) :
    ∃ t, inorder t = xs ∧ Coherent (codeCacheInvalidateAll cache) [] (t :: olds) := by
  obtain ⟨t, represents, -, rfl⟩ := coherent.current.settled
  refine ⟨t, rfl, ?_⟩
  refine ⟨(coherent_init cache).current, ?_, ?_, ?_, ?_, nofun, nofun, ?_, rfl,
    (coherent_init cache).room⟩
  · simp [codeCacheInvalidateAll, represents.root, coherent.oldroot]
  · intro t' ht'
    rcases mem_cons.mp ht' with rfl | ht'
    · exact linked_setRoot represents.linked
    · exact linked_setRoot (coherent.old t' ht')
  · simpa using coherent.nodup
  · simpa [codeCacheInvalidateAll] using coherent.live
  · intro ent hent
    simp only [flatMap_cons, mem_append] at hent
    refine Nat.lt_succ_of_le ?_
    rcases hent with hent | hent
    · exact (coherent.born ent hent).le
    · exact (coherent.bornOld ent hent).le

theorem Coherent.gc (coherent : Coherent cache xs olds) {fuel : Nat}
    (enough : (olds.flatMap inorder).length ≤ fuel) :
    ∃ cache', codeCacheGc fuel cache = some cache' ∧ Coherent cache' xs [] ∧
      Frees cache.heap cache'.heap (olds.flatMap inorder) := by
  obtain ⟨hxs, holds, hdisjoint⟩ := nodup_append.mp coherent.nodup
  have hallocated : ∀ x ∈ olds.flatMap inorder, x ∈ cache.heap.live := by
    intro x hx
    rw [coherent.live, List.mem_toFinset]
    exact mem_append_right xs hx
  obtain ⟨heap, hloop, hfrees⟩ := gcLoop_frees coherent.old holds hallocated enough
  refine ⟨{ cache with oldroot := [], heap }, ?_, ?_, hfrees⟩
  · simp [codeCacheGc, coherent.oldroot, hloop]
  · refine ⟨coherent.current, rfl, nofun, by simpa using hxs, ?_, coherent.tbl, ?_, nofun, ?_,
      coherent.room⟩
    · rw [hfrees.live, coherent.live]
      ext x
      simp only [toFinset_append, Finset.mem_sdiff, Finset.mem_union, List.mem_toFinset,
        flatMap_nil, append_nil]
      exact ⟨fun h => h.1.resolve_right h.2, fun h => ⟨.inl h, fun h' => hdisjoint x h x h' rfl⟩⟩
    · intro ent hent
      rw [hfrees.born, hfrees.epoch]
      exact coherent.born ent hent
    · rw [hfrees.nEntries]
      exact coherent.count

variable {ent : Node} {addr : UInt32} {fuel : Nat}

theorem Coherent.fresh (coherent : Coherent cache xs olds) (fresh : ent ∉ cache.heap.live) :
    ent ∉ xs ∧ ent ∉ olds.flatMap inorder := by
  rw [coherent.live, List.mem_toFinset, mem_append, not_or] at fresh
  exact fresh

theorem Coherent.length_lt (coherent : Coherent cache xs olds)
    (enough : cache.heap.live.card < fuel) : xs.length < fuel := by
  rw [coherent.live, toFinset_card_of_nodup coherent.nodup, length_append] at enough
  omega

theorem cacheEntryCtor_full {n : Nat} (count : heap.nEntries.toNat = n)
    (full : n + 1 = maxEntries.toNat) : cacheEntryCtor ent heap = none := by
  have hmax : maxEntries.toNat = 1048576 := rfl
  refine if_pos (le_iff_toNat_le.mpr ?_)
  rw [UInt32.toNat_add, toNat_one]
  omega

theorem cacheEntryCtor_room {n : Nat} (count : heap.nEntries.toNat = n)
    (room : n + 1 < maxEntries.toNat) :
    ∃ heap', cacheEntryCtor ent heap = some (ent, heap') ∧ heap'.nEntries.toNat = n + 1 ∧
      heap'.live = insert ent heap.live ∧ heap'.epoch = heap.epoch ∧
      heap'.born = update heap.born ent heap.epoch := by
  have hmax : maxEntries.toNat = 1048576 := rfl
  have hadd : (heap.nEntries + 1).toNat = n + 1 := by
    rw [UInt32.toNat_add, toNat_one]
    omega
  refine ⟨_, if_neg (fun h => ?_), hadd, rfl, rfl, rfl⟩
  have := le_iff_toNat_le.mp h
  omega

/-- A lookup of `addr` that returned `node` and may have added it to the current tree. -/
structure Found (cache cache' : Cache Node) (xs xs' : List Node) (olds : List (BinaryTree Node))
    (addr : UInt32) (node : Node) : Prop where
  coherent : Coherent cache' xs' olds
  here : node ∈ xs'
  key : cache'.tree.key node = addr
  sub : xs ⊆ xs'
  keys : ∀ e ∈ xs, cache'.tree.key e = cache.tree.key e
  tbl : cache'.codeCacheTbl = cache.codeCacheTbl

section
variable (coherent : Coherent cache xs olds)
include coherent

theorem Coherent.findSlow_present (enough : cache.heap.live.card < fuel) (here : node ∈ xs)
    (key : cache.tree.key node = addr) :
    codeCacheFindSlow fuel ent cache addr = some (cache, node) := by
  have hfind := (avlFind_present coherent.current here key (coherent.length_lt enough)
    (cacheEntryCtor ent) cache.heap).1
  simp [codeCacheFindSlow, hfind]

theorem Coherent.found_self (here : node ∈ xs) (key : cache.tree.key node = addr) :
    Found cache cache xs xs olds addr node :=
  ⟨coherent, here, key, fun _ he => he, fun _ _ => rfl, rfl⟩

section
variable (fresh : ent ∉ cache.heap.live) (enough : cache.heap.live.card < fuel)
include fresh enough

theorem Coherent.findSlow_full (absent : ∀ e ∈ xs, cache.tree.key e ≠ addr)
    (full : xs.length + 1 = maxEntries.toNat) :
    codeCacheFindSlow fuel ent cache addr = none := by
  let ctor : AvlNodeCtor Node (EntryHeap Node) := fun heap => some (ent, heap)
  have hmade : ctor cache.heap = some (ent, cache.heap) := rfl
  have habsent := (avlFind_absent coherent.current hmade (coherent.fresh fresh).1 absent
    (coherent.length_lt enough)).1
  simp [codeCacheFindSlow, avlFind_full habsent (cacheEntryCtor_full coherent.count full)]

theorem Coherent.findSlow_absent (absent : ∀ e ∈ xs, cache.tree.key e ≠ addr)
    (room : xs.length + 1 < maxEntries.toNat) :
    ∃ cache' xs', codeCacheFindSlow fuel ent cache addr = some (cache', ent) ∧
      Found cache cache' xs xs' olds addr ent := by
  obtain ⟨hfresh, hfreshOld⟩ := coherent.fresh fresh
  obtain ⟨heap, hmade, hcount, hlive, hepoch, hborn⟩ :=
    cacheEntryCtor_room coherent.count room
  obtain ⟨-, tree, front, back, hfind, rfl, hkey, valid, outside⟩ :=
    avlFind_absent coherent.current hmade hfresh absent (coherent.length_lt enough)
  have hperm : (front ++ ent :: back).Perm (ent :: (front ++ back)) := perm_middle
  have hmem : ∀ e, e ∈ front ++ ent :: back ↔ e = ent ∨ e ∈ front ++ back := fun e => by
    rw [hperm.mem_iff, mem_cons]
  have hkeys : ∀ e ∈ front ++ back, tree.key e = cache.tree.key e := by
    intro e he
    rw [hkey, update_of_ne (ne_of_mem_of_not_mem he hfresh)]
  have hall : (front ++ ent :: back ++ olds.flatMap inorder).Perm
      (ent :: (front ++ back ++ olds.flatMap inorder)) := hperm.append_right _
  refine ⟨{ cache with tree, heap }, front ++ ent :: back, by simp [codeCacheFindSlow, hfind],
    ⟨valid, coherent.oldroot, ?_, ?_, ?_, ?_, ?_, ?_, ?_, ?_⟩, by simp, by simp [hkey], ?_, hkeys,
    rfl⟩
  · intro t ht
    refine (coherent.old t ht).congr fun x hx => outside x fun hx' => ?_
    have hxold : x ∈ olds.flatMap inorder := mem_flatMap.mpr ⟨t, ht, hx⟩
    rcases (hmem x).mp hx' with rfl | hxs
    · exact hfreshOld hxold
    · exact (nodup_append.mp coherent.nodup).2.2 x hxs x hxold rfl
  · rw [hall.nodup_iff, nodup_cons, mem_append, not_or]
    exact ⟨⟨hfresh, hfreshOld⟩, coherent.nodup⟩
  · rw [hlive, coherent.live, toFinset_eq_of_perm _ _ hall, toFinset_cons]
  · intro i e he
    obtain ⟨hxs, hhash⟩ := coherent.tbl i e he
    exact ⟨(hmem e).mpr (.inr hxs), (congrArg hashIdx (hkeys e hxs)).trans hhash⟩
  · intro e he
    rw [hborn, hepoch]
    rcases (hmem e).mp he with rfl | hxs
    · exact update_self ..
    · rw [update_of_ne (ne_of_mem_of_not_mem hxs hfresh)]
      exact coherent.born e hxs
  · intro e he
    rw [hborn, hepoch, update_of_ne (ne_of_mem_of_not_mem he hfreshOld)]
    exact coherent.bornOld e he
  · rw [hcount, hperm.length_eq, length_cons]
  · rw [hperm.length_eq, length_cons]
    exact room
  · exact fun e he => (hmem e).mpr (.inr he)

theorem Coherent.findSlow :
    ((∃ slow, codeCacheFindSlow fuel ent cache addr = some slow) ↔
      (∃ e ∈ xs, cache.tree.key e = addr) ∨ xs.length + 1 < maxEntries.toNat) ∧
    ∀ cache' node, codeCacheFindSlow fuel ent cache addr = some (cache', node) →
      ∃ xs', Found cache cache' xs xs' olds addr node := by
  by_cases present : ∃ e ∈ xs, cache.tree.key e = addr
  · obtain ⟨e, here, key⟩ := present
    have hfind := @Coherent.findSlow_present _ _ _ _ _ _ ent _ _ coherent enough here key
    refine ⟨iff_of_true ⟨_, hfind⟩ (.inl ⟨e, here, key⟩), fun cache' node returned => ?_⟩
    cases hfind.symm.trans returned
    exact ⟨xs, coherent.found_self here key⟩
  · have absent : ∀ e ∈ xs, cache.tree.key e ≠ addr := fun e he hkey => present ⟨e, he, hkey⟩
    rcases lt_or_ge (xs.length + 1) maxEntries.toNat with room | full
    · obtain ⟨cache'', xs', hfind, found⟩ := coherent.findSlow_absent fresh enough absent room
      refine ⟨iff_of_true ⟨_, hfind⟩ (.inr room), fun cache' node returned => ?_⟩
      cases hfind.symm.trans returned
      exact ⟨xs', found⟩
    · have hroom := coherent.room
      have hfind := coherent.findSlow_full fresh enough absent (by omega)
      refine ⟨iff_of_false (by simp [hfind]) ?_, by simp [hfind]⟩
      rintro (h | h) <;> [exact present h; omega]

end

end

theorem Found.unique {xs' : List Node} (found : Found cache cache' xs xs' olds addr node)
    (e : Node) : e ∈ xs' ∧ cache'.tree.key e = addr ↔ e = node := by
  refine ⟨fun ⟨he, hkey⟩ => ?_, fun heq => heq ▸ ⟨found.here, found.key⟩⟩
  exact found.coherent.current.sorted.unique he found.here
    (by rw [AvlTree.keyOf, AvlTree.keyOf, hkey, found.key])

theorem Found.store {xs' : List Node} (found : Found cache cache' xs xs' olds addr node) :
    Coherent (cache'.store (hashIdx addr) node) xs' olds where
  __ := found.coherent
  tbl i e he := by
    by_cases hi : i = hashIdx addr
    · subst hi
      obtain rfl : node = e := by simpa [Cache.store] using he
      exact ⟨found.here, congrArg hashIdx found.key⟩
    · have hold : cache'.codeCacheTbl i = some e := by simpa [Cache.store, hi] using he
      exact found.coherent.tbl i e hold

theorem Coherent.find_eq (coherent : Coherent cache xs olds)
    (enough : cache.heap.live.card < fuel) :
    codeCacheFind fuel ent cache addr = codeCacheFindSlowStore fuel ent cache addr := by
  cases htbl : cache.codeCacheTbl (hashIdx addr) with
  | none => simp [codeCacheFind, htbl]
  | some maybe =>
    have here : maybe ∈ xs := (coherent.tbl _ maybe htbl).1
    have live : maybe ∈ cache.heap.live := by simp [coherent.live, here]
    by_cases hkey : cache.tree.key maybe = addr
    · have hstore : cache.store (hashIdx addr) maybe = cache := by
        rw [Cache.store, ← htbl, update_eq_self]
      simp [codeCacheFind, codeCacheFindSlowStore, htbl, live, hkey, hstore,
        coherent.findSlow_present enough here hkey]
    · simp [codeCacheFind, htbl, live, hkey]

end Operations

/-! ## Whole runs -/

/-- What the CPU does to the cache. -/
inductive Operation : Cache Node → Cache Node → Prop
  | find {cache cache' ent addr node fuel} (fresh : ent ∉ cache.heap.live)
      (enough : cache.heap.live.card < fuel)
      (returned : codeCacheFind fuel ent cache addr = some (cache', node)) :
      Operation cache cache'
  | findSlowStore {cache cache' ent addr node fuel} (fresh : ent ∉ cache.heap.live)
      (enough : cache.heap.live.card < fuel)
      (returned : codeCacheFindSlowStore fuel ent cache addr = some (cache', node)) :
      Operation cache cache'
  | invalidateAll {cache} : Operation cache (codeCacheInvalidateAll cache)

inductive Step : Cache Node → Cache Node → Prop
  | operation {cache cache'} (op : Operation cache cache') : Step cache cache'
  | gc {cache cache' fuel} (enough : cache.heap.live.card ≤ fuel)
      (returned : codeCacheGc fuel cache = some cache') : Step cache cache'

variable {cache cache' later : Cache Node} {olds : List (BinaryTree Node)}
  {ent : Node} {fuel : Nat} {addr : UInt32}

theorem codeCacheFindSlowStore_eq_some :
    codeCacheFindSlowStore fuel ent cache addr = some (cache', node) ↔
      ∃ slow, codeCacheFindSlow fuel ent cache addr = some (slow, node) ∧
        cache' = slow.store (hashIdx addr) node := by
  simp only [codeCacheFindSlowStore, bind_eq_bind, bind_eq_some_iff, Prod.exists,
    pure, Option.some.injEq, Prod.mk.injEq]
  constructor
  · rintro ⟨slow, node', hfind, rfl, rfl⟩
    exact ⟨slow, hfind, rfl⟩
  · rintro ⟨slow, hfind, rfl⟩
    exact ⟨slow, node, hfind, rfl, rfl⟩

section
variable (coherent : Coherent cache xs olds)
include coherent

theorem Coherent.findSlowStore_step (fresh : ent ∉ cache.heap.live)
    (enough : cache.heap.live.card < fuel)
    (returned : codeCacheFindSlowStore fuel ent cache addr = some (cache', node)) :
    ∃ xs', Coherent cache' xs' olds := by
  obtain ⟨slow, hfind, rfl⟩ := codeCacheFindSlowStore_eq_some.mp returned
  obtain ⟨xs', found⟩ := (coherent.findSlow fresh enough).2 slow node hfind
  exact ⟨xs', found.store⟩

theorem Coherent.operation (op : Operation cache cache') :
    ∃ xs' olds', Coherent cache' xs' olds' ∧ olds.flatMap inorder ⊆ olds'.flatMap inorder := by
  cases op with
  | find fresh enough returned =>
    rw [coherent.find_eq enough] at returned
    obtain ⟨xs', coherent'⟩ := coherent.findSlowStore_step fresh enough returned
    exact ⟨xs', olds, coherent', Subset.refl _⟩
  | findSlowStore fresh enough returned =>
    obtain ⟨xs', coherent'⟩ := coherent.findSlowStore_step fresh enough returned
    exact ⟨xs', olds, coherent', Subset.refl _⟩
  | invalidateAll =>
    obtain ⟨t, -, coherent'⟩ := coherent.invalidateAll
    exact ⟨[], t :: olds, coherent', subset_append_right _ _⟩

theorem Coherent.operations (run : ReflTransGen Operation cache later) :
    ∃ xs' olds', Coherent later xs' olds' ∧ olds.flatMap inorder ⊆ olds'.flatMap inorder := by
  induction run with
  | refl => exact ⟨xs, olds, coherent, Subset.refl _⟩
  | tail _ op ih =>
    obtain ⟨xs', olds', coherent', hsub⟩ := ih
    obtain ⟨xs'', olds'', coherent'', hsub'⟩ := coherent'.operation op
    exact ⟨xs'', olds'', coherent'', Subset.trans hsub hsub'⟩

theorem Coherent.old_length_le (enough : cache.heap.live.card ≤ fuel) :
    (olds.flatMap inorder).length ≤ fuel := by
  rw [coherent.live, toFinset_card_of_nodup coherent.nodup, length_append] at enough
  omega

end

theorem run_coherent {start : Cache Node}
    (run : ReflTransGen Step (codeCacheInit start) cache) :
    ∃ xs olds, Coherent cache xs olds := by
  induction run with
  | refl => exact ⟨[], [], coherent_init start⟩
  | tail _ step ih =>
    obtain ⟨xs, olds, coherent⟩ := ih
    cases step with
    | operation op =>
      obtain ⟨xs', olds', coherent', -⟩ := coherent.operation op
      exact ⟨xs', olds', coherent'⟩
    | gc enough returned =>
      obtain ⟨cache', hgc, coherent', -⟩ := coherent.gc (coherent.old_length_le enough)
      rw [hgc] at returned
      cases returned
      exact ⟨xs, [], coherent'⟩

theorem Coherent.invalidated (coherent : Coherent cache xs olds)
    (run : ReflTransGen Operation (codeCacheInvalidateAll cache) later) (here : ent ∈ xs) :
    ent ∈ later.heap.live ∧ ∀ ys, Valid later.tree ys → ent ∉ ys := by
  obtain ⟨t, rfl, coherent'⟩ := coherent.invalidateAll
  obtain ⟨xs', olds', later', hsub⟩ := coherent'.operations run
  have hold : ent ∈ olds'.flatMap inorder := hsub (mem_append_left _ here)
  refine ⟨?_, fun ys valid hys => ?_⟩
  · rw [later'.live, List.mem_toFinset]
    exact mem_append_right _ hold
  · rw [valid.unique later'.current] at hys
    exact (nodup_append.mp later'.nodup).2.2 ent hys ent hold rfl

theorem codeCache_coherent {start cache : Cache Node}
    (run : ReflTransGen Step (codeCacheInit start) cache) :
    ∃ xs, Valid cache.tree xs ∧
      (∀ i ent, cache.codeCacheTbl i = some ent →
        ent ∈ xs ∧ ent ∈ cache.heap.live ∧ hashIdx (cache.tree.key ent) = i) ∧
      (∀ ent ∉ cache.heap.live, ∀ addr fuel, cache.heap.live.card < fuel →
        ((∃ found, codeCacheFind fuel ent cache addr = some found) ↔
          (∃ e ∈ xs, cache.tree.key e = addr) ∨ xs.length + 1 < maxEntries.toNat) ∧
        ∀ cache' node, codeCacheFind fuel ent cache addr = some (cache', node) →
          (∃ slow, codeCacheFindSlow fuel ent cache addr = some (slow, node)) ∧
          ∃ xs', Valid cache'.tree xs' ∧ xs ⊆ xs' ∧
            (∀ e ∈ xs, cache'.tree.key e = cache.tree.key e) ∧
            (∀ e, e ∈ xs' ∧ cache'.tree.key e = addr ↔ e = node) ∧
            cache'.heap.born node = cache'.heap.epoch) ∧
      (∀ later, ReflTransGen Operation (codeCacheInvalidateAll cache) later →
        ∀ ent ∈ xs, ent ∈ later.heap.live ∧ ∀ ys, Valid later.tree ys → ent ∉ ys) ∧
      (∀ fuel, cache.heap.live.card ≤ fuel →
        ∃ cache' l, codeCacheGc fuel cache = some cache' ∧ cache'.heap.live = xs.toFinset ∧
          cache'.heap.freed = cache.heap.freed ++ l ∧ l.Nodup ∧
          ∀ ent, ent ∈ l ↔ ent ∈ cache.heap.live ∧ ent ∉ xs) := by
  obtain ⟨xs, olds, coherent⟩ := run_coherent run
  refine ⟨xs, coherent.current, ?_, ?_, ?_, ?_⟩
  · intro i ent htbl
    obtain ⟨here, hash⟩ := coherent.tbl i ent htbl
    exact ⟨here, by simp [coherent.live, here], hash⟩
  · intro ent fresh addr fuel enough
    rw [coherent.find_eq enough, ← (coherent.findSlow fresh enough).1]
    refine ⟨?_, fun cache' node returned => ?_⟩
    · simp only [Prod.exists, codeCacheFindSlowStore_eq_some]
      exact ⟨fun ⟨_, node, slow, hfind, _⟩ => ⟨slow, node, hfind⟩,
        fun ⟨slow, node, hfind⟩ => ⟨_, node, slow, hfind, rfl⟩⟩
    · obtain ⟨slow, hfind, rfl⟩ := codeCacheFindSlowStore_eq_some.mp returned
      obtain ⟨xs', found⟩ := (coherent.findSlow fresh enough).2 slow node hfind
      exact ⟨⟨slow, hfind⟩, xs', found.store.current, found.sub, found.keys, found.unique,
        found.store.born node found.here⟩
  · exact fun later run' ent here => coherent.invalidated run' here
  · intro fuel enough
    obtain ⟨cache', hgc, coherent', hfrees⟩ := coherent.gc (coherent.old_length_le enough)
    obtain ⟨l, hperm, hfreed⟩ := hfrees.freed
    obtain ⟨-, hnodup, hdisjoint⟩ := nodup_append.mp coherent.nodup
    refine ⟨cache', l, hgc, by simpa using coherent'.live, hfreed, hperm.nodup_iff.mpr hnodup,
      fun ent => ?_⟩
    rw [hperm.mem_iff, coherent.live, List.mem_toFinset, mem_append]
    exact ⟨fun h => ⟨.inr h, fun h' => hdisjoint ent h' ent h rfl⟩,
      fun h => h.1.resolve_left h.2⟩

/-- One entry, an invalidation, and the collection that frees it. -/
theorem codeCache_coherent_invalidated :
    ∃ cache cache' : Cache (Fin 2), (cache.oldroot = [some 0] ∧ cache.heap.live = {0}) ∧
      codeCacheGc 1 cache = some cache' ∧ cache'.heap.live = ∅ := by
  let start : Cache (Fin 2) :=
    ⟨⟨⟨none, fun _ _ => none, fun _ => none⟩, fun _ => 0, fun _ => 0⟩, [], fun _ => none,
      ⟨∅, 0, [], 0, fun _ => 0⟩⟩
  have first := ReflTransGen.single (Step.operation
    (@Operation.find _ _ (codeCacheInit start) _ 0 0x8c010000 _ 2 (by decide) (by decide) rfl))
  have run := first.tail (Step.operation Operation.invalidateAll)
  obtain ⟨xs, valid, -, -, -, gc⟩ := codeCache_coherent run
  obtain rfl : xs = [] := valid.unique (coherent_init _).current
  obtain ⟨cache', l, hgc, hlive, -⟩ := gc 1 (by decide)
  exact ⟨_, cache', ⟨rfl, by decide⟩, hgc, hlive⟩

end CodeCache
