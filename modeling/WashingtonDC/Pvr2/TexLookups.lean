import WashingtonDC.Pvr2.TexCoherence

/-!
# Looking for textures by their arguments

`on_pkt_hdr_received` looks for the texture of a header and adds it if it is not found. The entries
of the cache are those of the arguments with which they were added: they are found by the same
arguments and by no others, and there is one entry for the same arguments. For a set of arguments this
holds in every run if and only if the comparison of `pvr2_tex_cache_find` is equality on the set. It
does not compare the stride, and it looks for the code book of a texture that is not square, which
`pvr2_tex_cache_add` has disabled.
-/
namespace Pvr2

open Function List Option TexSystem
open ByteMemory (Memory)

deriving instance DecidableEq for TexParams

/-- The comparison of `pvr2_tex_cache_find` with an entry that was added with the arguments `q`. -/
def TexParams.Matches (p q : TexParams) : Prop :=
  q.texAddr = p.texAddr ∧ q.texWidthShift = p.texWidthShift ∧ q.texHeightShift = p.texHeightShift ∧
    TexCtrlPixFmt.ofBits q.pixFmt = .ofBits p.pixFmt ∧ q.texTwiddle = p.texTwiddle ∧
    (q.texVqCompression && q.texWidthShift == q.texHeightShift) = p.texVqCompression ∧
    p.texMipmap = q.texMipmap ∧
    ((TexCtrlPixFmt.ofBits p.pixFmt).isPaletted = true → p.texPaletteStart = q.texPaletteStart)

def TexAction.isLookup : TexAction → Bool
  | .find _ | .add _ => true
  | _ => false

/-- A header with a texture, or something else that changes the cache. -/
inductive TexEvent
  | request (r : TexRequest)
  | other (a : TexAction) (plain : a.isLookup = false)

/-- The cache, and the arguments of the last call that added a texture to each slot. -/
structure TexLookups where
  sys : TexSystem
  args : Nat → TexParams

namespace TexLookups

def Entry (h : TexLookups) (idx : Nat) (p : TexParams) : Prop :=
  (∃ tex ∈ h.sys.texCache[idx]?, tex.valid = true) ∧ h.args idx = p

instance (h : TexLookups) (idx : Nat) (p : TexParams) : Decidable (h.Entry idx p) :=
  inferInstanceAs (Decidable ((∃ _ ∈ h.sys.texCache[idx]?, _) ∧ _))

/-- The part of `on_pkt_hdr_received` for a header with a texture. -/
def request (h : TexLookups) (p : TexParams) : Option TexLookups :=
  match h.sys.pvr2TexCacheFind p with
  | (some _, s) => some { h with sys := s }
  | (none, s) => (s.pvr2TexCacheAdd p).map fun
    | (some idx, s) => ⟨s, update h.args idx p⟩
    | (none, s) => { h with sys := s }

def step (h : TexLookups) : TexEvent → Option TexLookups
  | .request r => h.request r.params
  | .other a _ => (h.sys.act a).map fun s => { h with sys := s }

/-- The arguments are keys of the entries. -/
structure Keyed (K : Set TexRequest) (h : TexLookups) : Prop where
  finds : ∀ idx p, h.Entry idx p → (h.sys.pvr2TexCacheFind p).1 = some idx
  found : ∀ r ∈ K, ∀ idx, (h.sys.pvr2TexCacheFind r.params).1 = some idx → h.Entry idx r.params
  distinct : ∀ idx idx' p, h.Entry idx p → h.Entry idx' p → idx = idx'

end TexLookups

/-! ## What the slots keep -/

def TexSystem.Keeps (s s' : TexSystem) : Prop :=
  ∀ (idx : Nat) (tex' : Tex), s'.texCache[idx]? = some tex' → tex'.valid = true →
    ∃ tex, s.texCache[idx]? = some tex ∧ tex.valid = true ∧ tex.texMeta = tex'.texMeta

namespace TexSystem

variable {s s' : TexSystem}

theorem keeps_of_texCache (same : s'.texCache = s.texCache) : s.Keeps s' := by
  intro idx tex' htex' hvalid
  exact ⟨tex', same ▸ htex', hvalid, rfl⟩

theorem keeps_notifyPaletteTpChange (s : TexSystem) : s.Keeps s.notifyPaletteTpChange := by
  intro idx tex' htex' hvalid
  rw [notifyPaletteTpChange, getElem?_map] at htex'
  obtain ⟨tex, htex, rfl⟩ := map_eq_some_iff.mp htex'
  refine ⟨tex, htex, ?_⟩
  split
  · rename_i hready
    exact ⟨valid_of_ready hready.1, rfl⟩
  · rename_i hsame
    rw [if_neg hsame] at hvalid
    exact ⟨hvalid, rfl⟩

theorem keeps_xmit (sent : s.pvr2TexCacheXmit = some s') : s.Keeps s' := by
  obtain ⟨texCache, hmap, rfl⟩ := map_eq_some_iff.mp sent
  intro idx tex' htex' hvalid
  obtain ⟨tex, htex, hsent⟩ := getElem?_of_mapM_eq_some hmap htex'
  refine ⟨tex, htex, ?_⟩
  rcases xmitTex_cases hsent with ⟨-, rfl⟩ | rfl | ⟨hneed, hupload⟩
  · exact ⟨hvalid, rfl⟩
  · simp [Tex.valid] at hvalid
  · obtain ⟨pixFmt, dat, obj, -, -, -, rfl⟩ := upload_eq_some hupload
    refine ⟨?_, rfl⟩
    cases hstate : tex.state <;> simp_all [Tex.valid, needUpdate]

theorem keeps_act {a : TexAction} (plain : a.isLookup = false) (acted : s.act a = some s') :
    s.Keeps s' := by
  cases a with
  | write w =>
    refine keeps_of_texCache ?_
    simp only [act, TexSystem.write] at acted
    split at acted
    · cases acted
      rfl
    · cases acted
  | writePalette idx val =>
    cases acted
    exact keeps_notifyPaletteTpChange { s with palRam := _ }
  | writePaletteTp val =>
    cases acted
    exact keeps_notifyPaletteTpChange { s with paletteTp := val }
  | find p => cases plain
  | add r => cases plain
  | xmit => exact keeps_xmit acted
  | advance _ | nextFrame =>
    cases acted
    exact keeps_of_texCache rfl

theorem keeps_find (s : TexSystem) (p : TexParams) : s.Keeps (s.pvr2TexCacheFind p).2 := by
  rw [pvr2TexCacheFind]
  split
  · intro idx tex' htex' hvalid
    rw [getElem?_modify] at htex'
    obtain ⟨tex, htex, rfl⟩ := map_eq_some_iff.mp htex'
    refine ⟨tex, htex, ?_⟩
    split at hvalid
    · split
      · exact ⟨hvalid, rfl⟩
      · contradiction
    · split
      · contradiction
      · exact ⟨hvalid, rfl⟩
  · exact keeps_of_texCache rfl

end TexSystem

/-! ## The comparison -/

variable {paletteTp : UInt32}

theorem sameTexture_iff {p q : TexParams} {tex : Tex}
    (made : addMeta q paletteTp = some tex.texMeta) :
    sameTexture p tex = true ↔ tex.valid = true ∧ p.Matches q := by
  obtain ⟨pixFmt, -, made⟩ := bind_eq_some_iff.mp made
  obtain ⟨extent, -, made⟩ := bind_eq_some_iff.mp made
  have hmeta := Option.some.inj made
  simp only [sameTexture, ← hmeta, newMeta, TexParams.Matches, Bool.and_eq_true, beq_iff_eq,
    Bool.or_eq_true, Bool.not_eq_true', and_assoc]
  cases (TexCtrlPixFmt.ofBits p.pixFmt).isPaletted <;> simp

theorem isSome_addMeta {p : TexParams} {m : TexMeta}
    (made : addMeta p paletteTp = some m) : (addMeta p 0).isSome = true := by
  obtain ⟨pixFmt, hpixFmt, made⟩ := bind_eq_some_iff.mp made
  obtain ⟨extent, hextent, -⟩ := bind_eq_some_iff.mp made
  obtain ⟨pixFmt', hpixFmt'⟩ : ∃ pixFmt', newPixFmt 0 (.ofBits p.pixFmt) = some pixFmt' := by
    rw [newPixFmt] at hpixFmt ⊢
    split
    · exact ⟨.argb1555, rfl⟩
    · rename_i hplain
      rw [if_neg hplain] at hpixFmt
      exact ⟨pixFmt, hpixFmt⟩
  have hextent' : (newMeta p pixFmt').extent = some extent := hextent
  simp [addMeta, hpixFmt', hextent']

namespace TexLookups

variable {K : Set TexRequest} {h h' : TexLookups}

theorem find_fst (s : TexSystem) (p : TexParams) :
    (s.pvr2TexCacheFind p).1 = s.texCache.findIdx? (sameTexture p) := by
  rw [TexSystem.pvr2TexCacheFind]
  split
  · rename_i hidx
    exact hidx.symm
  · rename_i hnone
    exact hnone.symm

/-- On the set the comparison is equality, for the textures that can be added. -/
def Separated (K : Set TexRequest) : Prop :=
  ∀ r ∈ K, ∀ r' ∈ K, (addMeta r'.params 0).isSome = true →
    (r.params.Matches r'.params ↔ r.params = r'.params)

/-- The textures of the slots were made from the arguments, each from others. -/
structure Filed (K : Set TexRequest) (h : TexLookups) : Prop where
  made : ∀ idx p tex, h.sys.texCache[idx]? = some tex → tex.valid = true → h.args idx = p →
    ∃ r ∈ K, r.params = p ∧ ∃ paletteTp, addMeta p paletteTp = some tex.texMeta
  distinct : ∀ idx idx' p, h.Entry idx p → h.Entry idx' p → idx = idx'

section
variable (filed : h.Filed K)
include filed

theorem Filed.keeps (keeps : h.sys.Keeps h'.sys) (same : h'.args = h.args) : h'.Filed K := by
  have hentry : ∀ {idx p}, h'.Entry idx p → h.Entry idx p := by
    rintro idx p ⟨⟨tex', htex', hvalid⟩, hargs⟩
    obtain ⟨tex, htex, hvalid, -⟩ := keeps idx tex' htex' hvalid
    exact ⟨⟨tex, htex, hvalid⟩, same ▸ hargs⟩
  refine ⟨?_, fun idx idx' p hidx hidx' => filed.distinct idx idx' p (hentry hidx) (hentry hidx')⟩
  intro idx p tex' htex' hvalid hargs
  obtain ⟨tex, htex, hvalid, hmeta⟩ := keeps idx tex' htex' hvalid
  rw [← hmeta]
  exact filed.made idx p tex htex hvalid (same ▸ hargs)

section
variable (separated : Separated K)
include separated

variable {r : TexRequest}

theorem Filed.sameTexture_iff (hr : r ∈ K) {idx : Nat} {tex : Tex}
    (htex : h.sys.texCache[idx]? = some tex) :
    sameTexture r.params tex = true ↔ tex.valid = true ∧ h.args idx = r.params := by
  by_cases hvalid : tex.valid = true
  · obtain ⟨r', hr', hparams, paletteTp, hmeta⟩ := filed.made idx _ tex htex hvalid rfl
    rw [Pvr2.sameTexture_iff hmeta, ← hparams,
      separated r hr r' hr' (isSome_addMeta (hparams ▸ hmeta)), @eq_comm _ r.params]
  · have hsame : sameTexture r.params tex = false := by
      simp [sameTexture, hvalid]
    simp [hsame, hvalid]

theorem Filed.keyed : h.Keyed K := by
  refine ⟨?_, ?_, filed.distinct⟩
  · rintro idx p ⟨⟨tex, htex, hvalid⟩, hargs⟩
    obtain ⟨r, hr, rfl, -⟩ := filed.made idx p tex htex hvalid hargs
    obtain ⟨hidx, rfl⟩ := List.getElem?_eq_some_iff.mp htex
    rw [find_fst, findIdx?_eq_some_iff_getElem]
    refine ⟨hidx, (filed.sameTexture_iff separated hr htex).mpr ⟨hvalid, hargs⟩, ?_⟩
    -- an earlier slot with the same arguments would be the same slot
    intro j hj hsame
    have hget := getElem?_eq_getElem (hj.trans hidx)
    obtain ⟨hvalid', hargs'⟩ := (filed.sameTexture_iff separated hr hget).mp hsame
    have heq := filed.distinct j idx _ ⟨⟨_, hget, hvalid'⟩, hargs'⟩ ⟨⟨_, htex, hvalid⟩, hargs⟩
    omega
  · intro r hr idx hfind
    rw [find_fst, findIdx?_eq_some_iff_getElem] at hfind
    obtain ⟨hidx, hsame, -⟩ := hfind
    have hget := getElem?_eq_getElem hidx
    obtain ⟨hvalid, hargs⟩ := (filed.sameTexture_iff separated hr hget).mp hsame
    exact ⟨⟨_, hget, hvalid⟩, hargs⟩

theorem Filed.add (hr : r ∈ K) (hnone : (h.sys.pvr2TexCacheFind r.params).1 = none)
    {idx : Nat} {s : TexSystem} (added : h.sys.pvr2TexCacheAdd r.params = some (some idx, s)) :
    Filed K ⟨s, update h.args idx r.params⟩ := by
  have hnot : ∀ j, ¬h.Entry j r.params := by
    intro j hentry
    rw [(filed.keyed separated).finds j _ hentry] at hnone
    cases hnone
  obtain ⟨texMeta, hmeta, rfl⟩ := pvr2TexCacheAdd_eq_some added
  generalize htex : (⟨0, texMeta, none, h.sys.frameStamp, .dirty⟩ : Tex) = new
  -- the arguments of this slot are new, the other slots are as before
  have hargs : ∀ {p}, update h.args idx r.params idx = p → r.params = p :=
    fun heq => (update_self _ _ _).symm.trans heq
  have hother : ∀ {j p}, j ≠ idx → Entry ⟨{ h.sys with texCache := h.sys.texCache.set idx new },
      update h.args idx r.params⟩ j p → h.Entry j p := by
    rintro j p hne ⟨⟨tex, hget, hvalid⟩, heq⟩
    rw [getElem?_set_ne hne.symm] at hget
    exact ⟨⟨tex, hget, hvalid⟩, (update_of_ne hne _ _).symm.trans heq⟩
  refine ⟨?_, ?_⟩
  · intro j p tex hget hvalid heq
    by_cases hj : j = idx
    · subst hj
      obtain ⟨hlt, hset⟩ := List.getElem?_eq_some_iff.mp hget
      rw [getElem_set_self] at hset
      refine ⟨r, hr, hargs heq, h.sys.paletteTp, ?_⟩
      rw [← hargs heq, hmeta, ← hset, ← htex]
    · rw [getElem?_set_ne (Ne.symm hj)] at hget
      exact filed.made j p tex hget hvalid ((update_of_ne hj _ _).symm.trans heq)
  · intro j j' p hj hj'
    by_cases hjs : j = idx
    · subst hjs
      by_contra hne
      exact hnot j' (hargs hj.2 ▸ hother (Ne.symm hne) hj')
    · by_cases hjs' : j' = idx
      · subst hjs'
        exact absurd (hargs hj'.2 ▸ hother hjs hj) (hnot j)
      · exact filed.distinct j j' p (hother hjs hj) (hother hjs' hj')

theorem Filed.request (hr : r ∈ K) (requested : h.request r.params = some h') :
    h'.Filed K := by
  have hkeeps := h.sys.keeps_find r.params
  rw [TexLookups.request] at requested
  split at requested
  · rename_i idx s hfind
    cases requested
    rw [hfind] at hkeeps
    exact filed.keeps hkeeps rfl
  · rename_i s hfind
    obtain ⟨⟨slot, s'⟩, hadd, hadded⟩ := map_eq_some_iff.mp requested
    -- the search has changed nothing
    have hs : s = h.sys := by
      rw [TexSystem.pvr2TexCacheFind] at hfind
      split at hfind
      · cases hfind
      · exact (Prod.mk.inj hfind).2.symm
    subst hs
    cases slot with
    | none =>
      cases hadded
      refine filed.keeps ?_ rfl
      rw [pvr2TexCacheAdd_eq_none hadd]
      exact TexSystem.keeps_of_texCache rfl
    | some idx =>
      cases hadded
      refine filed.add separated hr ?_ hadd
      rw [hfind]

end

end

theorem filed_init (K : Set TexRequest) (clk : Nat) (frameStamp : UInt32) (mem : TexArea → Memory)
    (palRam : Memory) (paletteTp : UInt32) (args : Nat → TexParams) :
    Filed K ⟨init clk frameStamp mem palRam paletteTp, args⟩ := by
  have hinvalid : ∀ {idx : Nat} {tex : Tex},
      (init clk frameStamp mem palRam paletteTp).texCache[idx]? = some tex →
        tex.valid = false := by
    intro idx tex htex
    rw [eq_of_mem_replicate (mem_of_getElem? htex)]
    rfl
  refine ⟨?_, ?_⟩
  · intro idx p tex htex hvalid
    rw [hinvalid htex] at hvalid
    cases hvalid
  · rintro idx idx' p ⟨⟨tex, htex, hvalid⟩, -⟩
    rw [hinvalid htex] at hvalid
    cases hvalid

theorem request_init {p : TexParams} (clk : Nat) (frameStamp : UInt32) (mem : TexArea → Memory)
    (palRam : Memory) (args : Nat → TexParams) {m : TexMeta}
    (made : addMeta p paletteTp = some m) :
    ∃ h tex, request ⟨init clk frameStamp mem palRam paletteTp, args⟩ p = some h ∧
      h.sys.texCache[0]? = some tex ∧ tex.valid = true ∧ tex.texMeta = m ∧ h.args 0 = p := by
  have hfind : (init clk frameStamp mem palRam paletteTp).pvr2TexCacheFind p =
      (none, init clk frameStamp mem palRam paletteTp) := by
    have hnone : (init clk frameStamp mem palRam paletteTp).texCache.findIdx?
        (sameTexture p) = none := by
      rw [findIdx?_eq_none_iff]
      intro tex htex
      rw [eq_of_mem_replicate htex]
      rfl
    rw [TexSystem.pvr2TexCacheFind, hnone]
  have hslot : (init clk frameStamp mem palRam paletteTp).newSlot = some 0 := rfl
  have hmade : addMeta p (init clk frameStamp mem palRam paletteTp).paletteTp = some m :=
    made
  simp only [request, hfind, pvr2TexCacheAdd, hslot, hmade, map_some]
  refine ⟨_, _, rfl, rfl, rfl, rfl, ?_⟩
  exact @update_self Nat (fun _ => TexParams) _ 0 p args

/-- In every run the entries are found by their own arguments and by no others, and are different, if
and only if the comparison is equality on the arguments. -/
theorem run_keyed_iff (K : Set TexRequest) :
    (∀ clk frameStamp mem palRam paletteTp args, ∀ events : List TexEvent,
        (∀ r, .request r ∈ events → r ∈ K) →
        ∀ h, events.foldlM step ⟨init clk frameStamp mem palRam paletteTp, args⟩ = some h →
          h.Keyed K) ↔ Separated K := by
  constructor
  · intro hkeyed r hr r' hr' hsome
    obtain ⟨m, hm⟩ := isSome_iff_exists.mp hsome
    obtain ⟨h, tex, hrequest, htex, hvalid, hmeta, hargs⟩ :=
      request_init 0 0 (fun _ _ => 0) (fun _ => 0) (fun _ => r'.params) hm
    have keyed : h.Keyed K := by
      refine hkeyed 0 0 (fun _ _ => 0) (fun _ => 0) 0 (fun _ => r'.params) [.request r'] ?_ h ?_
      · intro r'' hmem
        cases mem_singleton.mp hmem
        exact hr'
      · rw [foldlM_cons, step, hrequest]
        rfl
    have hentry : h.Entry 0 r'.params := ⟨⟨tex, htex, hvalid⟩, hargs⟩
    obtain ⟨hlt, hzero⟩ := List.getElem?_eq_some_iff.mp htex
    have hsame := @sameTexture_iff 0 r.params r'.params tex (hmeta ▸ hm)
    have hfirst : (h.sys.pvr2TexCacheFind r.params).1 = some 0 ↔ r.params.Matches r'.params := by
      rw [find_fst, findIdx?_eq_some_iff_getElem]
      constructor
      · rintro ⟨_, hfirst, -⟩
        exact (hsame.mp (hzero ▸ hfirst)).2
      · intro hmatches
        refine ⟨hlt, ?_, fun j hj => absurd hj (Nat.not_lt_zero j)⟩
        rw [hzero]
        exact hsame.mpr ⟨hvalid, hmatches⟩
    constructor
    · intro hmatches
      have hfound := keyed.found r hr 0 (hfirst.mpr hmatches)
      rw [← hfound.2, hargs]
    · intro heq
      refine hfirst.mp ?_
      rw [heq]
      exact keyed.finds 0 _ hentry
  · intro separated clk frameStamp mem palRam paletteTp args events hevents h hrun
    refine Filed.keyed ?_ separated
    refine Lockstep.foldlM_invariant ?_ hrun (filed_init K clk frameStamp mem palRam paletteTp args)
    intro h event h' hmem hstep filed
    cases event with
    | request r => exact filed.request separated (hevents r hmem) hstep
    | other a plain =>
      obtain ⟨s, hact, rfl⟩ := map_eq_some_iff.mp hstep
      exact filed.keeps (TexSystem.keeps_act plain hact) rfl

def wideTexture (pixFmt : Fin 8) : TexParams :=
  { smallTexture 0 pixFmt true false with texWidthShift := 4, texVqCompression := true }

theorem wideTexture_sized (pixFmt : Fin 8) :
    let p := wideTexture pixFmt
    (3 ≤ p.texWidthShift ∧ p.texWidthShift ≤ 10) ∧ (3 ≤ p.texHeightShift ∧ p.texHeightShift ≤ 10) ∧
      p.texPaletteStart < 64 := by
  decide +revert

def wideRequest (pixFmt : Fin 8) : TexRequest :=
  ⟨wideTexture pixFmt, (wideTexture_sized pixFmt).1, (wideTexture_sized pixFmt).2.1,
    fun _ => (wideTexture_sized pixFmt).2.2⟩

/-- The texture that is not square is added twice and is not found. A texture is found that was added
with another stride. -/
theorem run_not_keyed :
    let wide := wideRequest ⟨0, by decide⟩
    let small := smallRequest 0 ⟨0, by decide⟩ false false
    let strided := { small.params with strideSel := true }
    let start : TexLookups := ⟨blank, fun _ => small.params⟩
    (∃ h ∈ [.request wide, .request wide].foldlM step start,
        h.Entry 0 wide.params ∧ h.Entry 1 wide.params ∧
          (h.sys.pvr2TexCacheFind wide.params).1 = none) ∧
      ∃ h ∈ [.request small].foldlM step start,
        h.Entry 0 small.params ∧ small.params ≠ strided ∧
          (h.sys.pvr2TexCacheFind strided).1 = some 0 := by
  decide +kernel

end TexLookups

end Pvr2
