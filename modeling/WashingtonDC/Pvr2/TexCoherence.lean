import WashingtonDC.Pvr2.TexCache

/-!
# What the host has of the textures

After a transmission the host has the pixels of each texture that is used in the current frame, as
texture memory and the palette have them at that moment. This needs that a write to a texture is
later than its last transmission: page stamps are compared strictly, so that a write in the same
cycle is lost. It also needs that a write to a texture with mipmaps and a code book is not behind
the pages that the program takes the texture to have. The format of a paletted texture is not sent
again when the type of the palette changes.
-/
namespace Pvr2

open Option List UInt32 Lockstep
open ByteMemory (Memory)

/-! ## Runs -/

inductive TexAction
  | write (w : TexWrite)
  | writePalette (idx : Fin 1024) (val : UInt32)
  | writePaletteTp (val : UInt32)
  | find (p : TexParams)
  | add (r : TexRequest)
  | xmit
  | advance (cycles : Nat)
  | nextFrame

structure TexMoved where
  action : TexAction
  before : TexSystem
  after : TexSystem

namespace TexSystem

variable (s : TexSystem)

def act : TexAction → Option TexSystem
  | .write w => s.write w
  | .writePalette idx val => some (s.writePalette idx val)
  | .writePaletteTp val => some (s.writePaletteTp val)
  | .find p => some (s.pvr2TexCacheFind p).2
  | .add r => (s.pvr2TexCacheAdd r.params).map Prod.snd
  | .xmit => s.pvr2TexCacheXmit
  | .advance cycles => some { s with clk := s.clk + cycles }
  | .nextFrame => some { s with frameStamp := s.frameStamp + 1 }

def step (a : TexAction) : Option (TexMoved × TexSystem) :=
  (s.act a).map fun s' => (⟨a, s, s'⟩, s')

def HasPixels (tex : Tex) : Prop :=
  tex.obj.isSome = true ∧ s.read tex.texMeta = tex.obj.map GfxObj.dat

instance (tex : Tex) : Decidable (s.HasPixels tex) := inferInstanceAs (Decidable (_ ∧ _))

def HasFormat (tex : Tex) : Prop :=
  ∀ obj ∈ tex.obj, s.pixFmt tex.texMeta = some obj.pixFmt

instance (tex : Tex) : Decidable (s.HasFormat tex) :=
  inferInstanceAs (Decidable (∀ _ ∈ tex.obj, _))

def used : List Tex :=
  s.texCache.filter fun tex => tex.valid && tex.frameStampLastUsed == s.frameStamp

end TexSystem

namespace TexMoved

variable (m : TexMoved)

/-- After a transmission the host has the pixels of the textures that are used. -/
def HasPixels : Prop :=
  match m.action with
  | .xmit => ∀ tex ∈ m.after.used, m.after.HasPixels tex
  | _ => True

instance : (m : TexMoved) → Decidable m.HasPixels
  | ⟨.xmit, _, after⟩ => inferInstanceAs (Decidable (∀ tex ∈ after.used, after.HasPixels tex))
  | ⟨.write _, _, _⟩ | ⟨.writePalette _ _, _, _⟩ | ⟨.writePaletteTp _, _, _⟩ | ⟨.find _, _, _⟩
  | ⟨.add _, _, _⟩ | ⟨.advance _, _, _⟩ | ⟨.nextFrame, _, _⟩ => .isTrue trivial

def HasFormats : Prop :=
  match m.action with
  | .xmit => ∀ tex ∈ m.after.used, m.after.HasFormat tex
  | _ => True

instance : (m : TexMoved) → Decidable m.HasFormats
  | ⟨.xmit, _, after⟩ => inferInstanceAs (Decidable (∀ tex ∈ after.used, after.HasFormat tex))
  | ⟨.write _, _, _⟩ | ⟨.writePalette _ _, _, _⟩ | ⟨.writePaletteTp _, _, _⟩ | ⟨.find _, _, _⟩
  | ⟨.add _, _, _⟩ | ⟨.advance _, _, _⟩ | ⟨.nextFrame, _, _⟩ => .isTrue trivial

/-- A write to a texture of the host is later than its transmission, and not after the pages of a
texture with mipmaps and a code book. -/
def Fits : Prop :=
  match m.action with
  | .write w => w.area = .tex64 → ∀ tex ∈ m.before.texCache, tex.state = .ready →
      ∀ b ∈ w.written, tex.texMeta.Reads b.2 →
        tex.lastUpdate < m.before.clk ∧
          (tex.texMeta.vqCompression = true → tex.texMeta.mipmap = true →
            b.2 / texPageSize ≤ tex.texMeta.addrLast.toNat / texPageSize)
  | _ => True

instance : (m : TexMoved) → Decidable m.Fits
  | ⟨.write w, before, _⟩ =>
    inferInstanceAs (Decidable (w.area = .tex64 → ∀ tex ∈ before.texCache, tex.state = .ready →
      ∀ b ∈ w.written, tex.texMeta.Reads b.2 →
        tex.lastUpdate < before.clk ∧
          (tex.texMeta.vqCompression = true → tex.texMeta.mipmap = true →
            b.2 / texPageSize ≤ tex.texMeta.addrLast.toNat / texPageSize)))
  | ⟨.xmit, _, _⟩ | ⟨.writePalette _ _, _, _⟩ | ⟨.writePaletteTp _, _, _⟩ | ⟨.find _, _, _⟩
  | ⟨.add _, _, _⟩ | ⟨.advance _, _, _⟩ | ⟨.nextFrame, _, _⟩ => .isTrue trivial

/-- The type of the palette changes only while the host has no paletted texture. -/
def KeepsPaletteTp : Prop :=
  match m.action with
  | .writePaletteTp val => val = m.before.paletteTp ∨
      ∀ tex ∈ m.before.texCache, tex.texMeta.texFmt.isPaletted = true → tex.obj = none
  | _ => True

end TexMoved

/-! ## Where a texture ends -/

/-- The metadata is that of a request. -/
structure TexMeta.Made (m : TexMeta) : Prop where
  wide : 3 ≤ m.wShift
  ends : ∃ extent ∈ m.extent, m.addrLast = m.addrFirst - 1 + ofNat extent

theorem TexRequest.made {r : TexRequest} {paletteTp : UInt32} {m : TexMeta}
    (added : addMeta r.params paletteTp = some m) : m.Made := by
  obtain ⟨pixFmt, -, added⟩ := bind_eq_some_iff.mp added
  obtain ⟨extent, hextent, hm⟩ := bind_eq_some_iff.mp added
  cases hm
  exact ⟨r.widthShift.1, extent, hextent, rfl⟩

namespace TexMeta

variable {m : TexMeta} {i extent : Nat}

theorem quarter {shift : Nat} (le : 1 ≤ shift) :
    (1 <<< shift) * (1 <<< shift) / 4 = (1 <<< (shift - 1)) * (1 <<< (shift - 1)) := by
  have hdouble : 1 <<< shift = 2 * 1 <<< (shift - 1) := one_shiftLeft_of_le le
  have hsquare : (1 <<< shift) * (1 <<< shift) =
      4 * ((1 <<< (shift - 1)) * (1 <<< (shift - 1))) := by
    rw [hdouble]
    ring
  rw [hsquare, Nat.mul_div_cancel_left _ (by decide)]

variable {beg : Nat}

theorem extent_eq_of_plain (plain : m.vqCompression = false) (hextent : m.extent = some extent)
    (hbeg : m.beg = some beg) (some_bytes : 0 < m.srcLen) :
    m.addrFirst.toNat + extent = beg + m.srcLen := by
  have hlen : (if m.texFmt = .pal4Bpp then (1 <<< m.wShift) * (1 <<< m.hShift) / 2
      else m.texFmt.pixelSize * (1 <<< m.wShift) * (1 <<< m.hShift)) = m.srcLen := by
    simp only [srcLen, plain, Bool.false_eq_true, if_false] at some_bytes ⊢
    by_cases hfmt : m.texFmt = .pal4Bpp
    · simp only [nBytes, if_pos hfmt, getD_some]
    · by_cases hsize : m.texFmt.pixelSize = 0
      · simp [nBytes, hfmt, hsize] at some_bytes
      · simp only [nBytes, if_neg hfmt, if_neg hsize, getD_some]
        ring
  simp only [TexMeta.extent, plain, Bool.false_eq_true, if_false, hlen] at hextent
  simp only [TexMeta.beg, plain, Bool.false_eq_true, if_false] at hbeg
  by_cases hmipmap : m.mipmap = true
  · by_cases hsquare : m.wShift = m.hShift
    · simp only [if_pos hmipmap, hsquare, ne_eq, not_true_eq_false, if_false] at hextent hbeg
      split at hbeg
      · cases hbeg
      · obtain ⟨offs, hoffs, rfl⟩ := map_eq_some_iff.mp hbeg
        rw [hoffs, map_some, Option.some.injEq] at hextent
        omega
    · simp [hmipmap, hsquare] at hextent
  · simp only [if_neg hmipmap, Option.some.injEq] at hextent hbeg
    omega

theorem addrFirst_le_beg (hbeg : m.beg = some beg) : m.addrFirst.toNat ≤ beg := by
  simp only [TexMeta.beg] at hbeg
  split_ifs at hbeg
  · obtain ⟨offs, -, rfl⟩ := map_eq_some_iff.mp hbeg
    omega
  · obtain ⟨offs, -, rfl⟩ := map_eq_some_iff.mp hbeg
    omega
  · cases hbeg
    omega
  · cases hbeg
    exact le_refl _

theorem Reads.addrFirst_le (reads : m.Reads i) : m.addrFirst.toNat ≤ i := by
  rcases reads with ⟨-, hge, -⟩ | ⟨beg, hbeg, hge, -⟩
  · exact hge
  · exact (addrFirst_le_beg hbeg).trans hge

theorem extent_eq_of_codeBook (wide : 1 ≤ m.wShift) (hvq : m.vqCompression = true)
    (hextent : m.extent = some extent) : extent = codeBookLen + m.srcLen := by
  have hquarter : extent = codeBookLen + (1 <<< m.wShift) * (1 <<< m.wShift) / 4 := by
    simpa [TexMeta.extent, hvq] using hextent.symm
  rw [hquarter, quarter wide, srcLen, if_pos hvq]

theorem beg_of_codeBook (hvq : m.vqCompression = true) (hmipmap : m.mipmap = false) :
    m.beg = some (m.addrFirst.toNat + codeBookLen) := by
  simp only [beg, hvq, hmipmap, Bool.false_eq_true, if_false, if_true]

theorem extent_eq (wide : 1 ≤ m.wShift) (single : m.vqCompression = true → m.mipmap = false)
    (hextent : m.extent = some extent) (hbeg : m.beg = some beg)
    (some_bytes : 0 < m.srcLen) : m.addrFirst.toNat + extent = beg + m.srcLen := by
  cases hvq : m.vqCompression with
  | true =>
    cases (beg_of_codeBook hvq (single hvq)).symm.trans hbeg
    rw [extent_eq_of_codeBook wide hvq hextent, add_assoc]
  | false => exact extent_eq_of_plain hvq hextent hbeg some_bytes

theorem Reads.lt_extent (reads : m.Reads i) (wide : 1 ≤ m.wShift)
    (single : m.vqCompression = true → m.mipmap = false) (hextent : m.extent = some extent) :
    i < m.addrFirst.toNat + extent := by
  obtain ⟨hvq, -, hlt⟩ | ⟨beg, hbeg, hge, hlt⟩ := reads
  · rw [extent_eq_of_codeBook wide hvq hextent]
    omega
  · rw [extent_eq wide single hextent hbeg (by omega)]
    exact hlt

theorem addrLast_add_one (hlast : m.addrLast = m.addrFirst - 1 + ofNat extent)
    (pos : 0 < extent) (le : m.addrFirst.toNat + extent ≤ TexArea.len) :
    m.addrLast.toNat + 1 = m.addrFirst.toNat + extent := by
  have hsum : m.addrLast.toNat = (m.addrFirst.toNat + (2 ^ 32 - 1) + extent) % 2 ^ 32 := by
    rw [hlast, UInt32.toNat_add, UInt32.toNat_sub, toNat_ofNat']
    simp only [reduceToNat]
    omega
  simp only [TexArea.len] at le
  omega

theorem Reads.le_addrLast (reads : m.Reads i) (made : m.Made) (inMemory : m.InMemory)
    (single : m.vqCompression = true → m.mipmap = false) : i ≤ m.addrLast.toNat := by
  obtain ⟨extent, hextent, hlast⟩ := made.ends
  have wide : 1 ≤ m.wShift := le_trans (by decide) made.wide
  have hlt := reads.lt_extent wide single hextent
  have hend : m.addrFirst.toNat + extent ≤ TexArea.len := by
    obtain ⟨hvq, -, -⟩ | ⟨beg, hbeg, hge, hlt'⟩ := reads
    · have hin := inMemory _ (beg_of_codeBook hvq (single hvq))
      rw [extent_eq_of_codeBook wide hvq hextent]
      omega
    · rw [extent_eq wide single hextent hbeg (by omega)]
      exact inMemory beg hbeg
  have hpos : 0 < extent := by
    have hfirst := reads.addrFirst_le
    omega
  have hsum := addrLast_add_one hlast hpos hend
  omega

end TexMeta

theorem TexWrite.page_of_mem_written {w : TexWrite} {b : TexArea × Nat} (mem : b ∈ w.written)
    (harea : w.area = .tex64) :
    (TexSystem.writePages w.addr.toNat w.size.bytes).1 ≤ b.2 / texPageSize ∧
      b.2 / texPageSize ≤ (TexSystem.writePages w.addr.toNat w.size.bytes).2 := by
  obtain ⟨-, hge, hlt⟩ := TexWrite.mem_written.mp mem
  simp only [TexSystem.writePages, TexWrite.index, texPageSize, harea] at hge hlt ⊢
  cases hsize : w.size <;> simp only [hsize, TexSize.bytes] at hge hlt ⊢ <;> omega

/-! ## Transmissions -/

section
variable {α β : Type} {f : α → Option β} {as : List α} {bs : List β} {b : β}
  (mapped : as.mapM f = some bs)
include mapped

theorem getElem?_of_mapM_eq_some {idx : Nat} (hb : bs[idx]? = some b) :
    ∃ a, as[idx]? = some a ∧ f a = some b := by
  induction as generalizing bs idx with
  | nil =>
    cases mapped
    cases hb
  | cons a as ih =>
    rw [mapM_cons] at mapped
    obtain ⟨c, hc, mapped⟩ := bind_eq_some_iff.mp mapped
    obtain ⟨cs, hcs, mapped⟩ := bind_eq_some_iff.mp mapped
    cases mapped
    cases idx with
    | zero =>
      cases hb
      exact ⟨a, rfl, hc⟩
    | succ idx => exact ih hcs hb

theorem mem_of_mapM_eq_some (mem : b ∈ bs) : ∃ a ∈ as, f a = some b := by
  obtain ⟨idx, hb⟩ := mem_iff_getElem?.mp mem
  obtain ⟨a, ha, hf⟩ := getElem?_of_mapM_eq_some mapped hb
  exact ⟨a, mem_of_getElem? ha, hf⟩

end

namespace TexSystem

variable {s s' : TexSystem} {tex tex' : Tex}

theorem xmitTex_cases (sent : s.xmitTex tex = some tex') :
    (s.needUpdate tex = false ∧ tex' = tex) ∨
      tex' = { tex with state := .invalid, obj := none } ∨
      (s.needUpdate tex = true ∧ s.upload tex = some tex') := by
  simp only [xmitTex] at sent
  split at sent
  · next hneed =>
    split at sent
    · obtain ⟨obj, -, rfl⟩ := map_eq_some_iff.mp sent
      exact .inr (.inl rfl)
    · exact .inr (.inr ⟨hneed, sent⟩)
  · next hneed =>
    cases sent
    exact .inl ⟨by simpa using hneed, rfl⟩

variable {old : Option GfxObj} {pixFmt : GfxTexFmt} {dat : List UInt8} {obj : GfxObj}
  {p : TexParams}

theorem writeObj_dat (written : writeObj dat pixFmt old = some obj) : obj.dat = dat := by
  cases old with
  | none =>
    cases written
    rfl
  | some old =>
    simp only [writeObj] at written
    split at written
    · cases written
    · cases written
      rfl

theorem writeObj_pixFmt (written : writeObj dat pixFmt old = some obj) :
    (old = none ∧ obj.pixFmt = pixFmt) ∨ ∃ o, old = some o ∧ obj.pixFmt = o.pixFmt := by
  cases old with
  | none =>
    cases written
    exact .inl ⟨rfl, rfl⟩
  | some old =>
    simp only [writeObj] at written
    split at written
    · cases written
    · cases written
      exact .inr ⟨old, rfl, rfl⟩

theorem upload_eq_some (sent : s.upload tex = some tex') :
    ∃ pixFmt dat obj, s.pixFmt tex.texMeta = some pixFmt ∧ s.read tex.texMeta = some dat ∧
      writeObj dat pixFmt tex.obj = some obj ∧
      tex' = { tex with obj := some obj, state := .ready, lastUpdate := s.clk } := by
  obtain ⟨pixFmt, hpixFmt, sent⟩ := bind_eq_some_iff.mp sent
  obtain ⟨dat, hdat, sent⟩ := bind_eq_some_iff.mp sent
  obtain ⟨obj, hobj, sent⟩ := bind_eq_some_iff.mp sent
  cases sent
  exact ⟨pixFmt, dat, obj, hpixFmt, hdat, hobj, rfl⟩

/-! ## Pixels -/

/-- Each entry that the host has is marked by a page or has the current pixels. -/
structure Coherent (s : TexSystem) : Prop where
  stamps : ∀ page, s.pageStamps page ≤ s.clk
  made : ∀ tex ∈ s.texCache, tex.valid = true → tex.texMeta.Made
  inMemory : ∀ tex ∈ s.texCache, tex.state = .ready → tex.texMeta.InMemory
  pixels : ∀ tex ∈ s.texCache, tex.state = .ready → s.pagesNewer tex = true ∨ s.HasPixels tex

theorem valid_of_ready (ready : tex.state = .ready) : tex.valid = true := by
  simp [Tex.valid, ready]

theorem coherent_init (clk : Nat) (frameStamp : UInt32) (mem : TexArea → Memory) (palRam : Memory)
    (paletteTp : UInt32) : (init clk frameStamp mem palRam paletteTp).Coherent := by
  have hinvalid : ∀ tex ∈ (init clk frameStamp mem palRam paletteTp).texCache,
      tex.state = .invalid := by
    intro tex htex
    rw [eq_of_mem_replicate htex]
  refine ⟨fun _ => Nat.zero_le _, ?_, ?_, ?_⟩
  · intro tex htex hvalid
    simp [Tex.valid, hinvalid tex htex] at hvalid
  all_goals
    intro tex htex hready
    rw [hinvalid tex htex] at hready
    cases hready

theorem HasPixels.congr (has : s.HasPixels tex) (same : s'.read tex.texMeta = s.read tex.texMeta) :
    s'.HasPixels tex :=
  ⟨has.1, same.trans has.2⟩

theorem Coherent.on_page (coherent : s.Coherent) (htex : tex ∈ s.texCache)
    (ready : tex.state = .ready) {i : Nat} (reads : tex.texMeta.Reads i)
    (hpage : tex.texMeta.vqCompression = true → tex.texMeta.mipmap = true →
      i / texPageSize ≤ tex.texMeta.addrLast.toNat / texPageSize) :
    tex.texMeta.addrFirst.toNat / texPageSize ≤ i / texPageSize ∧
      i / texPageSize ≤ tex.texMeta.addrLast.toNat / texPageSize := by
  refine ⟨Nat.div_le_div_right reads.addrFirst_le, ?_⟩
  by_cases hboth : tex.texMeta.vqCompression = true ∧ tex.texMeta.mipmap = true
  · exact hpage hboth.1 hboth.2
  · apply Nat.div_le_div_right
    apply reads.le_addrLast (coherent.made tex htex (valid_of_ready ready))
      (coherent.inMemory tex htex ready)
    intro hvq
    simpa [hvq] using hboth

theorem Coherent.write (coherent : s.Coherent) {w : TexWrite} (written : s.write w = some s')
    (fits : (TexMoved.mk (.write w) s s').Fits) : s'.Coherent := by
  simp only [TexSystem.write] at written
  split at written
  · cases harea : w.area with
    | tex32 =>
      -- Textures are read from the other area.
      simp only [harea, Option.some.injEq] at written
      subst written
      refine ⟨coherent.stamps, coherent.made, coherent.inMemory, ?_⟩
      intro tex htex hready
      rcases coherent.pixels tex htex hready with hnewer | hpixels
      · exact .inl hnewer
      · refine .inr (hpixels.congr ?_)
        simp only [read, Function.update_of_ne (show TexArea.tex64 ≠ .tex32 by decide)]
    | tex64 =>
      simp only [harea, Option.some.injEq] at written
      subst written
      refine ⟨PageStamps.touch_le coherent.stamps, coherent.made, coherent.inMemory, ?_⟩
      intro tex htex hready
      by_cases hhit : ∃ b ∈ w.written, tex.texMeta.Reads b.2
      · obtain ⟨b, hb, hreads⟩ := hhit
        obtain ⟨hlater, hpage⟩ := fits harea tex htex hready b hb hreads
        exact .inl (PageStamps.newer_touch_of_lt (coherent.on_page htex hready hreads hpage)
          (TexWrite.page_of_mem_written hb harea) hlater)
      · rcases coherent.pixels tex htex hready with hnewer | hpixels
        · exact .inl (PageStamps.newer_touch coherent.stamps hnewer)
        · refine .inr (hpixels.congr ?_)
          have hmade := coherent.made tex htex (valid_of_ready hready)
          apply pvr2TexCacheRead_congr (le_trans (by decide) hmade.wide)
          · intro i hi
            simp only [Function.update_self]
            apply ByteMemory.store_outside
            by_contra hinside
            apply hhit
            refine ⟨(.tex64, i), TexWrite.mem_written.mpr ⟨harea.symm, ?_⟩, hi⟩
            dsimp only
            omega
          · exact fun _ => ⟨rfl, rfl⟩
  · cases written

theorem Coherent.notifyPaletteTpChange (coherent : s.Coherent) (palRam : Memory)
    (paletteTp : UInt32) :
    { s with palRam := palRam, paletteTp := paletteTp }.notifyPaletteTpChange.Coherent := by
  -- An entry that is still with the host is not paletted and was not changed.
  have hready : ∀ tex ∈ { s with palRam := palRam, paletteTp := paletteTp }.notifyPaletteTpChange.texCache,
      tex.state = .ready → tex ∈ s.texCache ∧ tex.texMeta.texFmt.isPaletted = false := by
    intro tex htex hready
    obtain ⟨old, hold, rfl⟩ := List.mem_map.mp htex
    by_cases hmark : old.state = .ready ∧ old.texMeta.texFmt.isPaletted = true
    · simp [hmark] at hready
    · simp only [if_neg hmark] at hready ⊢
      exact ⟨hold, by simpa [hready] using hmark⟩
  refine ⟨coherent.stamps, ?_, ?_, ?_⟩
  · intro tex htex hvalid
    obtain ⟨old, hold, rfl⟩ := List.mem_map.mp htex
    by_cases hmark : old.state = .ready ∧ old.texMeta.texFmt.isPaletted = true
    · simp only [if_pos hmark]
      exact coherent.made old hold (valid_of_ready hmark.1)
    · simp only [if_neg hmark] at hvalid ⊢
      exact coherent.made old hold hvalid
  · intro tex htex hstate
    exact coherent.inMemory tex (hready tex htex hstate).1 hstate
  · intro tex htex hstate
    obtain ⟨hold, hplain⟩ := hready tex htex hstate
    rcases coherent.pixels tex hold hstate with hnewer | hpixels
    · exact .inl hnewer
    · refine .inr (hpixels.congr ?_)
      have hmade := coherent.made tex hold (valid_of_ready hstate)
      apply pvr2TexCacheRead_congr (le_trans (by decide) hmade.wide) (fun _ _ => rfl)
      intro hpaletted
      rw [hplain] at hpaletted
      cases hpaletted

theorem mem_modify {α : Type} {f : α → α} {l : List α} {idx : Nat} {a : α}
    (mem : a ∈ l.modify idx f) : ∃ b ∈ l, a = b ∨ a = f b := by
  obtain ⟨j, hj⟩ := mem_iff_getElem?.mp mem
  rw [getElem?_modify] at hj
  obtain ⟨b, hb, rfl⟩ := map_eq_some_iff.mp hj
  refine ⟨b, mem_of_getElem? hb, ?_⟩
  split
  · exact .inr rfl
  · exact .inl rfl

theorem Coherent.find (coherent : s.Coherent) (p : TexParams) :
    (s.pvr2TexCacheFind p).2.Coherent := by
  cases hidx : s.texCache.findIdx? (sameTexture p) with
  | none => simpa only [pvr2TexCacheFind, hidx] using coherent
  | some idx =>
    simp only [pvr2TexCacheFind, hidx]
    -- An entry is changed in the frame stamp only.
    refine ⟨coherent.stamps, ?_, ?_, ?_⟩
    · intro tex htex hvalid
      obtain ⟨old, hold, rfl | rfl⟩ := mem_modify htex
      · exact coherent.made tex hold hvalid
      · exact coherent.made old hold hvalid
    · intro tex htex hready
      obtain ⟨old, hold, rfl | rfl⟩ := mem_modify htex
      · exact coherent.inMemory tex hold hready
      · exact coherent.inMemory old hold hready
    · intro tex htex hready
      obtain ⟨old, hold, rfl | rfl⟩ := mem_modify htex
      · exact coherent.pixels tex hold hready
      · exact coherent.pixels old hold hready

theorem pvr2TexCacheAdd_eq_some {idx : Nat} (added : s.pvr2TexCacheAdd p = some (some idx, s')) :
    ∃ texMeta, addMeta p s.paletteTp = some texMeta ∧
      s' = { s with texCache := s.texCache.set idx ⟨0, texMeta, none, s.frameStamp, .dirty⟩ } := by
  rw [pvr2TexCacheAdd] at added
  split at added
  · cases added
  · obtain ⟨texMeta, hmeta, hadded⟩ := map_eq_some_iff.mp added
    cases hadded
    exact ⟨texMeta, hmeta, rfl⟩

theorem pvr2TexCacheAdd_eq_none (added : s.pvr2TexCacheAdd p = some (none, s')) : s' = s := by
  rw [pvr2TexCacheAdd] at added
  split at added
  · cases added
    rfl
  · obtain ⟨texMeta, -, hadded⟩ := map_eq_some_iff.mp added
    cases hadded

section
variable (coherent : s.Coherent)
include coherent

theorem Coherent.add {r : TexRequest} {idx : Option Nat}
    (added : s.pvr2TexCacheAdd r.params = some (idx, s')) : s'.Coherent := by
  cases idx with
  | none =>
    rw [pvr2TexCacheAdd_eq_none added]
    exact coherent
  | some idx =>
    obtain ⟨texMeta, hmeta, rfl⟩ := pvr2TexCacheAdd_eq_some added
    refine ⟨coherent.stamps, ?_, ?_, ?_⟩
    · intro tex htex hvalid
      rcases mem_or_eq_of_mem_set htex with hold | rfl
      · exact coherent.made tex hold hvalid
      · exact TexRequest.made hmeta
    · intro tex htex hready
      rcases mem_or_eq_of_mem_set htex with hold | rfl
      · exact coherent.inMemory tex hold hready
      · cases hready
    · intro tex htex hready
      rcases mem_or_eq_of_mem_set htex with hold | rfl
      · exact coherent.pixels tex hold hready
      · cases hready

theorem Coherent.xmitTex (htex : tex ∈ s.texCache) (sent : s.xmitTex tex = some tex')
    (valid : tex'.valid = true) :
    tex'.state = .ready ∧ tex'.texMeta.Made ∧ tex'.texMeta.InMemory ∧ s.HasPixels tex' := by
  rcases xmitTex_cases sent with ⟨hneed, rfl⟩ | rfl | ⟨hneed, hsent⟩
  · cases hstate : tex'.state with
    | invalid => simp [Tex.valid, hstate] at valid
    | dirty => simp [needUpdate, hstate] at hneed
    | ready =>
      refine ⟨rfl, coherent.made _ htex valid, coherent.inMemory _ htex hstate, ?_⟩
      simp only [needUpdate, hstate] at hneed
      simpa [hneed] using coherent.pixels _ htex hstate
  · simp [Tex.valid] at valid
  · obtain ⟨pixFmt, dat, obj, -, hread, hobj, rfl⟩ := upload_eq_some hsent
    have hvalid : tex.valid = true := by
      cases hstate : tex.state <;> simp_all [Tex.valid, needUpdate]
    refine ⟨rfl, coherent.made tex htex hvalid, pvr2TexCacheRead_inMemory hread, rfl, ?_⟩
    rw [hread, map_some, writeObj_dat hobj]

theorem Coherent.xmit (sent : s.pvr2TexCacheXmit = some s') :
    s'.Coherent ∧ ∀ tex ∈ s'.texCache, tex.valid = true → s'.HasPixels tex := by
  obtain ⟨texCache, hmap, rfl⟩ := map_eq_some_iff.mp sent
  have heach : ∀ tex ∈ texCache, tex.valid = true →
      tex.state = .ready ∧ tex.texMeta.Made ∧ tex.texMeta.InMemory ∧ s.HasPixels tex := by
    intro tex htex hvalid
    obtain ⟨old, hold, hsent⟩ := mem_of_mapM_eq_some hmap htex
    exact coherent.xmitTex hold hsent hvalid
  refine ⟨⟨coherent.stamps, ?_, ?_, ?_⟩, ?_⟩
  · exact fun tex htex hvalid => (heach tex htex hvalid).2.1
  · exact fun tex htex hready => (heach tex htex (valid_of_ready hready)).2.2.1
  · exact fun tex htex hready => .inr (heach tex htex (valid_of_ready hready)).2.2.2
  · exact fun tex htex hvalid => (heach tex htex hvalid).2.2.2

theorem Coherent.act {a : TexAction} (acted : s.act a = some s') (fits : (TexMoved.mk a s s').Fits) :
    (TexMoved.mk a s s').HasPixels ∧ s'.Coherent := by
  cases a with
  | write w => exact ⟨trivial, coherent.write acted fits⟩
  | writePalette _ _ | writePaletteTp _ =>
    cases acted
    exact ⟨trivial, coherent.notifyPaletteTpChange _ _⟩
  | find p =>
    cases acted
    exact ⟨trivial, coherent.find p⟩
  | add r =>
    obtain ⟨⟨idx, s''⟩, added, rfl⟩ := map_eq_some_iff.mp acted
    exact ⟨trivial, coherent.add added⟩
  | xmit =>
    obtain ⟨hcoherent, hpixels⟩ := coherent.xmit acted
    refine ⟨?_, hcoherent⟩
    intro tex hused
    obtain ⟨htex, hused⟩ := mem_filter.mp hused
    exact hpixels tex htex (Bool.and_eq_true_iff.mp hused).1
  | advance cycles =>
    cases acted
    refine ⟨trivial, ?_, coherent.made, coherent.inMemory, coherent.pixels⟩
    exact fun page => (coherent.stamps page).trans (Nat.le_add_right _ _)
  | nextFrame =>
    cases acted
    exact ⟨trivial, coherent.stamps, coherent.made, coherent.inMemory, coherent.pixels⟩

end

/-! ## Formats -/

def Formatted (s : TexSystem) : Prop := ∀ tex ∈ s.texCache, s.HasFormat tex

theorem formatted_init (clk : Nat) (frameStamp : UInt32) (mem : TexArea → Memory)
    (palRam : Memory) (paletteTp : UInt32) :
    (init clk frameStamp mem palRam paletteTp).Formatted := by
  intro tex htex
  rw [eq_of_mem_replicate htex]
  intro obj hobj
  cases hobj

theorem HasFormat.congr (has : s.HasFormat tex) (sameTp : s'.paletteTp = s.paletteTp)
    (sameObj : tex'.obj = tex.obj) (sameMeta : tex'.texMeta = tex.texMeta) : s'.HasFormat tex' := by
  intro obj hobj
  rw [sameObj] at hobj
  have hformat := has obj hobj
  rwa [pixFmt, ← sameTp, ← sameMeta] at hformat

theorem mem_notifyPaletteTpChange (htex : tex ∈ s.notifyPaletteTpChange.texCache) :
    ∃ old ∈ s.texCache, tex.obj = old.obj ∧ tex.texMeta = old.texMeta := by
  obtain ⟨old, hold, rfl⟩ := List.mem_map.mp htex
  refine ⟨old, hold, ?_⟩
  split
  · exact ⟨rfl, rfl⟩
  · exact ⟨rfl, rfl⟩

theorem Formatted.writePaletteTp (formatted : s.Formatted) {val : UInt32}
    (keeps : (TexMoved.mk (.writePaletteTp val) s (s.writePaletteTp val)).KeepsPaletteTp) :
    (s.writePaletteTp val).Formatted := by
  intro tex htex
  obtain ⟨old, hold, hobj, hmeta⟩ := mem_notifyPaletteTpChange htex
  rcases keeps with hval | hnone
  · exact (formatted old hold).congr hval hobj hmeta
  · cases hpaletted : old.texMeta.texFmt.isPaletted with
    | true =>
      intro obj hsome
      rw [hobj, hnone old hold hpaletted] at hsome
      cases hsome
    | false =>
      intro obj hsome
      rw [hobj] at hsome
      have hformat := formatted old hold obj hsome
      rw [pixFmt, hpaletted] at hformat
      rw [pixFmt, hmeta, hpaletted]
      exact hformat

theorem Formatted.xmit (formatted : s.Formatted) (sent : s.pvr2TexCacheXmit = some s') :
    s'.Formatted := by
  obtain ⟨texCache, hmap, rfl⟩ := map_eq_some_iff.mp sent
  intro tex htex
  obtain ⟨old, hold, hsent⟩ := mem_of_mapM_eq_some hmap htex
  rcases xmitTex_cases hsent with ⟨-, rfl⟩ | rfl | ⟨-, hsent⟩
  · exact formatted tex hold
  · intro obj hobj
    cases hobj
  · obtain ⟨pixFmt, dat, obj, hpixFmt, -, hobj, rfl⟩ := upload_eq_some hsent
    intro obj' hobj'
    cases hobj'
    rcases writeObj_pixFmt hobj with ⟨-, hnew⟩ | ⟨o, ho, hsame⟩
    · rw [hnew]
      exact hpixFmt
    · rw [hsame]
      exact formatted old hold o ho

theorem Formatted.act (formatted : s.Formatted) {a : TexAction} (acted : s.act a = some s')
    (keeps : (TexMoved.mk a s s').KeepsPaletteTp) :
    (TexMoved.mk a s s').HasFormats ∧ s'.Formatted := by
  cases a with
  | write w =>
    refine ⟨trivial, ?_⟩
    simp only [TexSystem.act, TexSystem.write] at acted
    split at acted
    · cases acted
      exact formatted
    · cases acted
  | writePalette idx val =>
    cases acted
    refine ⟨trivial, ?_⟩
    intro tex htex
    obtain ⟨old, hold, hobj, hmeta⟩ := mem_notifyPaletteTpChange htex
    exact (formatted old hold).congr rfl hobj hmeta
  | writePaletteTp val =>
    cases acted
    exact ⟨trivial, formatted.writePaletteTp keeps⟩
  | find p =>
    cases acted
    refine ⟨trivial, ?_⟩
    cases hidx : s.texCache.findIdx? (sameTexture p) with
    | none => simpa only [pvr2TexCacheFind, hidx] using formatted
    | some idx =>
      simp only [pvr2TexCacheFind, hidx]
      intro tex htex
      obtain ⟨old, hold, rfl | rfl⟩ := mem_modify htex
      · exact (formatted tex hold).congr rfl rfl rfl
      · exact (formatted old hold).congr rfl rfl rfl
  | add r =>
    obtain ⟨⟨idx, s''⟩, added, rfl⟩ := map_eq_some_iff.mp acted
    refine ⟨trivial, ?_⟩
    cases idx with
    | none =>
      rw [pvr2TexCacheAdd_eq_none added]
      exact formatted
    | some idx =>
      obtain ⟨texMeta, -, rfl⟩ := pvr2TexCacheAdd_eq_some added
      intro tex htex
      rcases mem_or_eq_of_mem_set htex with hold | rfl
      · exact formatted tex hold
      · intro obj hobj
        cases hobj
  | xmit =>
    have hformatted := formatted.xmit acted
    exact ⟨fun tex hused => hformatted tex (mem_filter.mp hused).1, hformatted⟩
  | advance _ | nextFrame =>
    cases acted
    exact ⟨trivial, formatted⟩

/-! ## Every run -/

/-- After each transmission the host has the pixels of the textures that are used, if writes are
later than the last transmission of a texture and on its pages. It has their formats if the type of
the palette is not changed for the textures that it has. -/
theorem pixels_of_fits (clk : Nat) (frameStamp : UInt32) (mem : TexArea → Memory)
    (palRam : Memory) (paletteTp : UInt32) (actions : List TexAction)
    (fits : ∀ m ∈ (run step (init clk frameStamp mem palRam paletteTp) actions).1,
      m.Fits) :
    (∀ m ∈ (run step (init clk frameStamp mem palRam paletteTp) actions).1,
        m.HasPixels) ∧
      ((∀ m ∈ (run step (init clk frameStamp mem palRam paletteTp) actions).1,
          m.KeepsPaletteTp) →
        ∀ m ∈ (run step (init clk frameStamp mem palRam paletteTp) actions).1,
          m.HasFormats) := by
  constructor
  · refine run_observes_of_invariant (I := Coherent) ?_ fits
      (coherent_init clk frameStamp mem palRam paletteTp)
    intro s a m s' moved hfits hcoherent
    obtain ⟨t, acted, hmoved⟩ := map_eq_some_iff.mp moved
    cases hmoved
    exact hcoherent.act acted hfits
  · intro keeps
    refine run_observes_of_invariant (I := Formatted) ?_ keeps
      (formatted_init clk frameStamp mem palRam paletteTp)
    intro s a m s' moved hkeeps hformatted
    obtain ⟨t, acted, hmoved⟩ := map_eq_some_iff.mp moved
    cases hmoved
    exact hformatted.act acted hkeeps

def blank : TexSystem := init 5 1 (fun _ _ => 0) (fun _ => 0) 0

def smallTexture (texAddr : UInt32) (pixFmt : Fin 8) (twiddled vqMipmap : Bool) : TexParams where
  texAddr := texAddr
  texPaletteStart := 0
  texWidthShift := 3
  texHeightShift := 3
  pixFmt := pixFmt
  texTwiddle := twiddled
  texVqCompression := vqMipmap
  texMipmap := vqMipmap
  strideSel := false

def smallRequest (texAddr : UInt32) (pixFmt : Fin 8) (twiddled vqMipmap : Bool) : TexRequest where
  params := smallTexture texAddr pixFmt twiddled vqMipmap
  widthShift := ⟨le_refl 3, by show 3 ≤ 10; decide⟩
  heightShift := ⟨le_refl 3, by show 3 ≤ 10; decide⟩
  paletteStart := fun _ => by show (0 : UInt32) < 64; decide

/-- A texture is sent, one of its bytes is written after `cycles` cycles, and it is used again. -/
def rewritten (r : TexRequest) (cycles : Nat) (offs : UInt32) : List TexAction :=
  [.add r, .xmit, .advance cycles, .write ⟨.tex64, .one, TexArea.first .tex64 + offs, 1⟩,
    .find r.params, .xmit]

theorem pixels_of_fits_rewritten :
    let actions := rewritten (smallRequest 0 ⟨0, by decide⟩ false false) 1 0
    (∀ m ∈ (run step blank actions).1, m.Fits) ∧
      (run step blank actions).1.length = 6 ∧
      ∀ m ∈ (run step blank actions).1, m.HasPixels := by
  have hfits : ∀ m ∈ (run step blank
      (rewritten (smallRequest 0 ⟨0, by decide⟩ false false) 1 0)).1, m.Fits := by
    decide +kernel
  exact ⟨hfits, by decide +kernel, (pixels_of_fits _ _ _ _ _ _ hfits).1⟩

/-- A byte is written in the cycle in which the texture was sent. A byte of a texture with mipmaps
and a code book is written behind its last page. The type of the palette changes. -/
theorem pixels_not_current :
    (¬∀ m ∈ (run step blank
        (rewritten (smallRequest 0 ⟨0, by decide⟩ false false) 0 0)).1, m.HasPixels) ∧
      (¬∀ m ∈ (run step blank
        (.write ⟨.tex64, .one, TexArea.first .tex64 + 504, 1⟩ ::
          rewritten (smallRequest 496 ⟨0, by decide⟩ true true) 1 2565)).1, m.HasPixels) ∧
      ¬∀ m ∈ (run step blank
        [.add (smallRequest 0 ⟨6, by decide⟩ true false), .xmit, .writePaletteTp 1,
          .find (smallTexture 0 ⟨6, by decide⟩ true false), .xmit]).1, m.HasFormats := by
  refine ⟨?_, ?_, ?_⟩
  · decide +kernel
  · decide +kernel
  · decide +kernel

end TexSystem

end Pvr2
