import WashingtonDC.PageStamps
import WashingtonDC.Pvr2.Texture

/-!
# The texture cache

The cache of `pvr2_tex_cache.c` with the texture memory, the palette and the registers that it
reads. The object of an entry is kept with the entry, since the numbers of objects in use are
different; there are more objects than entries. No framebuffer is in use, so that
`pvr2_framebuffer_notify_texture` does nothing. An error of the program and an access outside an
array have no result.
-/
namespace Pvr2

open ByteMemory (Memory)

/-- `enum pvr2_tex_state`. -/
inductive TexState
  | invalid
  | dirty
  | ready
deriving DecidableEq

/-- The object of a texture and the format in which the host binds it. -/
structure GfxObj where
  dat : List UInt8
  pixFmt : GfxTexFmt

/-- `struct pvr2_tex`; without an object `obj_no` is `-1`. -/
structure Tex where
  lastUpdate : Nat
  texMeta : TexMeta
  obj : Option GfxObj
  frameStampLastUsed : UInt32
  state : TexState

/-- `pvr2_tex_valid`. -/
def Tex.valid (tex : Tex) : Bool := tex.state = .ready || tex.state = .dirty

/-- `PVR2_TEX_CACHE_SIZE`. -/
abbrev texCacheSize : Nat := 512

/-- `PVR2_TEX_PAGE_SIZE`. -/
abbrev texPageSize : Nat := 512

/-- A texture as a header has it: the shifts are three bits and three, the palette has six bits. -/
structure TexRequest where
  params : TexParams
  widthShift : 3 ≤ params.texWidthShift ∧ params.texWidthShift ≤ 10
  heightShift : 3 ≤ params.texHeightShift ∧ params.texHeightShift ≤ 10
  paletteStart : (TexCtrlPixFmt.ofBits params.pixFmt).isPaletted = true →
    params.texPaletteStart < 64

/-- The cache, and what it reads. -/
structure TexSystem where
  clk : Nat
  frameStamp : UInt32
  mem : TexArea → Memory
  palRam : Memory
  paletteTp : UInt32
  pageStamps : Nat → Nat
  texCache : List Tex

/-! ## Metadata -/

def newPixFmt (paletteTp : UInt32) (texFmt : TexCtrlPixFmt) : Option GfxTexFmt :=
  if texFmt.isPaletted then translatePaletteToPixFormat paletteTp else pvr2TexFmtToGfx texFmt

def newMeta (p : TexParams) (pixFmt : GfxTexFmt) : TexMeta where
  addrFirst := p.texAddr
  addrLast := p.texAddr
  wShift := p.texWidthShift
  hShift := p.texHeightShift
  pixFmt := pixFmt
  texFmt := .ofBits p.pixFmt
  texPaletteStart := p.texPaletteStart
  twiddled := p.texTwiddle
  strideSel := p.strideSel
  -- A code book needs a square texture.
  vqCompression := p.texVqCompression && p.texWidthShift == p.texHeightShift
  mipmap := p.texMipmap

/-- The bytes that the program takes a texture to have. The mipmaps before the largest one are
counted for a texture without a code book only. -/
def TexMeta.extent (m : TexMeta) : Option Nat :=
  if m.vqCompression then some (codeBookLen + (1 <<< m.wShift) * (1 <<< m.wShift) / 4)
  else
    let len := if m.texFmt = .pal4Bpp then (1 <<< m.wShift) * (1 <<< m.hShift) / 2
      else m.texFmt.pixelSize * (1 <<< m.wShift) * (1 <<< m.hShift)
    if m.mipmap then
      if m.wShift ≠ m.hShift then none else m.mipmapOffset.map (len + ·)
    else some len

/-- The metadata that `pvr2_tex_cache_add` writes. -/
def addMeta (p : TexParams) (paletteTp : UInt32) : Option TexMeta := do
  let pixFmt ← newPixFmt paletteTp (.ofBits p.pixFmt)
  let extent ← (newMeta p pixFmt).extent
  return { newMeta p pixFmt with addrLast := p.texAddr - 1 + UInt32.ofNat extent }

namespace TexSystem

variable (s : TexSystem)

/-! ## Looking for a texture -/

def sameTexture (p : TexParams) (tex : Tex) : Bool :=
  tex.valid && tex.texMeta.addrFirst == p.texAddr && tex.texMeta.wShift == p.texWidthShift &&
    tex.texMeta.hShift == p.texHeightShift && tex.texMeta.texFmt == .ofBits p.pixFmt &&
    tex.texMeta.twiddled == p.texTwiddle && tex.texMeta.vqCompression == p.texVqCompression &&
    p.texMipmap == tex.texMeta.mipmap &&
    (!(TexCtrlPixFmt.ofBits p.pixFmt).isPaletted ||
      p.texPaletteStart == tex.texMeta.texPaletteStart)

def pvr2TexCacheFind (p : TexParams) : Option Nat × TexSystem :=
  match s.texCache.findIdx? (sameTexture p) with
  | some idx => (some idx,
      { s with texCache := s.texCache.modify idx fun tex =>
          { tex with frameStampLastUsed := s.frameStamp } })
  | none => (none, s)

/-! ## Adding a texture -/

/-- The loop of `pvr2_tex_cache_add` that looks for the entry used least recently, but not in the
current frame. -/
def oldestTex : Option Nat :=
  let later (oldest : Option (Tex × Nat)) (entry : Tex × Nat) : Option (Tex × Nat) :=
    if entry.1.frameStampLastUsed < s.frameStamp then
      match oldest with
      | none => some entry
      | some old =>
        if entry.1.frameStampLastUsed < old.1.frameStampLastUsed then some entry else oldest
    else oldest
  (s.texCache.zipIdx.foldl later none).map Prod.snd

def newSlot : Option Nat :=
  match s.texCache.findIdx? (fun tex => !tex.valid) with
  | some idx => some idx
  | none => s.oldestTex

def pvr2TexCacheAdd (p : TexParams) : Option (Option Nat × TexSystem) :=
  match s.newSlot with
  | none => some (none, s)
  | some idx => (addMeta p s.paletteTp).map fun texMeta =>
      let tex : Tex :=
        { lastUpdate := 0, texMeta := texMeta, obj := none,
          frameStampLastUsed := s.frameStamp, state := .dirty }
      (some idx, { s with texCache := s.texCache.set idx tex })

/-! ## Writes -/

def writePages (addr len : Nat) : Nat × Nat :=
  let addrFirst := addr - (TexArea.first .tex64).toNat
  let addrLast := addrFirst + (len - 1)
  (addrFirst / texPageSize, addrLast / texPageSize)

/-- The page stamps after `pvr2_tex_cache_notify_write`. -/
def notifyWrite (addr len : Nat) : Nat → Nat :=
  let pages := writePages addr len
  PageStamps.touch s.pageStamps pages.1 pages.2 s.clk

/-- The write handlers of `pvr2_tex_mem.c`. -/
def write (w : TexWrite) : Option TexSystem :=
  if w.InBounds then
    let area := ByteMemory.store (s.mem w.area) (w.index * w.size.bytes) w.size.bytes w.val.toNat
    let pageStamps := match w.area with
      | .tex32 => s.pageStamps
      | .tex64 => s.notifyWrite w.addr.toNat w.size.bytes
    some { s with mem := Function.update s.mem w.area area, pageStamps := pageStamps }
  else none

/-- `pvr2_tex_cache_notify_palette_tp_change`. -/
def notifyPaletteTpChange : TexSystem :=
  { s with texCache := s.texCache.map fun tex =>
      if tex.state = .ready ∧ tex.texMeta.texFmt.isPaletted = true then
        { tex with state := .dirty }
      else tex }

def writePalette (idx : Fin 1024) (val : UInt32) : TexSystem :=
  { s with palRam := ByteMemory.store s.palRam (4 * idx.val) 4 val.toNat }.notifyPaletteTpChange

def writePaletteTp (val : UInt32) : TexSystem :=
  { s with paletteTp := val }.notifyPaletteTpChange

/-! ## Transmission to the host -/

def read (texMeta : TexMeta) : Option (List UInt8) :=
  pvr2TexCacheRead (s.mem .tex64) s.palRam s.paletteTp texMeta

def pixFmt (texMeta : TexMeta) : Option GfxTexFmt :=
  if texMeta.texFmt.isPaletted then translatePaletteToPixFormat s.paletteTp
  else some texMeta.pixFmt

def pagesNewer (tex : Tex) : Bool :=
  PageStamps.newer s.pageStamps (tex.texMeta.addrFirst.toNat / texPageSize)
    (tex.texMeta.addrLast.toNat / texPageSize) tex.lastUpdate

def needUpdate (tex : Tex) : Bool :=
  match tex.state with
  | .dirty => true
  | .ready => s.pagesNewer tex
  | .invalid => false

/-- The object for new pixels. An object keeps its size and its format. -/
def writeObj (dat : List UInt8) (pixFmt : GfxTexFmt) : Option GfxObj → Option GfxObj
  | none => some ⟨dat, pixFmt⟩
  | some obj => if dat.length ≠ obj.dat.length then none else some { obj with dat := dat }

def upload (tex : Tex) : Option Tex := do
  let pixFmt ← s.pixFmt tex.texMeta
  let dat ← s.read tex.texMeta
  let obj ← writeObj dat pixFmt tex.obj
  return { tex with obj := some obj, state := .ready, lastUpdate := s.clk }

/-- The body of the loop of `pvr2_tex_cache_xmit`. A texture that is not used any more loses its
object, which it must have. -/
def xmitTex (tex : Tex) : Option Tex :=
  if s.needUpdate tex then
    if tex.frameStampLastUsed ≠ s.frameStamp then
      tex.obj.map fun _ => { tex with state := .invalid, obj := none }
    else s.upload tex
  else some tex

def pvr2TexCacheXmit : Option TexSystem :=
  (s.texCache.mapM s.xmitTex).map fun texCache => { s with texCache := texCache }

/-- `pvr2_tex_cache_init`. -/
def init (clk : Nat) (frameStamp : UInt32) (mem : TexArea → Memory) (palRam : Memory)
    (paletteTp : UInt32) : TexSystem where
  clk := clk
  frameStamp := frameStamp
  mem := mem
  palRam := palRam
  paletteTp := paletteTp
  pageStamps := fun _ => 0
  texCache := List.replicate texCacheSize
    { lastUpdate := 0, texMeta := ⟨0, 0, 0, 0, .argb1555, .argb1555, 0, false, false, false, false⟩,
      obj := none, frameStampLastUsed := 0, state := .invalid }

end TexSystem

end Pvr2
