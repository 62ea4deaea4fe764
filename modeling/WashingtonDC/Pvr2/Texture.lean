import WashingtonDC.ByteMemory
import WashingtonDC.RowMajor
import WashingtonDC.Pvr2.Ta
import WashingtonDC.Pvr2.TexMem
import Mathlib.Data.Nat.Bitwise

/-!
# Textures in texture memory

How `pvr2_tex_cache.c` describes a texture and how `pvr2_tex_cache_read` reads it: the pixels are
stored row by row, twiddled or as indices into a code book, and may be indices into the palette. The
result depends on the bytes that belong to the texture and, for a paletted texture, on the palette.
A texture with an error of the program, and one that is not inside texture memory, has no result.
The order of the twiddled pixels is not characterised; only that it stays inside the texture.
-/
namespace Pvr2

open Nat RowMajor ByteMemory List Option
open ByteMemory (Memory)

/-- `enum TexCtrlPixFmt`. -/
inductive TexCtrlPixFmt
  | argb1555
  | rgb565
  | argb4444
  | yuv422
  | bumpMap
  | pal4Bpp
  | pal8Bpp
  | invalid
deriving DecidableEq

namespace TexCtrlPixFmt

def ofBits (bits : Fin 8) : TexCtrlPixFmt :=
  match bits.val with
  | 0 => argb1555
  | 1 => rgb565
  | 2 => argb4444
  | 3 => yuv422
  | 4 => bumpMap
  | 5 => pal4Bpp
  | 6 => pal8Bpp
  | _ => invalid

/-- `pixel_sizes`. -/
def pixelSize : TexCtrlPixFmt → Nat
  | argb1555 | rgb565 | argb4444 | yuv422 => 2
  | pal8Bpp => 1
  | bumpMap | pal4Bpp | invalid => 0

def isPaletted : TexCtrlPixFmt → Bool
  | pal4Bpp | pal8Bpp => true
  | _ => false

end TexCtrlPixFmt

/-- `enum gfx_tex_fmt`, the formats of the host. -/
inductive GfxTexFmt
  | argb1555
  | rgb565
  | argb4444
  | argb8888
  | yuv422
deriving DecidableEq

def pvr2TexFmtToGfx : TexCtrlPixFmt → Option GfxTexFmt
  | .argb1555 => some .argb1555
  | .rgb565 => some .rgb565
  | .argb4444 => some .argb4444
  | .yuv422 => some .yuv422
  | _ => none

/-- `translate_palette_to_pix_format`, of the register `PVR2_PALETTE_TP`. -/
def translatePaletteToPixFormat (paletteTp : UInt32) : Option GfxTexFmt :=
  match paletteTp.toNat with
  | 0 => some .argb1555
  | 1 => some .rgb565
  | 2 => some .argb4444
  | 3 => some .argb8888
  | _ => none

/-- `mipmap_byte_offset_palette`. -/
def mipmapByteOffsetPalette : List Nat :=
  [0x3, 0x4, 0x8, 0x18, 0x58, 0x158, 0x558, 0x1558, 0x5558, 0x15558, 0x55558]

/-- `mipmap_byte_offset_vq`. -/
def mipmapByteOffsetVq : List Nat :=
  [0x0, 0x1, 0x2, 0x6, 0x16, 0x56, 0x156, 0x556, 0x1556, 0x5556, 0x15556]

/-- `mipmap_byte_offset_norm`. -/
def mipmapByteOffsetNorm : List Nat :=
  [0x6, 0x8, 0x10, 0x30, 0xb0, 0x2b0, 0xab0, 0x2ab0, 0xaab0, 0x2aab0, 0xaaab0]

/-- `PVR2_CODE_BOOK_LEN`. -/
abbrev codeBookLen : Nat := 2048

/-- `struct pvr2_tex_meta`. -/
structure TexMeta where
  addrFirst : UInt32
  addrLast : UInt32
  wShift : Nat
  hShift : Nat
  pixFmt : GfxTexFmt
  texFmt : TexCtrlPixFmt
  texPaletteStart : UInt32
  twiddled : Bool
  strideSel : Bool
  vqCompression : Bool
  mipmap : Bool

/-! ## The order of the pixels -/

/-- The body of the loop of `tex_twiddle`. -/
def twiddleBit (xSq ySq twidIdx shift : Nat) : Nat :=
  let mask := (1 <<< (shift + 1)) - 1
  let pow := 1 <<< shift
  let twidIdx := if pow ≤ xSq &&& mask then twidIdx ||| 1 <<< (shift * 2 + 1) else twidIdx
  if pow ≤ ySq &&& mask then twidIdx ||| 1 <<< (shift * 2) else twidIdx

def texTwiddle (x y wShift hShift : Nat) : Nat :=
  let minSquareShift := if 1 <<< wShift < 1 <<< hShift then wShift else hShift
  let minSquare := 1 <<< minSquareShift
  let xResid := x / minSquare * minSquare
  let yResid := y / minSquare * minSquare
  let xSq := x &&& (minSquare - 1)
  let ySq := y &&& (minSquare - 1)
  let twidIdx := (range (minSquareShift + 1)).foldl (twiddleBit xSq ySq) 0
  if xResid ≠ 0 then twidIdx + x / minSquare * minSquare * minSquare
  else if yResid ≠ 0 then twidIdx + y / minSquare * minSquare * minSquare
  else twidIdx

theorem twiddleBit_lt {xSq ySq twidIdx n : Nat} (lt : twidIdx < 2 ^ (2 * n)) :
    twiddleBit xSq ySq twidIdx n < 2 ^ (2 * (n + 1)) := by
  have hmono : twidIdx < 2 ^ (2 * (n + 1)) :=
    lt.trans (Nat.pow_lt_pow_right (by decide) (by omega))
  have hbit : ∀ k < 2 * (n + 1), (1 <<< k : Nat) < 2 ^ (2 * (n + 1)) := by
    intro k hk
    rw [one_shiftLeft]
    exact Nat.pow_lt_pow_right (by decide) hk
  have hor : ∀ {t : Nat} (k : Nat), k < 2 * (n + 1) → t < 2 ^ (2 * (n + 1)) → ∀ c : Prop,
      ∀ [Decidable c], (if c then t ||| 1 <<< k else t) < 2 ^ (2 * (n + 1)) := by
    intro t k hk ht c _
    split
    · exact or_lt_two_pow ht (hbit k hk)
    · exact ht
  exact hor (n * 2) (by omega) (hor (n * 2 + 1) (by omega) hmono _) _

theorem foldl_twiddleBit_lt (xSq ySq n : Nat) :
    (range n).foldl (twiddleBit xSq ySq) 0 < 2 ^ (2 * n) := by
  induction n with
  | zero => exact zero_lt_one
  | succ n ih =>
    rw [List.range_succ, foldl_append]
    exact twiddleBit_lt ih

theorem twiddleBit_of_lt {xSq ySq twidIdx shift : Nat} (hx : xSq < 1 <<< shift)
    (hy : ySq < 1 <<< shift) : twiddleBit xSq ySq twidIdx shift = twidIdx := by
  have hmask : ∀ {a : Nat} (mask : Nat), a < 1 <<< shift → ¬1 <<< shift ≤ a &&& mask :=
    fun mask ha => Nat.not_le_of_lt (lt_of_le_of_lt and_le_left ha)
  simp only [twiddleBit, if_neg (hmask _ hx), if_neg (hmask _ hy)]

theorem twiddle_square_lt {x y shift : Nat} :
    (range (shift + 1)).foldl
      (twiddleBit (x &&& ((1 <<< shift) - 1)) (y &&& ((1 <<< shift) - 1))) 0 <
      (1 <<< shift) * (1 <<< shift) := by
  have hsq : ∀ a : Nat, a &&& ((1 <<< shift) - 1) < 1 <<< shift := by
    intro a
    rw [one_shiftLeft, and_two_pow_sub_one_eq_mod]
    exact mod_lt _ (Nat.two_pow_pos shift)
  rw [List.range_succ, foldl_append, foldl_cons, foldl_nil,
    twiddleBit_of_lt (hsq x) (hsq y)]
  have hlt := foldl_twiddleBit_lt (x &&& ((1 <<< shift) - 1)) (y &&& ((1 <<< shift) - 1)) shift
  rwa [two_mul, Nat.pow_add, ← one_shiftLeft] at hlt

theorem strip_index_lt {t m k a : Nat} (ht : t < m * m) (ha : a < m * k) :
    t + a / m * m * m < m * k * m := by
  have hdiv : a / m + 1 ≤ k := Nat.div_lt_of_lt_mul ha
  calc t + a / m * m * m < m * m + a / m * m * m := Nat.add_lt_add_right ht _
    _ = (a / m + 1) * (m * m) := by ring
    _ ≤ k * (m * m) := Nat.mul_le_mul_right _ hdiv
    _ = m * k * m := by ring

theorem one_shiftLeft_of_le {a b : Nat} (le : a ≤ b) : 1 <<< b = (1 <<< a) * 1 <<< (b - a) := by
  rw [one_shiftLeft, one_shiftLeft, one_shiftLeft, ← Nat.pow_add, add_sub_of_le le]

theorem pixels_eq_two_mul {wShift : Nat} (even : 1 ≤ wShift) (hShift : Nat) :
    (1 <<< wShift) * (1 <<< hShift) = 2 * ((1 <<< (wShift - 1)) * (1 <<< hShift)) := by
  rw [one_shiftLeft_of_le even, mul_assoc]
  rfl

theorem texTwiddle_lt {x y wShift hShift : Nat} (hx : x < 1 <<< wShift) (hy : y < 1 <<< hShift) :
    texTwiddle x y wShift hShift < (1 <<< wShift) * (1 <<< hShift) := by
  have hlt : 1 <<< wShift < 1 <<< hShift ↔ wShift < hShift := by
    rw [one_shiftLeft, one_shiftLeft]
    exact Nat.pow_lt_pow_iff_right (by decide)
  have hsq := @twiddle_square_lt x y
  simp only [texTwiddle, hlt]
  by_cases hshift : wShift < hShift
  · -- The squares follow one another downwards.
    rw [one_shiftLeft_of_le hshift.le] at hy ⊢
    simp only [if_pos hshift, div_eq_of_lt hx, zero_mul, ne_eq, not_true_eq_false, if_false]
    rw [mul_comm (1 <<< wShift)]
    split
    · exact strip_index_lt hsq hy
    · exact lt_of_le_of_lt (le_add_right _ _) (strip_index_lt hsq hy)
  · rw [one_shiftLeft_of_le (Nat.le_of_not_lt hshift)] at hx ⊢
    simp only [if_neg hshift, div_eq_of_lt hy, zero_mul, ne_eq, not_true_eq_false, if_false]
    split
    · exact strip_index_lt hsq hx
    · exact lt_of_le_of_lt (le_add_right _ _) (strip_index_lt hsq hx)

/-! ## The pixels of a texture -/

def pvr2TexDetwiddle (dst src : Memory) (wShift hShift bytesPerPix : Nat) : Memory :=
  scan (1 <<< wShift) (1 <<< hShift)
    (fun dst col row =>
      copy dst ((row * 1 <<< wShift + col) * bytesPerPix) src
        (texTwiddle col row wShift hShift * bytesPerPix) bytesPerPix)
    dst

def nibble (src : Memory) (idx : Nat) : UInt8 :=
  if idx % 2 = 0 then src (idx / 2) &&& 0xf else src (idx / 2) >>> 4

def setNibble (dst : Memory) (idx : Nat) (px : UInt8) : Memory :=
  Function.update dst (idx / 2)
    (if idx % 2 = 0 then dst (idx / 2) &&& ~~~(0xf : UInt8) ||| px
      else dst (idx / 2) &&& ~~~(0xf0 : UInt8) ||| px <<< 4)

def pvr2TexDetwiddle4Bpp (dst src : Memory) (wShift hShift : Nat) : Memory :=
  scan (1 <<< wShift) (1 <<< hShift)
    (fun dst col row =>
      setNibble dst (row * 1 <<< wShift + col) (nibble src (texTwiddle col row wShift hShift)))
    dst

/-- Color `j` of an entry of the code book is copied to a pixel. -/
def copyColor (dst : Memory) (pix : Nat) (codeBook : Memory) (idx : UInt8) (j : Nat) : Memory :=
  copy dst (2 * pix) codeBook (8 * idx.toNat + 2 * j) 2

/-- An index stands for a block of two rows and two columns; the code book has its pixels column by
column. -/
def pvr2TexVqDecompress (dst codeBook src : Memory) (sideShift : Nat) : Memory :=
  let dstSide := 1 <<< sideShift
  let srcSideShift := sideShift - 1
  scan (1 <<< srcSideShift) (1 <<< srcSideShift)
    (fun dst col row =>
      let idx := src (texTwiddle col row srcSideShift srcSideShift)
      let dstRow := row * 2
      let dstCol := col * 2
      let dst := copyColor dst (dstRow * dstSide + dstCol) codeBook idx 0
      let dst := copyColor dst ((dstRow + 1) * dstSide + dstCol) codeBook idx 1
      let dst := copyColor dst (dstRow * dstSide + dstCol + 1) codeBook idx 2
      copyColor dst ((dstRow + 1) * dstSide + dstCol + 1) codeBook idx 3)
    dst

def paletteSize (paletteTp : UInt32) : Option Nat :=
  match paletteTp.toNat with
  | 0 | 1 | 2 => some 2
  | 3 => some 4
  | _ => none

/-- The pixels of the palette for the pixels `pixIn`. -/
def applyPalette (palRam : Memory) (palStart : UInt32) (pixIn : Nat → UInt8)
    (wShift hShift size : Nat) : Memory :=
  scan (1 <<< wShift) (1 <<< hShift)
    (fun out col row =>
      let pixIdx := row * 1 <<< wShift + col
      let paletteAddr := (palStart ||| (pixIn pixIdx).toUInt32) * 4
      copy out (pixIdx * size) palRam paletteAddr.toNat size)
    fun _ => 0

namespace TexMeta

variable (m : TexMeta)

/-- The number of bytes of the pixels before the palette is applied. -/
def nBytes : Option Nat :=
  if m.texFmt = .pal4Bpp then some ((1 <<< m.wShift) * (1 <<< m.hShift) / 2)
  else if m.texFmt.pixelSize = 0 then none
  else some ((1 <<< m.wShift) * (1 <<< m.hShift) * m.texFmt.pixelSize)

/-- The offset of the largest mipmap of a texture without a code book. -/
def mipmapOffset : Option Nat :=
  match m.texFmt with
  | .argb1555 | .rgb565 | .yuv422 | .argb4444 => mipmapByteOffsetNorm[m.wShift]?
  | .pal4Bpp | .pal8Bpp => mipmapByteOffsetPalette[m.wShift]?
  | _ => none

/-- The offset of the pixels, or of the indices into the code book. -/
def beg : Option Nat :=
  if m.mipmap then
    if m.wShift ≠ m.hShift then none
    else if m.texFmt = .yuv422 then none
    else if m.vqCompression then
      mipmapByteOffsetVq[m.wShift]?.map fun offs => m.addrFirst.toNat + codeBookLen + offs
    else m.mipmapOffset.map fun offs => m.addrFirst.toNat + offs
  else if m.vqCompression then some (m.addrFirst.toNat + codeBookLen)
  else some m.addrFirst.toNat

/-- The number of bytes from `beg` on. -/
def srcLen : Nat :=
  if m.vqCompression then (1 <<< (m.wShift - 1)) * (1 <<< (m.wShift - 1)) else m.nBytes.getD 0

def texDat (mem : Memory) (beg nBytes : Nat) : Option Memory :=
  let src : Memory := fun i => mem (beg + i)
  if m.vqCompression then
    if m.texFmt.isPaletted then none
    else if m.texFmt = .yuv422 then none
    else if m.texFmt.pixelSize ≠ 2 then none
    else if m.wShift ≠ m.hShift then none
    else some (pvr2TexVqDecompress (fun _ => 0) (fun i => mem (m.addrFirst.toNat + i)) src m.wShift)
  else if m.twiddled then
    if m.texFmt = .pal4Bpp then some (pvr2TexDetwiddle4Bpp (fun _ => 0) src m.wShift m.hShift)
    else some (pvr2TexDetwiddle (fun _ => 0) src m.wShift m.hShift m.texFmt.pixelSize)
  else some (copy (fun _ => 0) 0 src 0 nBytes)

/-- The pixels with the palette applied, and their number of bytes. -/
def withPalette (palRam : Memory) (paletteTp : UInt32) (texDat : Memory) (nBytes : Nat) :
    Option (Memory × Nat) :=
  let texW := 1 <<< m.wShift
  let texH := 1 <<< m.hShift
  match m.texFmt with
  | .pal8Bpp => (paletteSize paletteTp).map fun size =>
      (applyPalette palRam ((m.texPaletteStart &&& 0x30) <<< 4) texDat m.wShift m.hShift size,
        size * texW * texH)
  | .pal4Bpp => (paletteSize paletteTp).map fun size =>
      (applyPalette palRam (m.texPaletteStart <<< 4) (nibble texDat) m.wShift m.hShift size,
        size * texW * texH)
  | _ => some (texDat, nBytes)

def InMemory : Prop := ∀ beg ∈ m.beg, beg + m.srcLen ≤ TexArea.len

instance : Decidable m.InMemory := inferInstanceAs (Decidable (∀ _ ∈ m.beg, _))

end TexMeta

/-- The buffers that the program allocates are filled completely before they are read, and start
with zeros here. -/
def pvr2TexCacheRead (mem palRam : Memory) (paletteTp : UInt32) (m : TexMeta) :
    Option (List UInt8) :=
  if TexArea.len ≤ (m.addrLast - m.addrFirst + 1).toNat ∨ ¬m.InMemory then none
  else do
    let nBytes ← m.nBytes
    let beg ← m.beg
    let texDat ← m.texDat mem beg nBytes
    let (dat, n) ← m.withPalette palRam paletteTp texDat nBytes
    return (range n).map dat

/-! ## What the pixels depend on -/

def TexMeta.Reads (m : TexMeta) (i : Nat) : Prop :=
  (m.vqCompression = true ∧ m.addrFirst.toNat ≤ i ∧ i < m.addrFirst.toNat + codeBookLen) ∨
    ∃ beg ∈ m.beg, beg ≤ i ∧ i < beg + m.srcLen

instance (m : TexMeta) (i : Nat) : Decidable (m.Reads i) :=
  inferInstanceAs (Decidable (_ ∨ ∃ _ ∈ m.beg, _))

variable {dst src src' : Memory}

theorem pvr2TexDetwiddle_congr {wShift hShift bytesPerPix : Nat}
    (same : ∀ i < (1 <<< wShift) * (1 <<< hShift) * bytesPerPix, src' i = src i) :
    pvr2TexDetwiddle dst src' wShift hShift bytesPerPix =
      pvr2TexDetwiddle dst src wShift hShift bytesPerPix := by
  apply scan_congr
  intro dst col hcol row hrow
  apply copy_congr
  intro i hi
  apply same
  have hidx := texTwiddle_lt hcol hrow
  calc texTwiddle col row wShift hShift * bytesPerPix + i
    _ < texTwiddle col row wShift hShift * bytesPerPix + bytesPerPix := Nat.add_lt_add_left hi _
    _ = (texTwiddle col row wShift hShift + 1) * bytesPerPix := by ring
    _ ≤ (1 <<< wShift) * (1 <<< hShift) * bytesPerPix := Nat.mul_le_mul_right _ hidx

theorem nibble_congr {src src' : Memory} {idx : Nat} (same : src' (idx / 2) = src (idx / 2)) :
    nibble src' idx = nibble src idx := by
  simp only [nibble, same]

theorem pvr2TexDetwiddle4Bpp_congr {wShift hShift : Nat}
    (even : 1 ≤ wShift)
    (same : ∀ i < (1 <<< wShift) * (1 <<< hShift) / 2, src' i = src i) :
    pvr2TexDetwiddle4Bpp dst src' wShift hShift = pvr2TexDetwiddle4Bpp dst src wShift hShift := by
  apply scan_congr
  intro dst col hcol row hrow
  have hidx := texTwiddle_lt hcol hrow
  have hhalf := pixels_eq_two_mul even hShift
  rw [nibble_congr]
  apply same
  omega

theorem pvr2TexVqDecompress_congr {dst codeBook codeBook' src src' : Memory} {sideShift : Nat}
    (sameBook : ∀ i < codeBookLen, codeBook' i = codeBook i)
    (same : ∀ i < (1 <<< (sideShift - 1)) * (1 <<< (sideShift - 1)), src' i = src i) :
    pvr2TexVqDecompress dst codeBook' src' sideShift =
      pvr2TexVqDecompress dst codeBook src sideShift := by
  apply scan_congr
  intro dst col hcol row hrow
  have hcolor : ∀ (dst : Memory) (pix : Nat) (idx : UInt8), ∀ j < 4,
      copyColor dst pix codeBook' idx j = copyColor dst pix codeBook idx j := by
    intro dst pix idx j hj
    apply copy_congr
    intro i hi
    have hidx := idx.toNat_lt
    exact sameBook _ (by simp only [codeBookLen]; omega)
  simp only [same _ (texTwiddle_lt hcol hrow), hcolor _ _ _ 0 (by decide),
    hcolor _ _ _ 1 (by decide), hcolor _ _ _ 2 (by decide), hcolor _ _ _ 3 (by decide)]

variable {paletteTp paletteTp' : UInt32}

namespace TexMeta

variable {m : TexMeta}

theorem texDat_congr {mem mem' : Memory} {beg nBytes : Nat} (even : 1 ≤ m.wShift)
    (hbeg : m.beg = some beg) (hbytes : m.nBytes = some nBytes)
    (same : ∀ i, m.Reads i → mem' i = mem i) :
    m.texDat mem' beg nBytes = m.texDat mem beg nBytes := by
  have hsrc : ∀ i < m.srcLen, mem' (beg + i) = mem (beg + i) :=
    fun i hi => same _ (.inr ⟨beg, hbeg, le_add_right _ _, Nat.add_lt_add_left hi _⟩)
  cases hvq : m.vqCompression with
  | true =>
    have hlen : m.srcLen = (1 <<< (m.wShift - 1)) * (1 <<< (m.wShift - 1)) := if_pos hvq
    rw [hlen] at hsrc
    have hbook : ∀ i < codeBookLen,
        mem' (m.addrFirst.toNat + i) = mem (m.addrFirst.toNat + i) :=
      fun i hi => same _ (.inl ⟨hvq, le_add_right _ _, Nat.add_lt_add_left hi _⟩)
    simp only [texDat, hvq, if_true]
    rw [@pvr2TexVqDecompress_congr _ _ (fun i => mem' (m.addrFirst.toNat + i)) _ _ _ hbook hsrc]
  | false =>
    have hlen : m.srcLen = nBytes := by
      simp only [srcLen, hvq, hbytes]
      rfl
    rw [hlen] at hsrc
    simp only [texDat, hvq, Bool.false_eq_true, if_false]
    by_cases htwiddled : m.twiddled = true
    · by_cases hfmt : m.texFmt = .pal4Bpp
      · have hhalf : nBytes = (1 <<< m.wShift) * (1 <<< m.hShift) / 2 := by
          simpa [TexMeta.nBytes, hfmt] using hbytes.symm
        simp only [if_pos htwiddled, if_pos hfmt]
        rw [@pvr2TexDetwiddle4Bpp_congr _ _ (fun i => mem' (beg + i)) _ _ even (hhalf ▸ hsrc)]
      · have hall : nBytes = (1 <<< m.wShift) * (1 <<< m.hShift) * m.texFmt.pixelSize := by
          simp only [TexMeta.nBytes, if_neg hfmt] at hbytes
          split at hbytes
          · cases hbytes
          · exact (Option.some.inj hbytes).symm
        simp only [if_pos htwiddled, if_neg hfmt]
        rw [@pvr2TexDetwiddle_congr _ _ (fun i => mem' (beg + i)) _ _ _ (hall ▸ hsrc)]
    · simp only [if_neg htwiddled]
      rw [@copy_congr _ (fun i => mem' (beg + i)) 0 nBytes]
      intro i hi
      simpa using hsrc i hi

theorem withPalette_eq {palRam palRam' : Memory}
    (plain : m.texFmt.isPaletted = false) (dat : Memory) (nBytes : Nat) :
    m.withPalette palRam' paletteTp' dat nBytes = m.withPalette palRam paletteTp dat nBytes := by
  cases hfmt : m.texFmt <;> simp_all [withPalette, TexCtrlPixFmt.isPaletted]

end TexMeta

theorem pvr2TexCacheRead_congr {mem mem' palRam palRam' : Memory}
    {m : TexMeta} (even : 1 ≤ m.wShift) (same : ∀ i, m.Reads i → mem' i = mem i)
    (palette : m.texFmt.isPaletted = true → palRam' = palRam ∧ paletteTp' = paletteTp) :
    pvr2TexCacheRead mem' palRam' paletteTp' m = pvr2TexCacheRead mem palRam paletteTp m := by
  have hpalette : ∀ dat nBytes, m.withPalette palRam' paletteTp' dat nBytes =
      m.withPalette palRam paletteTp dat nBytes := by
    intro dat nBytes
    cases hpal : m.texFmt.isPaletted with
    | true =>
      obtain ⟨rfl, rfl⟩ := palette hpal
      rfl
    | false => exact TexMeta.withPalette_eq hpal dat nBytes
  simp only [pvr2TexCacheRead, hpalette, bind_eq_bind]
  cases hbytes : m.nBytes with
  | none => simp only [bind_none]
  | some nBytes =>
    cases hbeg : m.beg with
    | none => simp only [bind_some, bind_none]
    | some beg => simp only [bind_some, TexMeta.texDat_congr even hbeg hbytes same]

theorem pvr2TexCacheRead_inMemory {mem palRam : Memory} {paletteTp : UInt32} {m : TexMeta}
    {dat : List UInt8} (read : pvr2TexCacheRead mem palRam paletteTp m = some dat) :
    m.InMemory := by
  by_contra outside
  rw [pvr2TexCacheRead, if_pos (.inr outside)] at read
  cases read

end Pvr2
