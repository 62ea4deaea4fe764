import WashingtonDC.ByteMemory
import WashingtonDC.Pvr2.FbWrites
import WashingtonDC.RowMajor
import Mathlib.Tactic.IntervalCases

/-!
# The pixels of framebuffers

`framebuffer.c` copies the image of a framebuffer from the host to texture memory and reads images
from texture memory for the host. A RGB565 image without a clip minimum comes back upside down and
with the bits that the format has, if its lines are those that are read. The other formats and clip
minima do not have this property.

The buffer of the host is a function on its bytes, and for reading one on its pixels. The texture
cache, which is told of copies to the 64-bit area, is left out. An error of the program has no result.
-/
namespace Pvr2

open UInt32 Function List Nat ByteMemory RowMajor Option
open ByteMemory (Memory)

/-- The members of `struct framebuffer` that tell where its pixels are. -/
structure FbImage where
  fmt : FbPixFmt
  addrFirst : UInt32 × UInt32
  linestride : UInt32
  fbReadWidth : UInt32
  fbReadHeight : UInt32
  tileW : UInt32
  tileH : UInt32
  xClipMin : UInt32
  xClipMax : UInt32
  yClipMin : UInt32
  yClipMax : UInt32

/-- `copy_to_tex_mem`, of a value with some bytes. -/
def copyToTexMem (mem : TexArea → Memory) (val : Nat) (offs : UInt32) (len : Nat) :
    Option (TexArea → Memory) :=
  let lastByte := offs - 1 + ofNat len
  if lastByte &&& 0xff000000 ≠ offs &&& 0xff000000 then none
  else (texByte offs).map fun (area, byte) =>
    update mem area (store (mem area) byte len val)

/-! ## From the host -/

/-- The pixel of `fb_sync_from_host_0565_krgb`. -/
def pack0565Krgb (p0 p1 p2 _p3 : UInt8) : UInt16 :=
  (p2.toUInt16 &&& 0xf8) >>> 3 ||| (p1.toUInt16 &&& 0xfc) <<< 3 ||| (p0.toUInt16 &&& 0xf8) <<< 8

/-- The pixel of `fb_sync_from_host_0555_krgb`. Green is shifted as for six bits. -/
def pack0555Krgb (p0 p1 p2 _p3 : UInt8) : UInt16 :=
  (p2.toUInt16 &&& 0xf8) >>> 3 ||| (p1.toUInt16 &&& 0xf8) <<< 3 ||| (p0.toUInt16 &&& 0xf8) <<< 7

/-- The pixel of `fb_sync_from_host_1555_argb`. Blue is multiplied with its mask. -/
def pack1555Argb (p0 p1 p2 p3 : UInt8) : UInt16 :=
  let red := (p0.toUInt16 &&& 0xf8) >>> 3
  let green := (p1.toUInt16 &&& 0xf8) >>> 3
  let blue := (p2.toUInt16 * 0xf8) >>> 3
  let alpha : UInt16 := if p3 ≠ 0 then 1 else 0
  alpha <<< 15 ||| red <<< 10 ||| green <<< 5 ||| blue

namespace FbImage

variable (fb : FbImage)

def xMax : UInt32 := if fb.tileW < fb.xClipMax then fb.tileW else fb.xClipMax

def yMax : UInt32 := if fb.tileH < fb.yClipMax then fb.tileH else fb.yClipMax

def width : UInt32 := fb.xMax - fb.xClipMin + 1

def height : UInt32 := fb.yMax - fb.yClipMin + 1

def pixelOffs (row col : UInt32) : UInt32 :=
  fb.addrFirst.1 + (fb.height - (row + 1)) * fb.linestride + 2 * col

def pixelIn (pack : UInt8 → UInt8 → UInt8 → UInt8 → UInt16) (oglFb : Memory) (row col : UInt32) :
    UInt16 :=
  let fbIdx := row * fb.width + col
  pack (oglFb (4 * fbIdx).toNat) (oglFb (4 * fbIdx + 1).toNat) (oglFb (4 * fbIdx + 2).toNat)
    (oglFb (4 * fbIdx + 3).toNat)

def fbSyncFromHost16 (pack : UInt8 → UInt8 → UInt8 → UInt8 → UInt16) (oglFb : Memory)
    (mem : TexArea → Memory) : Option (TexArea → Memory) :=
  (range' fb.yClipMin.toNat (fb.yMax.toNat + 1 - fb.yClipMin.toNat)).foldlM
    (fun mem row =>
      (range' fb.xClipMin.toNat (fb.xMax.toNat + 1 - fb.xClipMin.toNat)).foldlM
        (fun mem col =>
          copyToTexMem mem (fb.pixelIn pack oglFb (.ofNat row) (.ofNat col)).toNat
            (fb.pixelOffs (.ofNat row) (.ofNat col)) 2) mem) mem

def fbSyncFromHost0565Krgb := fb.fbSyncFromHost16 pack0565Krgb

def fbSyncFromHost0555Krgb := fb.fbSyncFromHost16 pack0555Krgb

def fbSyncFromHost1555Argb := fb.fbSyncFromHost16 pack1555Argb

/-- The loops of the formats with four bytes, for two fields. The columns are two bytes apart. -/
def fbSyncFromHost32 (mask : UInt32) (oglFb : Memory) (mem : TexArea → Memory) :
    Option (TexArea → Memory) :=
  let rowsPerField := fb.fbReadHeight / 2
  (range rowsPerField.toNat).foldlM
    (fun mem row =>
      (range fb.fbReadWidth.toNat).foldlM
        (fun mem col => do
          let lines := (rowsPerField - (ofNat row + 1)) * fb.linestride
          let pixOut (rowActual : UInt32) : UInt32 :=
            .ofNat (load oglFb
              (4 * (rowActual * fb.fbReadWidth + .ofNat col).toNat) 4) &&& mask
          let mem ← copyToTexMem mem (pixOut (2 * .ofNat row)).toNat
            (fb.addrFirst.1 + lines + 2 * .ofNat col) 4
          copyToTexMem mem (pixOut (2 * .ofNat row + 1)).toNat
            (fb.addrFirst.2 + lines + 2 * .ofNat col) 4) mem) mem

def fbSyncFromHostRgb0888 := fb.fbSyncFromHost32 0x00ffffff

def fbSyncFromHostArgb8888 := fb.fbSyncFromHost32 0xffffffff

/-- `sync_fb_to_tex_mem` for a framebuffer of which the host has the newest contents. -/
def syncFbToTexMem (oglFb : Memory) (mem : TexArea → Memory) : Option (TexArea → Memory) :=
  match fb.fmt with
  | .rgb555 => fb.fbSyncFromHost0555Krgb oglFb mem
  | .rgb565 => fb.fbSyncFromHost0565Krgb oglFb mem
  | .zeroRgb0888 => fb.fbSyncFromHostRgb0888 oglFb mem
  | .argb8888 => fb.fbSyncFromHostArgb8888 oglFb mem
  | .argb1555 => fb.fbSyncFromHost1555Argb oglFb mem
  | .rgb888 => none

end FbImage

/-! ## From texture memory -/

/-- A pixel of `conv_rgb565_to_rgba8888`. -/
def convRgb565ToRgba8888 (concat : UInt8) (pix : UInt16) : UInt32 :=
  let r := (pix.toUInt32 &&& 0xf800) >>> 11 <<< 3 ||| concat.toUInt32
  let g := (pix.toUInt32 &&& 0x07e0) >>> 5 <<< 2 ||| (concat.toUInt32 &&& 0x3)
  let b := (pix.toUInt32 &&& 0x001f) <<< 3 ||| concat.toUInt32
  (255 : UInt32) <<< 24 ||| b <<< 16 ||| g <<< 8 ||| r

/-- A pixel of `conv_rgb555_to_rgba8888`. -/
def convRgb555ToRgba8888 (concat : UInt8) (pix : UInt16) : UInt32 :=
  let b := (pix.toUInt32 &&& 0x001f) <<< 3 ||| concat.toUInt32
  let g := (pix.toUInt32 &&& 0x03e0) >>> 5 <<< 2 ||| (concat.toUInt32 &&& 3)
  let r := (pix.toUInt32 &&& 0xec00) >>> 10 <<< 2 ||| concat.toUInt32
  (255 : UInt32) <<< 24 ||| b <<< 16 ||| g <<< 8 ||| r

/-- A pixel of `conv_rgb888_to_rgba8888`. -/
def convRgb888ToRgba8888 (r g b : UInt8) : UInt32 :=
  (255 : UInt32) <<< 24 ||| r.toUInt32 <<< 16 ||| g.toUInt32 <<< 8 ||| b.toUInt32

/-- A pixel of `conv_rgb0888_to_rgba8888`. -/
def convRgb0888ToRgba8888 (pix : UInt32) : UInt32 :=
  let r := (pix &&& 0x00ff0000) >>> 16
  let g := (pix &&& 0x0000ff00) >>> 8
  let b := pix &&& 0x000000ff
  (255 : UInt32) <<< 24 ||| b <<< 16 ||| g <<< 8 ||| r

/-- The conversion of a row. A pixel has `px` bytes, which `conv` gets as a number. -/
def convRow (px : Nat) (conv : Nat → UInt32) (mem : Memory) (width : Nat) (dst : Nat → UInt32)
    (out ptr : Nat) : Nat → UInt32 :=
  (range width).foldl
    (fun dst idx => update dst (out + idx) (conv (load mem (ptr + px * idx) px)))
    dst

/-- The loop of `sync_fb_from_tex_mem_*_prog`. -/
def convProg (px : Nat) (conv : Nat → UInt32) (mem : Memory) (width height sof1 : Nat)
    (dst : Nat → UInt32) : Nat → UInt32 :=
  (range height).foldl
    (fun dst row => convRow px conv mem width dst (row * width) (sof1 + px * (width * row))) dst

/-- The loop of `sync_fb_from_tex_mem_*_intl`. -/
def convIntl (px : Nat) (conv : Nat → UInt32) (mem : Memory)
    (width height sof1 sof2 fieldAdv : Nat) (dst : Nat → UInt32) : Nat → UInt32 :=
  (range height).foldl
    (fun dst row =>
      let dst := convRow px conv mem width dst (row * 2 * width) (sof1 + row * fieldAdv)
      convRow px conv mem width dst ((row * 2 + 1) * width) (sof2 + row * fieldAdv)) dst

namespace FbRegs

variable (r : FbRegs)

def concat : UInt8 := ((r.fbRCtrl >>> 4) &&& 7).toUInt8

/-- The pixels that `sync_fb_from_tex_mem_*` gives to the host, with the check of the addresses. Two
of the functions clear the buffer first. -/
def readPixels (mem : TexArea → Memory) (dst : Nat → UInt32) : Option (Nat → UInt32) := do
  let (width, height) ← r.dims
  let _ ← r.syncFbFromTexMem width height
  let sof1 := (r.fbRSof1 &&& ~~~3).toNat
  let sof2 := (r.fbRSof2 &&& ~~~3).toNat
  let rgb555 := fun v => convRgb555ToRgba8888 r.concat (.ofNat v)
  let rgb565 := fun v => convRgb565ToRgba8888 r.concat (.ofNat v)
  let rgb888 := fun v => convRgb888ToRgba8888 (.ofNat v) (.ofNat (v / 256)) (.ofNat (v / 65536))
  let rgb0888 := fun v => convRgb0888ToRgba8888 (.ofNat v)
  let intl (px : UInt32) (conv : Nat → UInt32) :=
    convIntl px.toNat conv (mem .tex32) width.toNat height.toNat sof1 sof2
      (width * px + r.modulus * 4 - 4).toNat dst
  let prog (px : Nat) (conv : Nat → UInt32) :=
    convProg px conv (mem .tex32) width.toNat height.toNat sof1
  match ((r.fbRCtrl &&& 0xc) >>> 2).toNat, r.interlace with
  | 0, true => return intl 2 rgb555
  | 0, false => return prog 2 rgb555 fun _ => 0xffffffff
  | 1, true => return intl 2 rgb565
  | 1, false => return prog 2 rgb565 fun _ => 0xffffffff
  | 2, true => return intl 3 rgb888
  | 2, false => none
  | _, true => return intl 4 rgb0888
  | _, false => return prog 4 rgb0888 dst

end FbRegs

/-! ## Reading rows -/

variable {row col : Nat}

section
variable {px : Nat} {conv : Nat → UInt32} {mem : Memory} {width : Nat}

theorem convRow_inside (dst : Nat → UInt32) (out ptr : Nat) {idx : Nat} (hidx : idx < width) :
    convRow px conv mem width dst out ptr (out + idx) =
      conv (load mem (ptr + px * idx) px) := by
  refine @look_foldl _ _ (fun dst : Nat → UInt32 => dst (out + idx)) _ _ _ (· = idx) _ ?_ ?_ _
    (.inr ⟨idx, mem_range.mpr hidx, rfl⟩)
  · rintro dst _ - rfl
    exact update_self _ _ _
  · intro dst idx' _ hne
    exact update_of_ne (by omega) _ _

theorem convRow_outside (dst : Nat → UInt32) (out ptr : Nat) {z : Nat}
    (outside : z < out ∨ out + width ≤ z) : convRow px conv mem width dst out ptr z = dst z := by
  refine @look_foldl_of_forall _ _ (fun dst : Nat → UInt32 => dst z) _ _ _ ?_ dst
  intro dst idx hidx
  have hlt := mem_range.mp hidx
  exact update_of_ne (by omega) _ _

def convRows (px : Nat) (conv : Nat → UInt32) (mem : Memory) (width rows : Nat) (ptr : Nat → Nat)
    (dst : Nat → UInt32) : Nat → UInt32 :=
  (range rows).foldl
    (fun dst row => convRow px conv mem width dst (row * width) (ptr row)) dst

theorem convRows_apply {rows : Nat} (ptr : Nat → Nat) (dst : Nat → UInt32)
    (hrow : row < rows) (hcol : col < width) :
    convRows px conv mem width rows ptr dst (row * width + col) =
      conv (load mem (ptr row + px * col) px) := by
  refine @look_foldl _ _ (fun dst : Nat → UInt32 => dst (row * width + col)) _ _ _
    (· = row) _ ?_ ?_ _ (.inr ⟨row, mem_range.mpr hrow, rfl⟩)
  · rintro dst _ - rfl
    exact convRow_inside dst _ _ hcol
  · intro dst row' _ hne
    refine convRow_outside dst _ _ ?_
    rcases Nat.lt_or_gt_of_ne hne with hlt | hgt
    · have hle := Nat.mul_le_mul_right width (succ_le_of_lt hlt)
      rw [succ_mul] at hle
      omega
    · have hle := Nat.mul_le_mul_right width (succ_le_of_lt hgt)
      rw [succ_mul] at hle
      omega

theorem convIntl_eq_convRows (height sof1 sof2 fieldAdv : Nat) (dst : Nat → UInt32) :
    convIntl px conv mem width height sof1 sof2 fieldAdv dst =
      convRows px conv mem width (2 * height)
        (fun row => (if row % 2 = 0 then sof1 else sof2) + row / 2 * fieldAdv) dst := by
  induction height with
  | zero => rfl
  | succ n ih =>
    have hodd : ¬(2 * n + 1) % 2 = 0 := by omega
    have hhalf : (2 * n + 1) / 2 = n := by omega
    rw [convIntl, range_succ, foldl_append, ← convIntl, ih, convRows, convRows,
      mul_succ, range_succ, range_succ, foldl_append, foldl_append]
    simp only [foldl_cons, foldl_nil, mul_mod_right, if_true, if_neg hodd, hhalf,
      Nat.mul_div_cancel_left n (by decide : 0 < 2), mul_comm n 2]

end

namespace FbRegs

variable {r : FbRegs}

def rows (r : FbRegs) (height : UInt32) : Nat :=
  if r.interlace then 2 * height.toNat else height.toNat

def lineAddr (r : FbRegs) (width : UInt32) (row : Nat) : Nat :=
  if r.interlace then
    (if row % 2 = 0 then (r.fbRSof1 &&& ~~~3).toNat else (r.fbRSof2 &&& ~~~3).toNat) +
      row / 2 * (width * 2 + r.modulus * 4 - 4).toNat
  else (r.fbRSof1 &&& ~~~3).toNat + 2 * (width.toNat * row)

theorem readPixels_rgb565 {width height : UInt32} (mem : TexArea → Memory) (dst : Nat → UInt32)
    (dims : r.dims = some (width, height)) (readable : (r.syncFbFromTexMem width height).isSome)
    (pxTp : ((r.fbRCtrl &&& 0xc) >>> 2).toNat = 1) :
    ∃ image, r.readPixels mem dst = some image ∧
      ∀ row < r.rows height, ∀ col < width.toNat, image (row * width.toNat + col) =
        convRgb565ToRgba8888 r.concat
          (.ofNat (load (mem .tex32) (r.lineAddr width row + 2 * col) 2)) := by
  obtain ⟨target, htarget⟩ := isSome_iff_exists.mp readable
  cases hintl : r.interlace with
  | true =>
    simp only [readPixels, dims, pxTp, hintl, bind_eq_bind, bind_some, htarget]
    refine ⟨_, rfl, ?_⟩
    intro row hrow col hcol
    simp only [rows, lineAddr, hintl, if_true] at hrow ⊢
    rw [convIntl_eq_convRows]
    exact convRows_apply _ _ hrow hcol
  | false =>
    simp only [readPixels, dims, pxTp, hintl, bind_eq_bind, bind_some, htarget]
    refine ⟨_, rfl, ?_⟩
    intro row hrow col hcol
    simp only [rows, lineAddr, hintl, Bool.false_eq_true, if_false] at hrow ⊢
    exact convRows_apply (fun row => (r.fbRSof1 &&& ~~~3).toNat + 2 * (width.toNat * row)) _ hrow
      hcol

end FbRegs

/-! ## Writing rows -/

theorem copyToTexMem_tex32 (mem : TexArea → Memory) (val : Nat) {offs : UInt32}
    (inside : offs.toNat + 2 ≤ TexArea.len) :
    copyToTexMem mem val offs 2 =
      some (update mem .tex32 (store (mem .tex32) offs.toNat 2 val)) := by
  have hlen : TexArea.len ≤ 2 ^ 24 := by decide
  have hlast : (offs - 1 + ofNat 2).toNat = offs.toNat + 1 := by
    have hnext : offs - 1 + ofNat 2 = offs + 1 := by grind
    have hone : (1 : UInt32).toNat = 1 := rfl
    rw [hnext, UInt32.toNat_add, hone]
    omega
  have hhigh : ∀ {a : UInt32}, a.toNat < 2 ^ 24 → a &&& 0xff000000 = 0 := by
    intro a ha
    have hand : (a &&& ~~~0x00ffffff).toNat = a.toNat - a.toNat % 2 ^ 24 :=
      WordMask.toNat_and_high rfl
    rw [mod_eq_of_lt ha, Nat.sub_self] at hand
    exact UInt32.toNat_inj.mp hand
  have hsame : ¬(offs - 1 + ofNat 2) &&& 0xff000000 ≠ offs &&& 0xff000000 := by
    rw [hhigh (by omega), hhigh (by omega)]
    exact fun h => h rfl
  have hbyte : texByte offs = some (.tex32, offs.toNat) :=
    @texByte_of_window .tex32 offs (Nat.zero_le _) (by simp only [TexArea.base]; omega)
  simp only [copyToTexMem, if_neg hsame, hbyte, map_some]

namespace FbImage

variable {fb : FbImage} {pack : UInt8 → UInt8 → UInt8 → UInt8 → UInt16} {oglFb : Memory}

/-- An image of pixels with two bytes without a clip minimum, in the 32-bit area and in the buffer of
the host. -/
structure Unclipped (fb : FbImage) : Prop where
  xClipMin : fb.xClipMin = 0
  yClipMin : fb.yClipMin = 0
  stride : 2 * (fb.xMax.toNat + 1) ≤ fb.linestride.toNat
  inside : fb.addrFirst.1.toNat + fb.yMax.toNat * fb.linestride.toNat + 2 * (fb.xMax.toNat + 1) ≤
    TexArea.len
  buffer : 4 * ((fb.xMax.toNat + 1) * (fb.yMax.toNat + 1)) < 1024 * 1024 * 4

def lineByte (fb : FbImage) (line i : Nat) : Nat :=
  fb.addrFirst.1.toNat + index fb.linestride.toNat i line

theorem Unclipped.lineByte_lt (unclipped : fb.Unclipped) {line i : Nat} (hline : line ≤ fb.yMax.toNat)
    (hi : i < 2 * (fb.xMax.toNat + 1)) : fb.lineByte line i < TexArea.len := by
  have hinside := unclipped.inside
  have hle := Nat.mul_le_mul_right fb.linestride.toNat hline
  rw [lineByte, index]
  omega

theorem Unclipped.pixelOffs_toNat (unclipped : fb.Unclipped)
    (hrow : row ≤ fb.yMax.toNat) (hcol : col ≤ fb.xMax.toNat) :
    (fb.pixelOffs (.ofNat row) (.ofNat col)).toNat =
      fb.lineByte (fb.yMax.toNat - row) (2 * col) := by
  have hlen : TexArea.len < 2 ^ 32 := by decide
  have hinside := @lineByte_lt fb unclipped (fb.yMax.toNat - row) (2 * col)
    (sub_le _ _) (by omega)
  have hlines : (fb.height - (ofNat row + 1)) = ofNat (fb.yMax.toNat - row) := by
    rw [height, unclipped.yClipMin, ofNat_sub hrow, UInt32.ofNat_toNat]
    grind
  have hoffs : fb.pixelOffs (.ofNat row) (.ofNat col) =
      ofNat (fb.lineByte (fb.yMax.toNat - row) (2 * col)) := by
    rw [pixelOffs, hlines, lineByte, index, ofNat_add, ofNat_add,
      ofNat_mul, ofNat_mul, UInt32.ofNat_toNat, UInt32.ofNat_toNat]
    grind
  rw [hoffs, toNat_ofNat', mod_eq_of_lt (by omega)]

theorem Unclipped.pixelIn_eq (unclipped : fb.Unclipped)
    (hrow : row ≤ fb.yMax.toNat) (hcol : col ≤ fb.xMax.toNat) :
    fb.pixelIn pack oglFb (.ofNat row) (.ofNat col) =
      let idx := row * (fb.xMax.toNat + 1) + col
      pack (oglFb (4 * idx)) (oglFb (4 * idx + 1)) (oglFb (4 * idx + 2)) (oglFb (4 * idx + 3)) := by
  have hbuffer := unclipped.buffer
  have hidx : row * (fb.xMax.toNat + 1) + col < (fb.xMax.toNat + 1) * (fb.yMax.toNat + 1) :=
    index_lt (lt_succ_of_le hcol) (lt_succ_of_le hrow)
  have hwidth : fb.width = ofNat (fb.xMax.toNat + 1) := by
    rw [width, unclipped.xClipMin, ofNat_add, UInt32.ofNat_toNat]
    grind
  have hbyte : ∀ k < 4, (4 * (ofNat row * fb.width + ofNat col) + ofNat k).toNat =
      4 * (row * (fb.xMax.toNat + 1) + col) + k := by
    intro k hk
    have hword : 4 * (ofNat row * fb.width + ofNat col) + ofNat k =
        ofNat (4 * (row * (fb.xMax.toNat + 1) + col) + k) := by
      simp only [hwidth, ofNat_add, ofNat_mul]
      rfl
    rw [hword, toNat_ofNat', mod_eq_of_lt (by omega)]
  have hzero := hbyte 0 (by decide)
  have hone := hbyte 1 (by decide)
  have htwo := hbyte 2 (by decide)
  have hthree := hbyte 3 (by decide)
  simp only [reduceOfNat, add_zero] at hzero hone htwo hthree
  simp only [pixelIn, hzero, hone, htwo, hthree]

def paint (fb : FbImage) (pack : UInt8 → UInt8 → UInt8 → UInt8 → UInt16) (oglFb : Memory)
    (mem : TexArea → Memory) : TexArea → Memory :=
  scan (fb.xMax.toNat + 1) (fb.yMax.toNat + 1)
    (fun mem col row => update mem .tex32
      (store (mem .tex32) (fb.lineByte (fb.yMax.toNat - row) (2 * col)) 2
        (fb.pixelIn pack oglFb (.ofNat row) (.ofNat col)).toNat)) mem

theorem Unclipped.fbSyncFromHost16_eq (unclipped : fb.Unclipped) (mem : TexArea → Memory) :
    fb.fbSyncFromHost16 pack oglFb mem = some (fb.paint pack oglFb mem) := by
  have hzero : (0 : UInt32).toNat = 0 := rfl
  simp only [fbSyncFromHost16, unclipped.xClipMin, unclipped.yClipMin, hzero, Nat.sub_zero,
    ← range_eq_range']
  refine foldlM_foldlM_eq_scan ?_ mem
  intro mem col hcol row hrow
  have hcol' := le_of_lt_succ hcol
  have hrow' := le_of_lt_succ hrow
  have hoffs := unclipped.pixelOffs_toNat hrow' hcol'
  have hinside := @lineByte_lt fb unclipped (fb.yMax.toNat - row) (2 * col + 1)
    (sub_le _ _) (by omega)
  rw [copyToTexMem_tex32 _ _ (by rw [hoffs]; exact hinside), hoffs]

theorem lineByte_add (line i k : Nat) : fb.lineByte line i + k = fb.lineByte line (i + k) := by
  rw [lineByte, lineByte, index, index]
  omega

theorem Unclipped.lineByte_ne (unclipped : fb.Unclipped) {line i line' i' : Nat}
    (hi : i < 2 * (fb.xMax.toNat + 1)) (hi' : i' < 2 * (fb.xMax.toNat + 1))
    (hne : (i, line) ≠ (i', line')) : fb.lineByte line i ≠ fb.lineByte line' i' := by
  have hstride := unclipped.stride
  intro heq
  refine hne ((index_inj (lt_of_lt_of_le hi hstride)
    (lt_of_lt_of_le hi' hstride)).mp ?_)
  simp only [lineByte] at heq
  omega

theorem Unclipped.paint_inside (unclipped : fb.Unclipped) (mem : TexArea → Memory) {row col k : Nat}
    (hrow : row ≤ fb.yMax.toNat) (hcol : col ≤ fb.xMax.toNat) (hk : k < 2) :
    fb.paint pack oglFb mem .tex32 (fb.lineByte (fb.yMax.toNat - row) (2 * col) + k) =
      UInt8.ofNat ((fb.pixelIn pack oglFb (.ofNat row) (.ofNat col)).toNat / 256 ^ k) := by
  refine @look_scan _ _ _ _
    (fun mem : TexArea → Memory => mem .tex32 (fb.lineByte (fb.yMax.toNat - row) (2 * col) + k)) _ _
    (· = (col, row)) ?_ ?_ mem
    ⟨(col, row), mem_cells.mpr ⟨lt_succ_of_le hcol, lt_succ_of_le hrow⟩, rfl⟩
  · rintro mem _ - rfl
    simp only [update_self, store]
    rw [if_pos (by omega), Nat.add_sub_cancel_left]
  · rintro mem ⟨col', row'⟩ hcell hne
    obtain ⟨hcol', hrow'⟩ := mem_cells.mp hcell
    simp only [update_self]
    refine store_outside _ ?_
    have hother : ∀ k' < 2, fb.lineByte (fb.yMax.toNat - row) (2 * col) + k ≠
        fb.lineByte (fb.yMax.toNat - row') (2 * col') + k' := by
      intro k' hk'
      rw [lineByte_add, lineByte_add]
      refine unclipped.lineByte_ne (by omega) (by omega) ?_
      intro heq
      obtain ⟨hcols, hrows⟩ := Prod.mk.inj heq
      have hsame : col' = col ∧ row' = row := by omega
      exact hne (by rw [hsame.1, hsame.2])
    have hfirst := hother 0 (by decide)
    have hsecond := hother 1 (by decide)
    omega

theorem paint_outside (mem : TexArea → Memory) {area : TexArea} {z : Nat}
    (outside : area = .tex32 → ∀ line ≤ fb.yMax.toNat, ∀ i < 2 * (fb.xMax.toNat + 1),
      z ≠ fb.lineByte line i) : fb.paint pack oglFb mem area z = mem area z := by
  refine @look_scan_of_forall _ _ _ _ (fun mem : TexArea → Memory => mem area z) _ ?_ mem
  rintro mem ⟨col, row⟩ hcell
  obtain ⟨hcol, hrow⟩ := mem_cells.mp hcell
  cases area with
  | tex64 => exact congrFun (update_of_ne (by decide) _ _) z
  | tex32 =>
    have hother := outside rfl (fb.yMax.toNat - row) (sub_le _ _)
    have hfirst := hother (2 * col) (by omega)
    have hsecond := hother (2 * col + 1) (by omega)
    rw [← lineByte_add] at hsecond
    simp only [update_self]
    exact store_outside _ (by omega)

theorem Unclipped.load_paint (unclipped : fb.Unclipped) (mem : TexArea → Memory) {line col : Nat}
    (hline : line ≤ fb.yMax.toNat) (hcol : col ≤ fb.xMax.toNat) :
    UInt16.ofNat (load (fb.paint pack oglFb mem .tex32) (fb.lineByte line (2 * col)) 2) =
      fb.pixelIn pack oglFb (.ofNat (fb.yMax.toNat - line)) (.ofNat col) := by
  have hrow : fb.yMax.toNat - (fb.yMax.toNat - line) = line := by omega
  have hfits : (fb.pixelIn pack oglFb (.ofNat (fb.yMax.toNat - line)) (.ofNat col)).toNat < 256 ^ 2 :=
    UInt16.toNat_lt _
  have hbytes := fun k => @paint_inside fb pack oglFb unclipped mem
    (fb.yMax.toNat - line) col k (sub_le _ _) hcol
  rw [hrow] at hbytes
  rw [load_digits hbytes, mod_eq_of_lt hfits, UInt16.ofNat_toNat]

end FbImage

/-! ## There and back -/

def rgba8888 (r g b : UInt8) : UInt32 :=
  (255 : UInt32) <<< 24 ||| b.toUInt32 <<< 16 ||| g.toUInt32 <<< 8 ||| r.toUInt32

theorem convRgb565ToRgba8888_pack0565Krgb (concat p0 p1 p2 p3 : UInt8) :
    convRgb565ToRgba8888 concat (pack0565Krgb p0 p1 p2 p3) =
      rgba8888 (p0 &&& 0xf8 ||| concat) (p1 &&& 0xfc ||| (concat &&& 3))
        (p2 &&& 0xf8 ||| concat) := by
  apply UInt32.toBitVec_inj.mp
  refine BitVec.eq_of_getLsbD_eq fun i hi => ?_
  simp only [convRgb565ToRgba8888, pack0565Krgb, rgba8888, UInt32.toBitVec_or, UInt32.toBitVec_and,
    UInt32.toBitVec_shiftLeft, UInt32.toBitVec_shiftRight, UInt16.toBitVec_toUInt32,
    UInt16.toBitVec_or, UInt16.toBitVec_and, UInt16.toBitVec_shiftLeft, UInt16.toBitVec_shiftRight,
    UInt8.toBitVec_toUInt16, UInt8.toBitVec_toUInt32, UInt8.toBitVec_or, UInt8.toBitVec_and]
  interval_cases i <;> simp

/-- The lines of a RGB565 framebuffer are those that are read. -/
structure FbImage.LinesUp (fb : FbImage) (r : FbRegs) : Prop extends fb.Unclipped where
  fmt : fb.fmt = .rgb565
  pxTp : ((r.fbRCtrl &&& 0xc) >>> 2).toNat = 1
  dims : ∃ height, r.dims = some (fb.xMax + 1, height) ∧ r.rows height = fb.yMax.toNat + 1 ∧
    (r.syncFbFromTexMem (fb.xMax + 1) height).isSome = true
  lines : ∀ line ≤ fb.yMax.toNat, r.lineAddr (fb.xMax + 1) line = fb.lineByte line 0

/-- A RGB565 image whose lines are those that are read is read as it was written, upside down and with
the bits of the format. Only the bytes of its lines are written. -/
theorem FbImage.syncFbToTexMem_readPixels {fb : FbImage} {r : FbRegs} (linesUp : fb.LinesUp r)
    (oglFb : Memory) (mem : TexArea → Memory) (dst : Nat → UInt32) :
    ∃ mem' image, fb.syncFbToTexMem oglFb mem = some mem' ∧ r.readPixels mem' dst = some image ∧
      (∀ row ≤ fb.yMax.toNat, ∀ col ≤ fb.xMax.toNat,
        let idx := (fb.yMax.toNat - row) * (fb.xMax.toNat + 1) + col
        image (row * (fb.xMax.toNat + 1) + col) =
          rgba8888 (oglFb (4 * idx) &&& 0xf8 ||| r.concat)
            (oglFb (4 * idx + 1) &&& 0xfc ||| (r.concat &&& 3))
            (oglFb (4 * idx + 2) &&& 0xf8 ||| r.concat)) ∧
      ∀ area z, (area = .tex32 → ∀ line ≤ fb.yMax.toNat, ∀ i < 2 * (fb.xMax.toNat + 1),
        z ≠ fb.lineByte line i) → mem' area z = mem area z := by
  have unclipped := linesUp.toUnclipped
  obtain ⟨height, hdims, hrows, hreadable⟩ := linesUp.dims
  have hwidth : (fb.xMax + 1).toNat = fb.xMax.toNat + 1 := by
    have hstride := unclipped.stride
    have hlt := fb.linestride.toNat_lt
    have hone : (1 : UInt32).toNat = 1 := rfl
    rw [UInt32.toNat_add, hone, mod_eq_of_lt (by omega)]
  obtain ⟨image, hread, himage⟩ := FbRegs.readPixels_rgb565 (fb.paint pack0565Krgb oglFb mem) dst
    hdims hreadable linesUp.pxTp
  refine ⟨fb.paint pack0565Krgb oglFb mem, image, ?_, hread, ?_, ?_⟩
  · rw [syncFbToTexMem, linesUp.fmt]
    exact unclipped.fbSyncFromHost16_eq mem
  · intro row hrow col hcol
    have hpixel := himage row (by omega) col (by omega)
    rw [hwidth, linesUp.lines row hrow, lineByte_add, zero_add,
      unclipped.load_paint mem hrow hcol, unclipped.pixelIn_eq (sub_le _ _) hcol,
      convRgb565ToRgba8888_pack0565Krgb] at hpixel
    exact hpixel
  · intro area z outside
    exact paint_outside mem outside

def smallImage (fmt : FbPixFmt) (addr width yClipMin yClipMax : UInt32) : FbImage :=
  ⟨fmt, (addr, addr), 8, width, 2, 32, 32, 0, 3, yClipMin, yClipMax⟩

/-- The registers for a format, with all lines or with every second line in each of two fields. -/
def smallRegs (pxTp : UInt32) : Bool → FbRegs
  | false => ⟨(1 : UInt32) ||| pxTp <<< 2, 0x401, 0, 0, 0, 0, 0⟩
  | true => ⟨(1 : UInt32) ||| pxTp <<< 2, 0x300001, 0, 8, 0, 0, 0x10⟩

theorem smallImage_linesUp (interlace : Bool) :
    (smallImage .rgb565 0 4 0 1).LinesUp (smallRegs 1 interlace) := by
  refine ⟨⟨rfl, rfl, by decide, by decide, by decide⟩, rfl, ?_, ?_, ?_⟩
  · cases interlace <;> rfl
  · cases interlace with
    | false => exact ⟨2, by decide, by decide, by decide +kernel⟩
    | true => exact ⟨1, by decide, by decide, by decide +kernel⟩
  · cases interlace <;> decide

/-- The last line of the host is the first one that is read. -/
theorem syncFbToTexMem_readPixels_small :
    (∃ mem' image,
      (smallImage .rgb565 0 4 0 1).syncFbToTexMem (fun i => .ofNat (8 * i)) (fun _ _ => 0) =
        some mem' ∧
      (smallRegs 1 false).readPixels mem' (fun _ => 0) = some image ∧
      image 0 = rgba8888 (8 * 16) (8 * 17 &&& 0xfc) (8 * 18)) ∧
    ∃ mem' image,
      (smallImage .rgb565 0 4 0 1).syncFbToTexMem (fun i => .ofNat (8 * i)) (fun _ _ => 0) =
        some mem' ∧
      (smallRegs 1 true).readPixels mem' (fun _ => 0) = some image ∧
      image 0 = rgba8888 (8 * 16) (8 * 17 &&& 0xfc) (8 * 18) := by
  have hround := fun interlace => FbImage.syncFbToTexMem_readPixels (smallImage_linesUp interlace)
    (fun i => .ofNat (8 * i)) (fun _ _ => 0) fun _ => 0
  obtain ⟨mem, image, hsync, hread, himage, -⟩ := hround false
  obtain ⟨mem', image', hsync', hread', himage', -⟩ := hround true
  exact ⟨⟨mem, image, hsync, hread, (himage 0 (by decide) 0 (by decide)).trans (by decide)⟩,
    mem', image', hsync', hread', (himage' 0 (by decide) 0 (by decide)).trans (by decide)⟩

/-- A white image does not come back white in the formats with five bits or with four bytes. With a
blue pixel the format with an alpha bit gets other colors, and the pixels of four bytes overlap.
With a clip minimum the first byte is before the framebuffer. -/
theorem syncFbToTexMem_readPixels_wrong :
    (do
      let mem ← (smallImage .rgb555 0 4 0 1).syncFbToTexMem (fun _ => 0xff) fun _ _ => 0
      let image ← (smallRegs 0 false).readPixels mem fun _ => 0
      return image 0) = some (rgba8888 0x6c 0x78 0xf8) ∧
    (do
      let mem ← (smallImage .zeroRgb0888 0 2 0 1).syncFbToTexMem (fun _ => 0xff) fun _ _ => 0
      let image ← (smallRegs 3 false).readPixels mem fun _ => 0
      return image 1) = some (rgba8888 0 0 0xff) ∧
    (do
      let mem ← (smallImage .argb8888 0 2 0 1).syncFbToTexMem (fun _ => 0xff) fun _ _ => 0
      return load (mem .tex32) 4 4) = some 0x0000ffff ∧
    pack1555Argb 0 0 0xff 0xff = 0x9ee1 ∧
    (do
      let mem ← (smallImage .rgb565 16 4 1 1).syncFbToTexMem (fun _ => 0xff) fun _ _ => 0
      return mem .tex32 8) = some 0xff := by
  decide +kernel

end Pvr2
