import WashingtonDC.Pvr2.TexMem

/-!
# Framebuffers

The heap of framebuffers of `framebuffer.c`: which framebuffer a frame is rendered or read into,
and when the host has its newest contents. The pixels themselves are left out; copying them back to
texture memory may fail.

A write to texture memory is compared with the range from the first byte of a field to its last
pixel, as offsets from the 32-bit area. Memory behind such an offset is found in another way, by
which both areas are mirrored.
-/
namespace Pvr2

inductive FbState
  | invalid
  | virt
  | gfx
  | virtAndGfx
deriving DecidableEq

/-- `FB_STATE_GFX` is set: the host has the newest contents. -/
def FbState.hasGfx : FbState → Bool
  | gfx | virtAndGfx => true
  | _ => false

inductive FbPixFmt
  | rgb555
  | rgb565
  | rgb888
  | zeroRgb0888
  | argb8888
  | argb1555
deriving DecidableEq

/-- `addr_first` and `addr_last` of a field. The code does not keep its last byte, `stop`. -/
structure Field where
  first : UInt32
  last : UInt32
  stop : UInt32
deriving DecidableEq

structure Framebuffer where
  state : FbState
  fbReadWidth : UInt32
  fbReadHeight : UInt32
  addrKey : UInt32
  fields : Field × Field
  stamp : UInt32
  fmt : FbPixFmt

/-- What a framebuffer is set to. -/
structure Target where
  width : UInt32
  height : UInt32
  addrKey : UInt32
  fields : Field × Field
  fmt : FbPixFmt

/-- The registers that describe a framebuffer. -/
structure FbRegs where
  fbRCtrl : UInt32
  fbRSize : UInt32
  fbRSof1 : UInt32
  fbRSof2 : UInt32
  fbWCtrl : UInt32
  fbWSof1 : UInt32
  spgControl : UInt32

/-! ## Memory -/

/-- `get_tex_mem_area` and the offset that is used with it: the byte of texture memory behind an
offset. -/
def texByte (offs : UInt32) : Option (TexArea × Nat) :=
  let area := (offs + TexArea.first .tex32) &&& 0xff000000
  let byte := (offs &&& 0x7fffff).toNat
  if area = 0x04000000 ∨ area = 0x06000000 then some (.tex64, byte)
  else if area = 0x05000000 ∨ area = 0x07000000 then some (.tex32, byte)
  else none

def Field.Backs (f : Field) (b : TexArea × Nat) : Prop :=
  ∃ j, j ≤ (f.stop - f.first).toNat ∧ texByte (f.first + UInt32.ofNat j) = some b

def Framebuffer.Backs (fb : Framebuffer) (b : TexArea × Nat) : Prop :=
  fb.fields.1.Backs b ∨ fb.fields.2.Backs b

/-! ## Geometry -/

def bytesPerPix (fbRCtrl : UInt32) : UInt32 :=
  match ((fbRCtrl &&& 0xc) >>> 2).toNat with
  | 2 => 3
  | 3 => 4
  | _ => 2

/-- Rows of pixels of a size, with a modulus between them. The last pixel is found with a size of
its own. -/
def Field.rows (sof width height modulus px lastPx : UInt32) : Field :=
  let fieldAdv := width * px + modulus * 4 - 4
  { first := sof
    last := sof + fieldAdv * (height - 1) + lastPx * (width - 1)
    stop := sof + fieldAdv * (height - 1) + px * width - 1 }

/-- Rows without a gap. The address after the last pixel is taken for the last. -/
def Field.packed (sof width height px : UInt32) : Field :=
  { first := sof
    last := sof + width * height * px
    stop := sof + width * height * px - 1 }

/-- The size of a pixel and its format, for `FB_W_CTRL`. -/
def fbWFormat (fbWCtrl : UInt32) : Option (UInt32 × FbPixFmt) :=
  match (fbWCtrl &&& 7).toNat with
  | 0 => some (2, .rgb555)
  | 1 => some (2, .rgb565)
  | 3 => some (2, .argb1555)
  | 4 => some (3, .rgb888)
  | 5 => some (4, .zeroRgb0888)
  | 6 => some (4, .argb8888)
  | _ => none

namespace FbRegs

variable (r : FbRegs)

def dims : Option (UInt32 × UInt32) :=
  let pixSz := bytesPerPix r.fbRCtrl
  let width := ((r.fbRSize &&& 0x3ff) + 1) * 4
  if width % pixSz ≠ 0 then none
  else some (width / pixSz, ((r.fbRSize >>> 10) &&& 0x3ff) + 1)

def modulus : UInt32 := (r.fbRSize >>> 20) &&& 0x3ff

def interlace : Bool := r.spgControl &&& 0x10 ≠ 0

/-- What `framebuffer_set_render_target` renders to. -/
def renderTarget : Option Target := do
  let (width, height) ← r.dims
  let (px, fmt) ← fbWFormat r.fbWCtrl
  let sof1 := r.fbWSof1 &&& ~~~3
  let field := Field.rows sof1 width height r.modulus px px
  return ⟨width, height, sof1, (field, field), fmt⟩

def inTex32 (offs : UInt32) : Bool :=
  TexArea.first .tex32 ≤ offs + TexArea.first .tex32 ∧ offs + TexArea.first .tex32 ≤ TexArea.last .tex32

/-- `sync_fb_from_tex_mem_*_intl`. -/
def syncFbFromTexMemIntl (width height px lastPx : UInt32) (fmt : FbPixFmt) : Option Target :=
  let sof1 := r.fbRSof1 &&& ~~~3
  let sof2 := r.fbRSof2 &&& ~~~3
  let field1 := Field.rows sof1 width height r.modulus px lastPx
  let field2 := Field.rows sof2 width height r.modulus px lastPx
  if inTex32 field1.first && inTex32 field1.last && inTex32 field2.first && inTex32 field2.last then
    some ⟨width, height, if sof1 < sof2 then sof1 else sof2, (field1, field2), fmt⟩
  else none

/-- `sync_fb_from_tex_mem_*_prog`. -/
def syncFbFromTexMemProg (width height px : UInt32) (fmt : FbPixFmt) : Option Target :=
  let sof1 := r.fbRSof1 &&& ~~~3
  let field := Field.packed sof1 width height px
  if inTex32 field.first && inTex32 field.last then
    some ⟨width, height, sof1, (field, field), fmt⟩
  else none

section
variable (width height : UInt32)

def syncFbFromTexMemRgb555Intl : Option Target :=
  r.syncFbFromTexMemIntl width height 2 2 .rgb555

def syncFbFromTexMemRgb565Intl : Option Target :=
  r.syncFbFromTexMemIntl width height 2 2 .rgb565

def syncFbFromTexMemRgb888Intl : Option Target :=
  r.syncFbFromTexMemIntl width height 3 3 .rgb888

def syncFbFromTexMemRgb0888Intl : Option Target :=
  r.syncFbFromTexMemIntl width height 4 2 .zeroRgb0888

def syncFbFromTexMemRgb555Prog : Option Target :=
  r.syncFbFromTexMemProg width height 2 .rgb555

def syncFbFromTexMemRgb565Prog : Option Target :=
  r.syncFbFromTexMemProg width height 2 .rgb565

def syncFbFromTexMemRgb0888Prog : Option Target :=
  r.syncFbFromTexMemProg width height 4 .zeroRgb0888

def syncFbFromTexMem : Option Target :=
  match ((r.fbRCtrl &&& 0xc) >>> 2).toNat, r.interlace with
  | 0, true => r.syncFbFromTexMemRgb555Intl width height
  | 0, false => r.syncFbFromTexMemRgb555Prog width height
  | 1, true => r.syncFbFromTexMemRgb565Intl width height
  | 1, false => r.syncFbFromTexMemRgb565Prog width height
  | 2, true => r.syncFbFromTexMemRgb888Intl width height
  | 2, false => none
  | _, true => r.syncFbFromTexMemRgb0888Intl width height
  | _, false => r.syncFbFromTexMemRgb0888Prog width height
end

/-- What `framebuffer_render` reads if no framebuffer has it. -/
def readTarget : Option Target := do
  let (width, height) ← r.dims
  r.syncFbFromTexMem width height

/-- The key under which `framebuffer_render` looks for a framebuffer. -/
def readKey : UInt32 :=
  let sof1 := r.fbRSof1 &&& ~~~3
  let sof2 := r.fbRSof2 &&& ~~~3
  if r.interlace ∧ sof2 < sof1 then sof2 else sof1

end FbRegs

/-! ## The heap -/

structure FbHeap where
  fbs : Fin 8 → Framebuffer
  stamp : UInt32

def Framebuffer.reset : Framebuffer :=
  ⟨.invalid, 0, 0, 0, (⟨0, 0, 0⟩, ⟨0, 0, 0⟩), 0, .rgb555⟩

/-- `sync_fb_to_tex_mem` succeeds; `copied` tells if the pixels could be copied. -/
def Framebuffer.syncFbToTexMem (fb : Framebuffer) (copied : Bool) : Bool :=
  fb.state ≠ .gfx || (fb.fmt ≠ .rgb888 && copied)

def checkOverlap (range1Start range1End range2Start range2End : UInt32) : Bool :=
  (range2Start ≤ range1Start ∧ range1Start ≤ range2End) ||
    (range2Start ≤ range1End ∧ range1End ≤ range2End) ||
    (range1Start ≤ range2Start ∧ range2Start ≤ range1End) ||
    (range1Start ≤ range2End ∧ range2End ≤ range1End)

namespace FbHeap

variable (heap : FbHeap)

def init : FbHeap := ⟨fun _ => .reset, 0⟩

/-- A framebuffer that is valid and has these dimensions and this key. -/
def isAt (width height addrKey : UInt32) (idx : Fin 8) : Bool :=
  (heap.fbs idx).state ≠ .invalid && (heap.fbs idx).fbReadWidth = width &&
    (heap.fbs idx).fbReadHeight = height && (heap.fbs idx).addrKey = addrKey

def oldest : Option (Fin 8) :=
  ((List.finRange 8).foldl (fun best idx =>
    if (heap.fbs idx).state ≠ .invalid ∧ (heap.fbs idx).stamp ≤ best.2 then
      (some idx, (heap.fbs idx).stamp)
    else best) (none, heap.stamp)).1

/-- A framebuffer that is there already is taken as it is; otherwise one that is invalid, or the
oldest, is written back and reset. -/
def pickFb (width height addrKey : UInt32) (copied : Bool) : Option (Fin 8 × FbHeap) :=
  match (List.finRange 8).find? (heap.isAt width height addrKey) with
  | some idx => some (idx, heap)
  | none =>
    match (List.finRange 8).find? (fun idx => (heap.fbs idx).state = .invalid) <|> heap.oldest with
    | none => none
    | some idx =>
      if (heap.fbs idx).syncFbToTexMem copied then
        some (idx, { heap with fbs := Function.update heap.fbs idx .reset })
      else none

def load (idx : Fin 8) (t : Target) (state : FbState) : FbHeap :=
  let fb : Framebuffer := ⟨state, t.width, t.height, t.addrKey, t.fields, heap.stamp, t.fmt⟩
  { heap with fbs := Function.update heap.fbs idx fb }

def setRenderTarget (r : FbRegs) (copied : Bool) : Option FbHeap := do
  let t ← r.renderTarget
  let (idx, heap) ← heap.pickFb t.width t.height t.addrKey copied
  return heap.load idx t .gfx

/-- `framebuffer_render`, up to the stamp. -/
def showFrame (r : FbRegs) (copied : Bool) : Option FbHeap := do
  let (width, height) ← r.dims
  match (List.finRange 8).find? (heap.isAt width height r.readKey) with
  | some idx =>
    if (heap.fbs idx).state.hasGfx then return heap
    else
      let t ← r.readTarget
      return heap.load idx t .virtAndGfx
  | none =>
    let (idx, heap) ← heap.pickFb width height (r.fbRSof1 &&& ~~~3) copied
    let t ← r.readTarget
    return heap.load idx t .virtAndGfx

def render (r : FbRegs) (copied : Bool) : Option FbHeap :=
  if r.fbRCtrl &&& 1 = 0 then some heap
  else (heap.showFrame r copied).map fun heap => { heap with stamp := heap.stamp + 1 }

/-- `pvr2_framebuffer_notify_write`. -/
def notifyWrite (addr : UInt32) (nBytes : Nat) : FbHeap :=
  let firstByte := addr - TexArea.first .tex32
  let lastByte := UInt32.ofNat nBytes - 1 + firstByte
  { heap with fbs := fun idx =>
      let fb := heap.fbs idx
      if fb.state.hasGfx && (checkOverlap firstByte lastByte fb.fields.1.first fb.fields.1.last ||
          checkOverlap firstByte lastByte fb.fields.2.first fb.fields.2.last) then
        { fb with state := .virt }
      else fb }

def write (w : TexWrite) : Option FbHeap :=
  if w.InBounds then some (heap.notifyWrite w.addr w.size.bytes) else none

end FbHeap

end Pvr2
