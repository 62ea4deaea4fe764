import WashingtonDC.Pvr2.Framebuffer
import WashingtonDC.Pvr2.Raster
import WashingtonDC.Pvr2.TexCache

/-!
# The YUV converter

`pvr2_yuv.c`: bytes of 4:2:0 data are collected into macroblocks, and each macroblock is written to
texture memory as sixteen rows of eight words, one word for two pixels. The words of the whole image
are those of the data, however the bytes are split into calls, and the interrupt is requested after
the last macroblock.

The buffers are functions, of which the first 64 or 256 bytes are used. The base is a value of its
register, which has 24 bits, so that addresses do not wrap around. A write behind texture memory goes
to whatever is behind the array in the source; it changes the memory behind the area here. The
framebuffers and the texture cache are told of the writes; what they are told is not characterised
here.
-/
namespace Pvr2

open Function List Nat ByteMemory
open ByteMemory (Memory)
open EventSlot

/-- `enum pvr2_yuv_fmt`. -/
inductive YuvFmt
  | fmt420
  | fmt422
deriving DecidableEq

/-- `struct pvr2_yuv`. -/
structure Yuv where
  dstAddr : UInt32
  fmt : YuvFmt
  macroblockOffset : Nat
  curMacroblockX : Nat
  curMacroblockY : Nat
  macroblockCountX : Nat
  macroblockCountY : Nat
  uBuf : Memory
  vBuf : Memory
  yBuf : Memory
  completeInt : Known

/-- The converter and what it reads and writes. -/
structure YuvSystem where
  yuv : Yuv
  taYuvTexCtrl : UInt32
  tex : TexSystem
  fbs : FbHeap

/-- `PVR2_YUV_COMPLETE_INT_DELAY`. -/
abbrev yuvCompleteIntDelay : Nat := schedFrequency / 1024

abbrev yuvLinestride : Nat := 512 * 2

namespace Yuv

/-- The word of two pixels of the macroblock. The luminance is stored as four blocks of eight rows,
one after the other. -/
def blockWord (yuv : Yuv) (row col : Nat) : UInt32 :=
  let (lumStart, colLum, rowLum) :=
    if row < 8 then
      if col < 4 then (0, col, row) else (0x40, col - 4, row)
    else
      if col < 4 then (0x80, col, row - 8) else (0xc0, col - 4, row - 8)
  let lum0 := (yuv.yBuf (rowLum * 8 + colLum * 2 + lumStart)).toUInt32
  let lum1 := (yuv.yBuf (rowLum * 8 + colLum * 2 + lumStart + 1)).toUInt32
  let uVal := (yuv.uBuf (row / 2 * 8 + col)).toUInt32
  let vVal := (yuv.vBuf (row / 2 * 8 + col)).toUInt32
  lum0 <<< 8 ||| lum1 <<< 24 ||| uVal ||| vVal <<< 16

def blockRow (yuv : Yuv) (row : Nat) : Memory := fun i =>
  UInt8.ofNat ((yuv.blockWord row (i / 4)).toNat / 256 ^ (i % 4))

end Yuv

/-- The variables of the loop over the rows of a macroblock. -/
structure YuvRows where
  tex : TexSystem
  fbs : FbHeap
  rowPtr : Nat
  addrBase : Nat

/-- The body of the loop: the row is written, and a range of 32 bytes is reported. -/
def YuvRows.writeRow (yuv : Yuv) (r : YuvRows) (row : Nat) : YuvRows :=
  let mem := copy (r.tex.mem .tex64) r.rowPtr (yuv.blockRow row) 0 32
  let rowPtr := r.rowPtr + yuvLinestride
  let addrBase := r.addrBase + yuvLinestride
  let addr := (TexArea.first .tex64).toNat + addrBase
  { tex := { r.tex with
      mem := update r.tex.mem .tex64 mem
      pageStamps := r.tex.notifyWrite addr 32 }
    fbs := r.fbs.notifyWrite (UInt32.ofNat addr) 32
    rowPtr, addrBase }

namespace YuvSystem

variable (s : YuvSystem)

/-- A texture for each macroblock and data with more colors are errors of the program. -/
def unsupported : Bool :=
  s.taYuvTexCtrl &&& 0x10000 != 0 || s.taYuvTexCtrl &&& 0x1000000 != 0

/-- `pvr2_yuv_set_base`. -/
def setBase (newBase : UInt32) : Except Fault YuvSystem :=
  if s.unsupported then .error .raised
  else .ok { s with yuv := { s.yuv with
    dstAddr := newBase
    fmt := .fmt420
    macroblockOffset := 0
    curMacroblockX := 0
    curMacroblockY := 0
    macroblockCountX := (s.taYuvTexCtrl &&& 0x3f).toNat + 1
    macroblockCountY := ((s.taYuvTexCtrl >>> 8) &&& 0x3f).toNat + 1 } }

/-- The offset of the first byte that is written for the current macroblock. -/
def macroblockAddr : Nat :=
  let macroblockOffs := yuvLinestride * 16 * s.yuv.curMacroblockY + s.yuv.curMacroblockX * 8 * 4
  let rowOffs32 := s.yuv.dstAddr.toNat / 4 + macroblockOffs / 4
  4 * rowOffs32

/-- `pvr2_yuv_schedule_int`. -/
def scheduleInt : YuvSystem :=
  { s with yuv := { s.yuv with
    completeInt := s.yuv.completeInt.request (s.tex.clk + yuvCompleteIntDelay) } }

def advance : YuvSystem :=
  let x := s.yuv.curMacroblockX + 1
  if s.yuv.macroblockCountX ≤ x then
    { s with yuv := { s.yuv with curMacroblockX := 0, curMacroblockY := s.yuv.curMacroblockY + 1 } }
  else { s with yuv := { s.yuv with curMacroblockX := x } }

def writeRows : YuvRows :=
  (List.range 16).foldl (YuvRows.writeRow s.yuv) ⟨s.tex, s.fbs, s.macroblockAddr, s.macroblockAddr⟩

/-- `pvr2_yuv_macroblock`. -/
def macroblock : Except Fault YuvSystem :=
  if s.yuv.macroblockCountX ≤ s.yuv.curMacroblockX then .error .raised
  else if s.yuv.macroblockCountY ≤ s.yuv.curMacroblockY then .error .raised
  else
    let rows := s.writeRows
    let s := { s with tex := rows.tex, fbs := rows.fbs }.advance
    .ok (if s.yuv.curMacroblockY = s.yuv.macroblockCountY then s.scheduleInt else s)

/-- The part of `pvr2_yuv_input_byte` that stores the byte. -/
def storeByte (dat : UInt8) : Except Fault YuvSystem :=
  let offs := s.yuv.macroblockOffset
  if offs < 64 then
    .ok { s with yuv := { s.yuv with
      uBuf := update s.yuv.uBuf offs dat, macroblockOffset := offs + 1 } }
  else if offs < 128 then
    .ok { s with yuv := { s.yuv with
      vBuf := update s.yuv.vBuf (offs - 64) dat, macroblockOffset := offs + 1 } }
  else if offs < 384 then
    .ok { s with yuv := { s.yuv with
      yBuf := update s.yuv.yBuf (offs - 128) dat, macroblockOffset := offs + 1 } }
  else .error .raised

/-- `pvr2_yuv_input_byte`. -/
def inputByte (dat : UInt8) : Except Fault YuvSystem :=
  if s.yuv.fmt ≠ .fmt420 then .error .raised
  else do
    let s ← s.storeByte dat
    if s.yuv.macroblockOffset = 384 then
      let s := { s with yuv := { s.yuv with macroblockOffset := 0 } }
      if s.yuv.macroblockCountX ≤ s.yuv.curMacroblockX ∨
          s.yuv.macroblockCountY ≤ s.yuv.curMacroblockY then .error .raised
      else s.macroblock
    else .ok s

/-- `pvr2_yuv_input_data`. -/
def inputData (dat : List UInt8) : Except Fault YuvSystem :=
  if s.unsupported then .error .raised
  else if TexArea.len ≤ (s.yuv.dstAddr + 3).toNat then .error .raised
  else dat.foldlM inputByte s

/-- `pvr2_yuv_complete_int_event_handler`, without the interrupt that it raises. The clock has taken
the event from its list. -/
def completeIntEventHandler : YuvSystem := { s with yuv := { s.yuv with completeInt := .idle } }

end YuvSystem

/-- What happens to a configured converter: time passes, the event is handled, data comes. -/
inductive YuvStep
  | wait (cycles : Nat)
  | completeInt
  | data (dat : List UInt8)

def YuvStep.bytes : YuvStep → List UInt8
  | .wait _ => []
  | .completeInt => []
  | .data dat => dat

namespace YuvSystem

variable (s : YuvSystem)

def step : YuvStep → Except Fault YuvSystem
  | .wait cycles => .ok { s with tex := { s.tex with clk := s.tex.clk + cycles } }
  | .completeInt => .ok s.completeIntEventHandler
  | .data dat => s.inputData dat

end YuvSystem

/-! ## The rows of a macroblock -/

def Yuv.rowsMem (yuv : Yuv) (mem : Memory) (addr n : Nat) : Memory :=
  (List.range n).foldl
    (fun mem row => copy mem (addr + yuvLinestride * row) (yuv.blockRow row) 0 32) mem

def yuvReports (addrBase n : Nat) : List Nat :=
  (List.range n).map fun row =>
    (TexArea.first .tex64).toNat + (addrBase + yuvLinestride * (row + 1))

def reportedStamps (clk : Nat) (stamps : Nat → Nat) (addrs : List Nat) : Nat → Nat :=
  addrs.foldl (fun stamps addr => PageStamps.touch stamps (TexSystem.writePages addr 32).1
    (TexSystem.writePages addr 32).2 clk) stamps

def reportedFbs (fbs : FbHeap) (addrs : List Nat) : FbHeap :=
  addrs.foldl (fun fbs addr => fbs.notifyWrite (UInt32.ofNat addr) 32) fbs

theorem foldl_writeRow (yuv : Yuv) (r : YuvRows) (n : Nat) :
    (List.range n).foldl (YuvRows.writeRow yuv) r =
      { tex := { r.tex with
          mem := update r.tex.mem .tex64 (yuv.rowsMem (r.tex.mem .tex64) r.rowPtr n)
          pageStamps := reportedStamps r.tex.clk r.tex.pageStamps (yuvReports r.addrBase n) }
        fbs := reportedFbs r.fbs (yuvReports r.addrBase n)
        rowPtr := r.rowPtr + yuvLinestride * n
        addrBase := r.addrBase + yuvLinestride * n } := by
  induction n with
  | zero =>
    obtain ⟨tex, fbs, rowPtr, addrBase⟩ := r
    simp [Yuv.rowsMem, yuvReports, reportedStamps, reportedFbs]
  | succ n ih =>
    have hreports : yuvReports r.addrBase (n + 1) = yuvReports r.addrBase n ++
        [(TexArea.first .tex64).toNat + (r.addrBase + yuvLinestride * (n + 1))] := by
      rw [yuvReports, range_succ, map_append]
      rfl
    rw [range_succ, foldl_append, ih, hreports]
    simp only [foldl_cons, foldl_nil, YuvRows.writeRow, update_self,
      update_idem, reportedStamps, reportedFbs, foldl_append, mul_succ,
      add_assoc]
    congr 1
    rw [Yuv.rowsMem, Yuv.rowsMem, range_succ, foldl_append]
    rfl

theorem rowsMem_inside (yuv : Yuv) (mem : Memory) (addr : Nat) {n row i : Nat} (hrow : row < n)
    (hi : i < 32) :
    yuv.rowsMem mem addr n (addr + yuvLinestride * row + i) = yuv.blockRow row i := by
  refine @RowMajor.look_foldl _ _ (fun mem : Memory => mem (addr + yuvLinestride * row + i)) _ _ _
    (· = row) _ ?_ ?_ _ (.inr ⟨row, mem_range.mpr hrow, rfl⟩)
  · rintro mem _ - rfl
    simp only [copy]
    rw [if_pos (by omega), zero_add, Nat.add_sub_cancel_left]
  · intro mem row' _ hne
    simp only [copy, yuvLinestride]
    rw [if_neg (by omega)]

theorem rowsMem_outside (yuv : Yuv) (mem : Memory) (addr : Nat) {n z : Nat}
    (outside : ∀ row < n, z < addr + yuvLinestride * row ∨ addr + yuvLinestride * row + 32 ≤ z) :
    yuv.rowsMem mem addr n z = mem z := by
  refine @RowMajor.look_foldl_of_forall _ _ (fun mem : Memory => mem z) _ _ _ ?_ mem
  intro mem row hrow
  have hout := outside row (mem_range.mp hrow)
  simp only [copy]
  rw [if_neg (by omega)]

/-! ## The bytes of a macroblock -/

/-- The luminance of a pixel of a macroblock with the bytes `dat`. It is behind the samples of the two
colors, in four blocks of eight by eight. -/
def yuvLum (dat : Nat → UInt8) (px py : Nat) : UInt8 :=
  dat (128 + 64 * (py / 8 * 2 + px / 8) + py % 8 * 8 + px % 8)

/-- The word of two pixels. Their color is that of the square of four pixels they are in. -/
def yuvPair (dat : Nat → UInt8) (row col : Nat) : UInt32 :=
  (dat (row / 2 * 8 + col)).toUInt32 ||| (yuvLum dat (2 * col) row).toUInt32 <<< 8 |||
    (dat (64 + (row / 2 * 8 + col))).toUInt32 <<< 16 |||
    (yuvLum dat (2 * col + 1) row).toUInt32 <<< 24

namespace Yuv

def buffered (yuv : Yuv) (i : Nat) : UInt8 :=
  if i < 64 then yuv.uBuf i else if i < 128 then yuv.vBuf (i - 64) else yuv.yBuf (i - 128)

variable {yuv : Yuv} {row col : Nat}

theorem buffered_u {i : Nat} (hi : i < 64) : yuv.buffered i = yuv.uBuf i := if_pos hi

theorem buffered_v {i : Nat} (hi : i < 64) : yuv.buffered (64 + i) = yuv.vBuf i := by
  rw [buffered, if_neg (by omega), if_pos (by omega), Nat.add_sub_cancel_left]

theorem buffered_y (i : Nat) : yuv.buffered (128 + i) = yuv.yBuf i := by
  rw [buffered, if_neg (by omega), if_neg (by omega), Nat.add_sub_cancel_left]

theorem blockWord_eq (hrow : row < 16) (hcol : col < 8) :
    yuv.blockWord row col = yuvPair yuv.buffered row col := by
  have hchroma : row / 2 * 8 + col < 64 := by omega
  have hor : ∀ y0 y1 u v : UInt32, y0 ||| y1 ||| u ||| v = u ||| y0 ||| v ||| y1 := by
    intro y0 y1 u v
    ac_rfl
  have hpair : ∀ {i : Nat}, 64 * (row / 8 * 2 + col / 4) + row % 8 * 8 + col % 4 * 2 = i →
      (yuv.yBuf i).toUInt32 <<< 8 ||| (yuv.yBuf (i + 1)).toUInt32 <<< 24 |||
          (yuv.uBuf (row / 2 * 8 + col)).toUInt32 |||
          (yuv.vBuf (row / 2 * 8 + col)).toUInt32 <<< 16 =
        yuvPair yuv.buffered row col := by
    rintro i rfl
    have hfirst : 128 + 64 * (row / 8 * 2 + 2 * col / 8) + row % 8 * 8 + 2 * col % 8 =
        128 + (64 * (row / 8 * 2 + col / 4) + row % 8 * 8 + col % 4 * 2) := by omega
    have hsecond : 128 + 64 * (row / 8 * 2 + (2 * col + 1) / 8) + row % 8 * 8 + (2 * col + 1) % 8 =
        128 + (64 * (row / 8 * 2 + col / 4) + row % 8 * 8 + col % 4 * 2 + 1) := by omega
    rw [yuvPair, yuvLum, yuvLum, hfirst, hsecond, buffered_y, buffered_y, buffered_u hchroma,
      buffered_v hchroma, hor]
  -- each of the four blocks of luminance is where it should be
  rw [blockWord]
  split_ifs
  · exact hpair (by omega)
  · exact hpair (by omega)
  · exact hpair (by omega)
  · exact hpair (by omega)

end Yuv

namespace YuvSystem

variable {s : YuvSystem} {b : UInt8}

theorem storeByte_eq (offs : s.yuv.macroblockOffset < 384) :
    ∃ yuv, s.storeByte b = .ok { s with yuv := yuv } ∧
      (∀ i < 384, yuv.buffered i =
        if i = s.yuv.macroblockOffset then b else s.yuv.buffered i) ∧
      ∃ uBuf vBuf yBuf, yuv = { s.yuv with
        macroblockOffset := s.yuv.macroblockOffset + 1, uBuf := uBuf, vBuf := vBuf,
        yBuf := yBuf } := by
  simp only [storeByte, if_pos offs]
  split_ifs
  all_goals
    refine ⟨_, rfl, ?_, _, _, _, rfl⟩
    intro i hi
    simp only [Yuv.buffered, update_apply]
    split_ifs <;> first | rfl | omega

end YuvSystem

theorem yuvPair_congr {dat dat' : Nat → UInt8} (same : ∀ i < 384, dat' i = dat i) {row col : Nat}
    (hrow : row < 16) (hcol : col < 8) : yuvPair dat' row col = yuvPair dat row col := by
  simp only [yuvPair, yuvLum]
  rw [same _ (by omega), same _ (by omega), same _ (by omega), same _ (by omega)]

theorem load_rowsMem (yuv : Yuv) (mem : Memory) (base : Nat) {x y row col : Nat} (hx : x < 32)
    (hcol : col < 256) :
    load (yuv.rowsMem mem (base + yuvLinestride * 16 * y + 32 * x) 16)
        (base + yuvLinestride * row + 4 * col) 4 =
      if row / 16 = y ∧ col / 8 = x then (yuv.blockWord (row % 16) (col % 8)).toNat
      else load mem (base + yuvLinestride * row + 4 * col) 4 := by
  split
  · rename_i hblock
    obtain ⟨rfl, rfl⟩ := hblock
    have hword : (yuv.blockWord (row % 16) (col % 8)).toNat < 256 ^ 4 := UInt32.toNat_lt _
    rw [load_digits (v := (yuv.blockWord (row % 16) (col % 8)).toNat),
      mod_eq_of_lt hword]
    intro i hi
    have haddr : base + yuvLinestride * row + 4 * col + i =
        base + yuvLinestride * 16 * (row / 16) + 32 * (col / 8) + yuvLinestride * (row % 16) +
          (4 * (col % 8) + i) := by
      simp only [yuvLinestride]
      omega
    rw [haddr, rowsMem_inside yuv mem _ (mod_lt row (by decide)) (by omega), Yuv.blockRow]
    congr 3
    · congr 1
      omega
    · omega
  · rename_i hother
    refine load_congr ?_
    intro z hz hz'
    refine rowsMem_outside yuv mem _ ?_
    intro row' hrow'
    simp only [yuvLinestride] at hz hz' ⊢
    omega

/-! ## Every stream -/

namespace YuvSystem

def imageAddr (s : YuvSystem) : Nat := 4 * (s.yuv.dstAddr.toNat / 4)

def imageBytes (s : YuvSystem) : Nat :=
  384 * (s.yuv.macroblockCountX * s.yuv.macroblockCountY)

/-- What is known after the first `n` bytes of the data. -/
structure Fed (start : YuvSystem) (dat : Nat → UInt8) (n : Nat) (s : YuvSystem) : Prop where
  ctrl : s.taYuvTexCtrl = start.taYuvTexCtrl
  dst : s.yuv.dstAddr = start.yuv.dstAddr
  fmt : s.yuv.fmt = .fmt420
  countX : s.yuv.macroblockCountX = start.yuv.macroblockCountX
  countY : s.yuv.macroblockCountY = start.yuv.macroblockCountY
  offset : s.yuv.macroblockOffset = n % 384
  x : s.yuv.curMacroblockX = n / 384 % start.yuv.macroblockCountX
  y : s.yuv.curMacroblockY = n / 384 / start.yuv.macroblockCountX
  buffered : ∀ i < n % 384, s.yuv.buffered i = dat (384 * (n / 384) + i)
  words : ∀ row col, col < 8 * start.yuv.macroblockCountX →
    row / 16 * start.yuv.macroblockCountX + col / 8 < n / 384 →
      load (s.tex.mem .tex64) (start.imageAddr + yuvLinestride * row + 4 * col) 4 =
        (yuvPair (fun i => dat (384 * (row / 16 * start.yuv.macroblockCountX + col / 8) + i))
          (row % 16) (col % 8)).toNat

/-- The state after the rows of the current macroblock have been written. -/
def written (s : YuvSystem) : YuvSystem :=
  { s with
    tex := { s.tex with
      mem := update s.tex.mem .tex64
        (s.yuv.rowsMem (s.tex.mem .tex64) s.macroblockAddr 16)
      pageStamps := reportedStamps s.tex.clk s.tex.pageStamps (yuvReports s.macroblockAddr 16) }
    fbs := reportedFbs s.fbs (yuvReports s.macroblockAddr 16) }

def completed (s : YuvSystem) : YuvSystem :=
  if s.yuv.curMacroblockY = s.yuv.macroblockCountY then s.scheduleInt else s

variable {s start : YuvSystem} {k : Nat} {dat : Nat → UInt8}

theorem macroblock_eq (hx : s.yuv.curMacroblockX < s.yuv.macroblockCountX)
    (hy : s.yuv.curMacroblockY < s.yuv.macroblockCountY) :
    s.macroblock = .ok s.written.advance.completed := by
  have hrows : { s with tex := s.writeRows.tex, fbs := s.writeRows.fbs } = s.written := by
    simp only [writeRows, foldl_writeRow, written]
  simp only [macroblock, if_neg (not_le.mpr hx), if_neg (not_le.mpr hy), hrows, completed]

theorem next_block {w : Nat} (hw : 0 < w) :
    ((k + 1) % w, (k + 1) / w) =
      if w ≤ k % w + 1 then (0, k / w + 1) else (k % w + 1, k / w) := by
  have hk := div_add_mod k w
  have hlt := mod_lt k hw
  split
  · obtain ⟨hdiv, hmod⟩ := (Nat.div_mod_unique hw).mpr
      (⟨by rw [mul_succ]; omega, hw⟩ : 0 + w * (k / w + 1) = k + 1 ∧ 0 < w)
    rw [hdiv, hmod]
  · obtain ⟨hdiv, hmod⟩ := (Nat.div_mod_unique hw).mpr
      (⟨by omega, by omega⟩ : k % w + 1 + w * (k / w) = k + 1 ∧ k % w + 1 < w)
    rw [hdiv, hmod]

theorem advance_eq (hw : 0 < s.yuv.macroblockCountX)
    (hx : s.yuv.curMacroblockX = k % s.yuv.macroblockCountX)
    (hy : s.yuv.curMacroblockY = k / s.yuv.macroblockCountX) :
    s.advance = { s with yuv := { s.yuv with
      curMacroblockX := (k + 1) % s.yuv.macroblockCountX
      curMacroblockY := (k + 1) / s.yuv.macroblockCountX } } := by
  have hnext := @next_block k _ hw
  rw [advance, hx, hy]
  split
  · rename_i hlast
    rw [if_pos hlast] at hnext
    obtain ⟨hmod, hdiv⟩ := Prod.mk.inj hnext
    rw [hmod, hdiv]
  · rename_i hmore
    rw [if_neg hmore] at hnext
    obtain ⟨hmod, hdiv⟩ := Prod.mk.inj hnext
    rw [hmod, hdiv, ← hy]

theorem last_block_iff {w h : Nat} (hk : k < w * h) : (k + 1) / w = h ↔ k + 1 = w * h := by
  have hw : 0 < w := Nat.pos_of_mul_pos_right (zero_lt_of_lt hk)
  constructor
  · rintro rfl
    exact le_antisymm hk (mul_div_le (k + 1) w)
  · intro hlast
    rw [hlast, Nat.mul_div_cancel_left h hw]

theorem words_written (hX : start.yuv.macroblockCountX ≤ 32) (hk : 0 < start.yuv.macroblockCountX)
    (fed : Fed start dat (384 * k) s) (full : ∀ i < 384, s.yuv.buffered i = dat (384 * k + i))
    {row col : Nat} (hcol : col < 8 * start.yuv.macroblockCountX)
    (hblock : row / 16 * start.yuv.macroblockCountX + col / 8 < k + 1) :
    load (s.written.tex.mem .tex64)
        (start.imageAddr + yuvLinestride * row + 4 * col) 4 =
      (yuvPair (fun i => dat (384 * (row / 16 * start.yuv.macroblockCountX + col / 8) + i))
        (row % 16) (col % 8)).toNat := by
  have hcolX : col / 8 < start.yuv.macroblockCountX := by omega
  have haddr : s.macroblockAddr = start.imageAddr +
      yuvLinestride * 16 * (k / start.yuv.macroblockCountX) +
        32 * (k % start.yuv.macroblockCountX) := by
    have hx := fed.x
    have hy := fed.y
    rw [Nat.mul_div_cancel_left k (by decide)] at hx hy
    simp only [macroblockAddr, imageAddr, hx, hy, fed.dst, yuvLinestride]
    omega
  have hmod := mod_lt k hk
  simp only [written, update_self]
  rw [haddr, load_rowsMem s.yuv _ _ (by omega) (by omega)]
  split
  · rename_i hhere
    obtain ⟨hy, hx⟩ := hhere
    have hindex : row / 16 * start.yuv.macroblockCountX + col / 8 = k := by
      rw [hy, hx]
      exact div_add_mod' k _
    rw [Yuv.blockWord_eq (by omega) (by omega), hindex]
    exact congrArg _ (yuvPair_congr full (by omega) (by omega))
  · rename_i hother
    refine fed.words row col hcol ?_
    rw [Nat.mul_div_cancel_left k (by decide)]
    refine Nat.lt_of_le_of_ne (le_of_lt_succ hblock) ?_
    rintro rfl
    refine hother ⟨?_, ?_⟩
    · rw [mul_comm, mul_add_div hk, div_eq_of_lt hcolX, add_zero]
    · rw [mul_add_mod_self_right, mod_eq_of_lt hcolX]

theorem Fed.current_lt {n : Nat} (fed : Fed start dat n s) (hn : n < start.imageBytes) :
    s.yuv.curMacroblockX < s.yuv.macroblockCountX ∧
      s.yuv.curMacroblockY < s.yuv.macroblockCountY := by
  have hk : n / 384 < start.yuv.macroblockCountX * start.yuv.macroblockCountY :=
    Nat.div_lt_of_lt_mul hn
  have hw : 0 < start.yuv.macroblockCountX := Nat.pos_of_mul_pos_right (zero_lt_of_lt hk)
  rw [fed.x, fed.y, fed.countX, fed.countY]
  exact ⟨mod_lt _ hw, Nat.div_lt_of_lt_mul hk⟩

theorem Fed.macroblock (hX : start.yuv.macroblockCountX ≤ 32)
    (hk : k < start.yuv.macroblockCountX * start.yuv.macroblockCountY)
    (fed : Fed start dat (384 * k) s) (full : ∀ i < 384, s.yuv.buffered i = dat (384 * k + i)) :
    ∃ s', s.macroblock = .ok s' ∧ Fed start dat (384 * (k + 1)) s' ∧ s'.tex.clk = s.tex.clk ∧
      s'.yuv.completeInt =
        if k + 1 = start.yuv.macroblockCountX * start.yuv.macroblockCountY then
          s.yuv.completeInt.request (s.tex.clk + yuvCompleteIntDelay)
        else s.yuv.completeInt := by
  have hw : 0 < start.yuv.macroblockCountX := Nat.pos_of_mul_pos_right (zero_lt_of_lt hk)
  have hx := fed.x
  have hy := fed.y
  rw [Nat.mul_div_cancel_left k (by decide), ← fed.countX] at hx hy
  have hcur := fed.current_lt (Nat.mul_lt_mul_of_pos_left hk (by decide))
  have hlast := last_block_iff hk
  rw [macroblock_eq hcur.1 hcur.2, @advance_eq s.written k (fed.countX ▸ hw) hx hy]
  have hfed : ∀ completeInt, Fed start dat (384 * (k + 1))
      { s.written with yuv := { s.yuv with
        curMacroblockX := (k + 1) % s.yuv.macroblockCountX
        curMacroblockY := (k + 1) / s.yuv.macroblockCountX
        completeInt := completeInt } } := by
    intro completeInt
    have hdiv : 384 * (k + 1) / 384 = k + 1 := Nat.mul_div_cancel_left _ (by decide)
    have hmod : 384 * (k + 1) % 384 = 0 := mul_mod_right _ _
    refine ⟨fed.ctrl, fed.dst, fed.fmt, fed.countX, fed.countY, ?_, ?_, ?_, ?_, ?_⟩
    · exact fed.offset.trans ((mul_mod_right 384 k).trans hmod.symm)
    · rw [hdiv, ← fed.countX]
    · rw [hdiv, ← fed.countX]
    · intro i hi
      rw [hmod] at hi
      exact absurd hi (not_lt_zero i)
    · intro row col hcol hblock
      rw [hdiv] at hblock
      exact words_written hX hw fed full hcol hblock
  rw [← fed.countX, ← fed.countY] at hlast ⊢
  by_cases hend : k + 1 = s.yuv.macroblockCountX * s.yuv.macroblockCountY
  · rw [if_pos hend]
    exact ⟨_, congrArg Except.ok (if_pos (hlast.mpr hend)), hfed _, rfl, rfl⟩
  · rw [if_neg hend]
    exact ⟨_, congrArg Except.ok (if_neg (mt hlast.mp hend)), hfed _, rfl, rfl⟩

section
variable {s' : YuvSystem} {b : UInt8}

theorem inputByte_of_more (fmt : s.yuv.fmt = .fmt420) (stored : s.storeByte b = .ok s')
    (more : s'.yuv.macroblockOffset ≠ 384) : s.inputByte b = .ok s' := by
  rw [YuvSystem.inputByte, if_neg (not_not.mpr fmt), stored]
  exact if_neg more

theorem inputByte_of_full (fmt : s.yuv.fmt = .fmt420) (stored : s.storeByte b = .ok s')
    (full : s'.yuv.macroblockOffset = 384)
    (hx : s'.yuv.curMacroblockX < s'.yuv.macroblockCountX)
    (hy : s'.yuv.curMacroblockY < s'.yuv.macroblockCountY) :
    s.inputByte b =
      { s' with yuv := { s'.yuv with macroblockOffset := 0 } }.macroblock := by
  rw [YuvSystem.inputByte, if_neg (not_not.mpr fmt), stored]
  refine (if_pos full).trans (if_neg ?_)
  rintro (h | h)
  · exact not_le.mpr hx h
  · exact not_le.mpr hy h

end

section
variable {n : Nat}

theorem Fed.rebuffer (fed : Fed start dat n s) {n' offs : Nat} (blocks : n' / 384 = n / 384)
    (hoffs : offs = n' % 384) (uBuf vBuf yBuf : Memory)
    (full : ∀ i < offs, { s.yuv with uBuf := uBuf, vBuf := vBuf, yBuf := yBuf }.buffered i =
      dat (384 * (n / 384) + i)) :
    Fed start dat n' { s with yuv := { s.yuv with
      macroblockOffset := offs, uBuf := uBuf, vBuf := vBuf, yBuf := yBuf } } := by
  subst hoffs
  refine ⟨fed.ctrl, fed.dst, fed.fmt, fed.countX, fed.countY, rfl, ?_, ?_, ?_, ?_⟩
  · rw [blocks]
    exact fed.x
  · rw [blocks]
    exact fed.y
  · rw [blocks]
    exact full
  · rw [blocks]
    exact fed.words

theorem Fed.inputByte (fed : Fed start dat n s) (hX : start.yuv.macroblockCountX ≤ 32)
    (hn : n < start.imageBytes) :
    ∃ s', s.inputByte (dat n) = .ok s' ∧ Fed start dat (n + 1) s' ∧ s'.tex.clk = s.tex.clk ∧
      s'.yuv.completeInt =
        if n + 1 = start.imageBytes then
          s.yuv.completeInt.request (s.tex.clk + yuvCompleteIntDelay)
        else s.yuv.completeInt := by
  have hoffs : s.yuv.macroblockOffset < 384 := fed.offset ▸ mod_lt n (by decide)
  obtain ⟨yuv, hstore, hbuffered, uBuf, vBuf, yBuf, hyuv⟩ := @storeByte_eq s (dat n) hoffs
  have hoffset := fed.offset
  have hall : ∀ i < s.yuv.macroblockOffset + 1, yuv.buffered i = dat (384 * (n / 384) + i) := by
    intro i hi
    rw [hbuffered i (by omega), fed.offset]
    split
    · rename_i hlast
      rw [hlast, div_add_mod]
    · exact fed.buffered i (by omega)
  subst hyuv
  by_cases hfull : s.yuv.macroblockOffset + 1 = 384
  · have hk : n / 384 < start.yuv.macroblockCountX * start.yuv.macroblockCountY :=
      Nat.div_lt_of_lt_mul hn
    have hnext : n + 1 = 384 * (n / 384 + 1) := by omega
    have hlast : n / 384 + 1 = start.yuv.macroblockCountX * start.yuv.macroblockCountY ↔
        n + 1 = start.imageBytes := by
      rw [imageBytes]
      omega
    have hcur := fed.current_lt hn
    rw [hfull] at hall
    have hstored := @Fed.rebuffer _ _ _ _ fed (384 * (n / 384)) 0 (by omega) (by omega) uBuf vBuf
      yBuf (fun i hi => absurd hi (not_lt_zero i))
    obtain ⟨s', hmacroblock, hfed, hclk, hint⟩ := Fed.macroblock hX hk hstored hall
    rw [← hnext] at hfed
    simp only [hlast] at hint
    exact ⟨s', (inputByte_of_full fed.fmt hstore hfull hcur.1 hcur.2).trans hmacroblock, hfed, hclk,
      hint⟩
  · have hmore : n + 1 ≠ start.imageBytes := by
      rw [imageBytes]
      omega
    rw [if_neg hmore]
    exact ⟨_, inputByte_of_more fed.fmt hstore hfull,
      fed.rebuffer (by omega) (by omega) uBuf vBuf yBuf hall, rfl, rfl⟩

theorem Fed.inputBytes (hX : start.yuv.macroblockCountX ≤ 32) (bytes : List UInt8)
    (fed : Fed start dat n s) (hbytes : ∀ i < bytes.length, bytes[i]? = some (dat (n + i)))
    (hn : n + bytes.length ≤ start.imageBytes) :
    ∃ s', bytes.foldlM YuvSystem.inputByte s = .ok s' ∧ Fed start dat (n + bytes.length) s' ∧
      s'.tex.clk = s.tex.clk ∧
      s'.yuv.completeInt =
        if n < start.imageBytes ∧ n + bytes.length = start.imageBytes then
          s.yuv.completeInt.request (s.tex.clk + yuvCompleteIntDelay)
        else s.yuv.completeInt := by
  induction bytes generalizing n s with
  | nil =>
    refine ⟨s, rfl, fed, rfl, ?_⟩
    rw [if_neg]
    rintro ⟨hlt, heq⟩
    exact Nat.ne_of_lt hlt heq
  | cons b bytes ih =>
    have hb : b = dat n := Option.some.inj (hbytes 0 (zero_lt_succ _))
    subst hb
    rw [length_cons] at hn
    obtain ⟨s1, hstep, hfed1, hclk1, hint1⟩ := fed.inputByte hX (by omega)
    obtain ⟨s2, hrun, hfed2, hclk2, hint2⟩ := ih hfed1
      (fun i hi => by
        rw [add_assoc, add_comm 1]
        exact hbytes (i + 1) (succ_lt_succ hi))
      (by omega)
    refine ⟨s2, ?_, ?_, hclk2.trans hclk1, ?_⟩
    · rw [foldlM_cons, hstep]
      exact hrun
    · rw [length_cons, add_comm bytes.length, ← add_assoc]
      exact hfed2
    · rw [hint2, hint1, hclk1, length_cons]
      -- the request comes with the last byte
      split_ifs <;> first | rfl | omega

/-- The image is in texture memory as far as it goes. -/
structure Fits (s : YuvSystem) : Prop where
  perRow : s.yuv.macroblockCountX ≤ 32
  inside : s.imageAddr + yuvLinestride * (16 * s.yuv.macroblockCountY - 1) +
    32 * s.yuv.macroblockCountX ≤ TexArea.len

/-- The converter has just been given its base. -/
structure Configured (s : YuvSystem) : Prop where
  supported : s.unsupported = false
  fmt : s.yuv.fmt = .fmt420
  offset : s.yuv.macroblockOffset = 0
  x : s.yuv.curMacroblockX = 0
  y : s.yuv.curMacroblockY = 0
  countX : 0 < s.yuv.macroblockCountX
  countY : 0 < s.yuv.macroblockCountY

theorem setBase_configured {s0 : YuvSystem} {base : UInt32} (set : s0.setBase base = .ok s) :
    Configured s := by
  rw [setBase] at set
  split at set
  · cases set
  · rename_i hsupported
    cases set
    exact ⟨Bool.eq_false_iff.mpr hsupported, rfl, rfl, rfl, rfl, succ_pos _, succ_pos _⟩

theorem Configured.fed (configured : Configured start) (dat : Nat → UInt8) :
    Fed start dat 0 start := by
  refine ⟨rfl, rfl, configured.fmt, rfl, rfl, configured.offset, ?_, ?_, ?_, ?_⟩
  · rw [configured.x, Nat.zero_div, zero_mod]
  · rw [configured.y, Nat.zero_div]
  · intro i hi
    exact absurd hi (not_lt_zero i)
  · intro row col _ hblock
    exact absurd hblock (not_lt_zero _)

theorem Fits.dstAddr_lt (fits : Fits start) (configured : Configured start) :
    (start.yuv.dstAddr + 3).toNat < TexArea.len := by
  have hinside := fits.inside
  have hy := configured.countY
  simp only [imageAddr, yuvLinestride, TexArea.len] at hinside ⊢
  have hthree : (3 : UInt32).toNat = 3 := rfl
  rw [UInt32.toNat_add, hthree]
  omega

theorem Fed.step (fed : Fed start dat n s) (configured : Configured start) (fits : Fits start)
    (c : YuvStep) (hbytes : ∀ i < c.bytes.length, c.bytes[i]? = some (dat (n + i)))
    (hn : n + c.bytes.length ≤ start.imageBytes) :
    ∃ s', s.step c = .ok s' ∧ Fed start dat (n + c.bytes.length) s' ∧
      if n < start.imageBytes ∧ n + c.bytes.length = start.imageBytes then
        s'.yuv.completeInt.event =
          some (s.yuv.completeInt.event.getD (s.tex.clk + yuvCompleteIntDelay))
      else s'.yuv.completeInt.event = s.yuv.completeInt.event ∨
        c = .completeInt ∧ s'.yuv.completeInt.event = none := by
  have hsame : ∀ completeInt clk, Fed start dat n
      { s with yuv := { s.yuv with completeInt := completeInt }, tex := { s.tex with clk := clk } } :=
    fun _ _ => ⟨fed.ctrl, fed.dst, fed.fmt, fed.countX, fed.countY, fed.offset, fed.x, fed.y,
      fed.buffered, fed.words⟩
  have hnone : ¬(n < start.imageBytes ∧ n + 0 = start.imageBytes) := by omega
  cases c with
  | wait cycles =>
    refine ⟨_, rfl, hsame _ _, ?_⟩
    rw [YuvStep.bytes, length_nil, if_neg hnone]
    exact .inl rfl
  | completeInt =>
    refine ⟨_, rfl, hsame _ _, ?_⟩
    rw [YuvStep.bytes, length_nil, if_neg hnone]
    exact .inr ⟨rfl, rfl⟩
  | data bytes =>
    obtain ⟨s', hrun, hfed, -, hint⟩ := Fed.inputBytes fits.perRow bytes fed hbytes hn
    have hsupported : ¬s.unsupported = true := by
      rw [unsupported, fed.ctrl]
      exact Bool.eq_false_iff.mp configured.supported
    have haddr : ¬TexArea.len ≤ (s.yuv.dstAddr + 3).toNat := by
      rw [fed.dst]
      exact not_le.mpr (fits.dstAddr_lt configured)
    refine ⟨s', ?_, hfed, ?_⟩
    · rw [YuvSystem.step, inputData, if_neg hsupported, if_neg haddr]
      exact hrun
    · rw [hint, YuvStep.bytes]
      split
      · exact Known.event_request _ _
      · exact .inl rfl

theorem Fed.run (fed : Fed start dat n s) (configured : Configured start) (fits : Fits start)
    (steps : List YuvStep)
    (hbytes : ∀ i < (steps.flatMap YuvStep.bytes).length,
      (steps.flatMap YuvStep.bytes)[i]? = some (dat (n + i)))
    (hn : n + (steps.flatMap YuvStep.bytes).length ≤ start.imageBytes) :
    ∃ s', steps.foldlM YuvSystem.step s = .ok s' ∧
      Fed start dat (n + (steps.flatMap YuvStep.bytes).length) s' := by
  induction steps generalizing n s with
  | nil => exact ⟨s, rfl, fed⟩
  | cons c steps ih =>
    rw [flatMap_cons, length_append] at hn hbytes ⊢
    obtain ⟨s1, hstep, hfed1, -⟩ := fed.step configured fits c
      (fun i hi => by
        rw [← getElem?_append_left hi]
        exact hbytes i (by omega))
      (by omega)
    obtain ⟨s2, hrun, hfed2⟩ := ih hfed1
      (fun i hi => by
        have hbyte := hbytes (c.bytes.length + i) (by omega)
        rw [getElem?_append_right (le_add_right _ _), Nat.add_sub_cancel_left] at hbyte
        rw [hbyte, add_assoc])
      (by omega)
    refine ⟨s2, ?_, ?_⟩
    · rw [foldlM_cons, hstep]
      exact hrun
    · rw [← add_assoc]
      exact hfed2

end

/-- If an image with at most 32 macroblocks in a row is in texture memory and its data comes in any
number of calls, then all calls succeed and the word of each two pixels has their samples. No step
schedules the event but the call with the last byte. It does so if none is scheduled; one that is
stays as it was. -/
theorem run_converts {s0 start : YuvSystem} {base : UInt32} {steps : List YuvStep}
    (set : s0.setBase base = .ok start) (fits : Fits start)
    (complete : (steps.flatMap YuvStep.bytes).length = start.imageBytes) :
    (∃ s, steps.foldlM step start = .ok s ∧
      ∀ row < 16 * start.yuv.macroblockCountY, ∀ col < 8 * start.yuv.macroblockCountX,
        load (s.tex.mem .tex64) (start.imageAddr + yuvLinestride * row + 4 * col) 4 =
          (yuvPair (fun i => (steps.flatMap YuvStep.bytes).getD
            (384 * (row / 16 * start.yuv.macroblockCountX + col / 8) + i) 0)
            (row % 16) (col % 8)).toNat) ∧
    ∀ before c after, steps = before ++ c :: after →
      ∃ s s', before.foldlM step start = .ok s ∧ s.step c = .ok s' ∧
        if (before.flatMap YuvStep.bytes).length < start.imageBytes ∧
            ((before ++ [c]).flatMap YuvStep.bytes).length = start.imageBytes then
          s'.yuv.completeInt.event =
            some (s.yuv.completeInt.event.getD (s.tex.clk + yuvCompleteIntDelay))
        else s'.yuv.completeInt.event = s.yuv.completeInt.event ∨
          c = .completeInt ∧ s'.yuv.completeInt.event = none := by
  have configured := setBase_configured set
  have hall : ∀ i < (steps.flatMap YuvStep.bytes).length, (steps.flatMap YuvStep.bytes)[i]? =
      some ((steps.flatMap YuvStep.bytes).getD i 0) := by
    intro i hi
    rw [getD_eq_getElem _ _ hi, getElem?_eq_getElem hi]
  have hfed := configured.fed fun i => (steps.flatMap YuvStep.bytes).getD i 0
  constructor
  · obtain ⟨s, hrun, hend⟩ := hfed.run configured fits steps
      (fun i hi => by rw [zero_add]; exact hall i hi) (by omega)
    refine ⟨s, hrun, ?_⟩
    intro row hrow col hcol
    refine hend.words row col hcol ?_
    rw [zero_add, complete, imageBytes, Nat.mul_div_cancel_left _ (by decide)]
    have hy : row / 16 + 1 ≤ start.yuv.macroblockCountY := by omega
    calc row / 16 * start.yuv.macroblockCountX + col / 8
        < row / 16 * start.yuv.macroblockCountX + start.yuv.macroblockCountX := by omega
      _ = start.yuv.macroblockCountX * (row / 16 + 1) := by rw [mul_succ, mul_comm]
      _ ≤ _ := Nat.mul_le_mul_left _ hy
  · rintro before c after rfl
    rw [flatMap_append, flatMap_cons] at hall complete hfed
    rw [length_append, length_append] at complete
    obtain ⟨s, hrun, hbefore⟩ := hfed.run configured fits before
      (fun i hi => by
        rw [zero_add, ← getElem?_append_left hi]
        exact hall i (by rw [length_append]; omega))
      (by omega)
    obtain ⟨s', hstep, -, hint⟩ := hbefore.step configured fits c
      (fun i hi => by
        have hbyte := hall ((before.flatMap YuvStep.bytes).length + i)
          (by rw [length_append, length_append]; omega)
        rw [getElem?_append_right (le_add_right _ _), Nat.add_sub_cancel_left,
          getElem?_append_left hi] at hbyte
        rw [hbyte, zero_add])
      (by omega)
    refine ⟨s, s', hrun, hstep, ?_⟩
    rw [zero_add] at hint
    simpa [flatMap_append] using hint

def blank : YuvSystem where
  yuv := ⟨0, .fmt420, 0, 0, 0, 0, 0, fun _ => 0, fun _ => 0, fun _ => 0, .idle⟩
  taYuvTexCtrl := 0
  tex := .init 5 1 (fun _ _ => 0) (fun _ => 0) 0
  fbs := .init

/-- The two pixels at the right of the last row, in a macroblock that comes in two calls. -/
theorem run_converts_two_calls :
    ∃ start s, blank.setBase 0x1000 = .ok start ∧
      [.data (replicate 100 1), .wait 7, .data (replicate 284 2)].foldlM step start =
        .ok s ∧
      load (s.tex.mem .tex64) (0x1000 + 15 * 1024 + 28) 4 = 0x02020201 := by
  obtain ⟨start, hset⟩ : ∃ start, blank.setBase 0x1000 = .ok start := ⟨_, rfl⟩
  have hbytes : ([.data (replicate 100 1), .wait 7, .data (replicate 284 2)].flatMap
      YuvStep.bytes).length = start.imageBytes := by
    cases hset
    simp only [flatMap_cons, flatMap_nil, YuvStep.bytes, length_append,
      length_replicate, length_nil]
    rfl
  obtain ⟨s, hrun, hwords⟩ :=
    (run_converts hset ⟨by cases hset; decide, by cases hset; decide⟩ hbytes).1
  refine ⟨start, s, hset, hrun, ?_⟩
  cases hset
  exact hwords 15 (by decide) 7 (by decide)

/-- The event of the image before is due at 9, and this image schedules none. -/
theorem image_schedules_none :
    ∃ start s, { blank with yuv.completeInt := ⟨⟨true, some 9⟩, rfl⟩ }.setBase 0x1000 = .ok start ∧
      start.step (.data (replicate 384 1)) = .ok s ∧ start.yuv.completeInt.event = some 9 ∧
      s.yuv.completeInt.event = some 9 := by
  obtain ⟨start, hset⟩ : ∃ start,
      { blank with yuv.completeInt := ⟨⟨true, some 9⟩, rfl⟩ }.setBase 0x1000 = .ok start := ⟨_, rfl⟩
  have configured := setBase_configured hset
  have hbytes : start.imageBytes = 384 := by
    cases hset
    rfl
  have hlen : (YuvStep.data (replicate 384 1)).bytes.length = 384 := length_replicate
  have hpending : start.yuv.completeInt.event = some 9 := by
    cases hset
    rfl
  obtain ⟨s, hstep, -, hevent⟩ := (configured.fed fun _ => 1).step configured
    ⟨by cases hset; decide, by cases hset; decide⟩ (.data (replicate 384 1))
    (fun i hi => getElem?_replicate_of_lt (hlen ▸ hi)) (by rw [hlen, hbytes])
  rw [hlen, hbytes, if_pos ⟨by decide, rfl⟩, hpending] at hevent
  exact ⟨start, s, hset, hstep, hpending, hevent⟩

end YuvSystem

end Pvr2
