import WashingtonDC.Pvr2.FbWrites
import WashingtonDC.Pvr2.Yuv

/-!
# What the YUV converter reports

After each row of a macroblock the converter reports a range of bytes to the texture cache and the
framebuffers. The range is that of the next row, since the address is advanced before. The first row
of a macroblock is thus never reported, and a range behind the last row is. The only check of the
destination is that of its first word.

A texture is taken for one that covers a byte if the byte is between its first and last address, and
a framebuffer if the offset of the byte is in the range of one of its fields. Framebuffers in a mirror
of the area are not compared with the write at all, which is not shown here.
-/
namespace Pvr2

open UInt32 List

/-! ## Reported ranges -/

theorem mem_yuvReports {addrBase n addr : Nat} :
    addr ∈ yuvReports addrBase n ↔
      ∃ row < n, addr = (TexArea.first .tex64).toNat + (addrBase + yuvLinestride * (row + 1)) := by
  simp only [yuvReports, mem_map, mem_range]
  constructor
  · rintro ⟨row, hrow, rfl⟩
    exact ⟨row, hrow, rfl⟩
  · rintro ⟨row, hrow, rfl⟩
    exact ⟨row, hrow, rfl⟩

def OnReportedPage (addrs : List Nat) (page : Nat) : Prop :=
  ∃ addr ∈ addrs, (TexSystem.writePages addr 32).1 ≤ page ∧ page ≤ (TexSystem.writePages addr 32).2

variable {addrs : List Nat} {page : Nat}

theorem reportedStamps_of_onReportedPage (clk : Nat) (stamps : Nat → Nat)
    (reported : OnReportedPage addrs page) :
    reportedStamps clk stamps addrs page = clk := by
  obtain ⟨addr, haddr, hpage⟩ := reported
  refine @RowMajor.look_foldl _ _ (fun stamps : Nat → Nat => stamps page) _ _ _
    (fun addr => (TexSystem.writePages addr 32).1 ≤ page ∧ page ≤ (TexSystem.writePages addr 32).2)
    _ ?_ ?_ _ (.inr ⟨addr, haddr, hpage⟩)
  · intro stamps addr _ hon
    exact if_pos hon
  · intro stamps addr _ hoff
    exact if_neg hoff

theorem reportedStamps_of_not_onReportedPage (clk : Nat) (stamps : Nat → Nat)
    (unreported : ¬OnReportedPage addrs page) :
    reportedStamps clk stamps addrs page = stamps page := by
  refine @RowMajor.look_foldl_of_forall _ _ (fun stamps : Nat → Nat => stamps page) _ _ _ ?_ stamps
  intro stamps addr haddr
  exact if_neg fun hon => unreported ⟨addr, haddr, hon⟩

/-- The offset of a byte of the 64-bit area, as it is compared with framebuffers. -/
def offs64 (z : Nat) : UInt32 := ofNat ((TexArea.first .tex64).toNat + z) - TexArea.first .tex32

theorem offs64_toNat {z : Nat} (hz : z < 2 ^ 24) : (offs64 z).toNat = 0xff000000 + z := by
  have hfirst64 : (TexArea.first .tex64).toNat = 0x04000000 := rfl
  have hfirst32 : (TexArea.first .tex32).toNat = 0x05000000 := rfl
  rw [offs64, UInt32.toNat_sub, hfirst32, hfirst64, toNat_ofNat']
  omega

def Framebuffer.Covers (fb : Framebuffer) (offs : UInt32) : Prop :=
  (fb.fields.1.first ≤ offs ∧ offs ≤ fb.fields.1.last) ∨
    (fb.fields.2.first ≤ offs ∧ offs ≤ fb.fields.2.last)

/-- The byte is between the first and the last address of the texture. -/
def Tex.Covers (tex : Tex) (z : Nat) : Prop :=
  tex.texMeta.addrFirst.toNat ≤ z ∧ z ≤ tex.texMeta.addrLast.toNat

instance (fb : Framebuffer) (offs : UInt32) : Decidable (fb.Covers offs) :=
  inferInstanceAs (Decidable (_ ∨ _))

instance (tex : Tex) (z : Nat) : Decidable (tex.Covers z) := inferInstanceAs (Decidable (_ ∧ _))

namespace FbHeap

variable {heap : FbHeap} {idx : Fin 8}

theorem notifyWrite_hasGfx_of_false (addr : UInt32) (nBytes : Nat)
    (old : (heap.fbs idx).state.hasGfx = false) :
    ((heap.notifyWrite addr nBytes).fbs idx).state.hasGfx = false := by
  simp only [notifyWrite, old, Bool.false_and, Bool.false_eq_true, if_false]

theorem notifyWrite_hasGfx_of_covers {addr z : Nat} (hz : addr ≤ z ∧ z < addr + 32)
    (inside : z < TexArea.len) (covers : (heap.fbs idx).Covers (offs64 z)) :
    ((heap.notifyWrite (ofNat ((TexArea.first .tex64).toNat + addr)) 32).fbs
      idx).state.hasGfx = false := by
  have hlen : TexArea.len < 2 ^ 23 + 1 := by decide
  have hoffs : (offs64 z).toNat = 0xff000000 + z := offs64_toNat (by omega)
  have hfirst : (offs64 addr).toNat = 0xff000000 + addr := offs64_toNat (by omega)
  have hlast : (ofNat 32 - 1 + offs64 addr).toNat = 31 + (0xff000000 + addr) := by
    have hsize : (ofNat 32 - 1).toNat = 31 := rfl
    rw [UInt32.toNat_add, hsize, hfirst]
    omega
  have hle : offs64 addr ≤ offs64 z := by
    rw [le_iff_toNat_le]
    omega
  have hle' : offs64 z ≤ ofNat 32 - 1 + offs64 addr := by
    rw [le_iff_toNat_le]
    omega
  -- both ranges contain the byte
  have hoverlap : ∀ f : Field, f.first ≤ offs64 z ∧ offs64 z ≤ f.last →
      checkOverlap (offs64 addr) (ofNat 32 - 1 + offs64 addr) f.first f.last = true := by
    rintro f ⟨hf, hl⟩
    rw [checkOverlap_iff (UInt32.le_trans hle hle') (UInt32.le_trans hf hl)]
    exact ⟨UInt32.le_trans hf hle', UInt32.le_trans hle hl⟩
  cases hgfx : (heap.fbs idx).state.hasGfx with
  | false => exact notifyWrite_hasGfx_of_false _ _ hgfx
  | true =>
    have hseen : ((heap.fbs idx).state.hasGfx &&
        (checkOverlap (offs64 addr) (ofNat 32 - 1 + offs64 addr)
            (heap.fbs idx).fields.1.first (heap.fbs idx).fields.1.last ||
          checkOverlap (offs64 addr) (ofNat 32 - 1 + offs64 addr)
            (heap.fbs idx).fields.2.first (heap.fbs idx).fields.2.last)) = true := by
      rw [hgfx, Bool.true_and, Bool.or_eq_true]
      exact covers.imp (hoverlap _) (hoverlap _)
    rw [notifyWrite]
    dsimp only
    rw [offs64] at hseen
    rw [if_pos hseen]
    rfl

theorem reportedFbs_fields (addrs : List Nat) :
    ((reportedFbs heap addrs).fbs idx).fields = (heap.fbs idx).fields := by
  refine @RowMajor.look_foldl_of_forall _ _ (fun heap : FbHeap => (heap.fbs idx).fields) _ _ _ ?_ heap
  intro heap addr _
  exact notifyWrite_fields heap _ _ idx

theorem reportedFbs_hasGfx_of_false (addrs : List Nat)
    (old : (heap.fbs idx).state.hasGfx = false) :
    ((reportedFbs heap addrs).fbs idx).state.hasGfx = false := by
  induction addrs generalizing heap with
  | nil => exact old
  | cons addr addrs ih => exact ih (notifyWrite_hasGfx_of_false _ _ old)

theorem reportedFbs_hasGfx_of_covers {addr z : Nat}
    (reported : (TexArea.first .tex64).toNat + addr ∈ addrs) (hz : addr ≤ z ∧ z < addr + 32)
    (inside : z < TexArea.len) (covers : (heap.fbs idx).Covers (offs64 z)) :
    ((reportedFbs heap addrs).fbs idx).state.hasGfx = false := by
  obtain ⟨before, after, rfl⟩ := append_of_mem reported
  rw [reportedFbs, foldl_append, foldl_cons]
  refine reportedFbs_hasGfx_of_false after (notifyWrite_hasGfx_of_covers hz inside ?_)
  simp only [Framebuffer.Covers] at covers ⊢
  rwa [← reportedFbs, reportedFbs_fields]

end FbHeap

/-! ## A macroblock -/

namespace YuvSystem

variable {s s' : YuvSystem}

def writtenByte (s : YuvSystem) (row i : Nat) : Nat := s.macroblockAddr + yuvLinestride * row + i

def Reports (s : YuvSystem) (z : Nat) : Prop :=
  ∃ addr ∈ yuvReports s.macroblockAddr 16,
    addr ≤ (TexArea.first .tex64).toNat + z ∧ (TexArea.first .tex64).toNat + z < addr + 32

variable {row i : Nat}

theorem reports_writtenByte_iff (hrow : row < 16) (hi : i < 32) :
    s.Reports (s.writtenByte row i) ↔ row ≠ 0 := by
  constructor
  · rintro ⟨addr, haddr, hle, hlt⟩
    obtain ⟨row', -, rfl⟩ := mem_yuvReports.mp haddr
    simp only [writtenByte, yuvLinestride] at hle hlt
    omega
  · intro hne
    refine ⟨_, mem_yuvReports.mpr ⟨row - 1, by omega, rfl⟩, ?_, ?_⟩
    · simp only [writtenByte, yuvLinestride]
      omega
    · simp only [writtenByte, yuvLinestride]
      omega

theorem writtenByte_lt_iff :
    (∀ row < 16, ∀ i < 32, s.writtenByte row i < TexArea.len) ↔
      s.macroblockAddr + yuvLinestride * 15 + 32 ≤ TexArea.len := by
  constructor
  · intro hall
    exact hall 15 (by decide) 31 (by decide)
  · intro hlast row hrow i hi
    simp only [writtenByte, yuvLinestride] at hlast ⊢
    omega

theorem macroblock_ok (done : s.macroblock = .ok s') :
    s'.tex = s.written.tex ∧ s'.fbs = s.written.fbs := by
  rw [macroblock] at done
  split at done
  · cases done
  · rename_i hx
    split at done
    · cases done
    · rename_i hy
      have hok := macroblock_eq (Nat.lt_of_not_le hx) (Nat.lt_of_not_le hy)
      rw [macroblock, if_neg hx, if_neg hy] at hok
      cases hok.symm.trans done
      simp only [completed, advance]
      split_ifs <;> exact ⟨rfl, rfl⟩

theorem written_mem_of_ne {z : Nat} (other : ∀ row < 16, ∀ i < 32, z ≠ s.writtenByte row i) :
    s.written.tex.mem .tex64 z = s.tex.mem .tex64 z := by
  simp only [written, Function.update_self]
  refine rowsMem_outside s.yuv _ _ ?_
  intro row hrow
  by_contra hbetween
  have hbyte := other row hrow (z - (s.macroblockAddr + yuvLinestride * row)) (by omega)
  rw [writtenByte] at hbyte
  omega

theorem onReportedPage_writtenByte (hrow : row < 16) (hi : i < 32) (hne : row ≠ 0) :
    OnReportedPage (yuvReports s.macroblockAddr 16) (s.writtenByte row i / texPageSize) := by
  refine ⟨_, mem_yuvReports.mpr ⟨row - 1, by omega, rfl⟩, ?_⟩
  simp only [TexSystem.writePages, Nat.add_sub_cancel_left, writtenByte]
  have hnext : row - 1 + 1 = row := by omega
  rw [hnext]
  exact ⟨Nat.div_le_div_right (by omega), Nat.div_le_div_right (by omega)⟩

theorem not_onReportedPage_of_lt
    (hpage : page < (s.macroblockAddr + yuvLinestride) / texPageSize) :
    ¬OnReportedPage (yuvReports s.macroblockAddr 16) page := by
  rintro ⟨addr, haddr, hle, -⟩
  obtain ⟨row, -, rfl⟩ := mem_yuvReports.mp haddr
  simp only [TexSystem.writePages, Nat.add_sub_cancel_left] at hle
  have hmono : (s.macroblockAddr + yuvLinestride) / texPageSize ≤
      (s.macroblockAddr + yuvLinestride * (row + 1)) / texPageSize :=
    Nat.div_le_div_right (by simp only [yuvLinestride]; omega)
  omega

theorem written_needUpdate {tex : Tex} (valid : tex.valid = true)
    (hrow : row < 16) (hi : i < 32) (hne : row ≠ 0) (covers : tex.Covers (s.writtenByte row i))
    (later : tex.lastUpdate < s.tex.clk) : s.written.tex.needUpdate tex = true := by
  cases hstate : tex.state with
  | invalid =>
    rw [Tex.valid, hstate] at valid
    cases valid
  | dirty => rw [TexSystem.needUpdate, hstate]
  | ready =>
    rw [TexSystem.needUpdate, hstate]
    refine PageStamps.newer_iff.mpr ⟨s.writtenByte row i / texPageSize, ?_, ?_⟩
    · exact ⟨Nat.div_le_div_right covers.1, Nat.div_le_div_right covers.2⟩
    · simp only [written]
      rw [reportedStamps_of_onReportedPage _ _ (onReportedPage_writtenByte hrow hi hne)]
      exact later

theorem written_hasGfx {idx : Fin 8} (hrow : row < 16) (hi : i < 32)
    (hne : row ≠ 0) (inside : s.writtenByte row i < TexArea.len)
    (covers : (s.fbs.fbs idx).Covers (offs64 (s.writtenByte row i))) :
    (s.written.fbs.fbs idx).state.hasGfx = false := by
  refine FbHeap.reportedFbs_hasGfx_of_covers (mem_yuvReports.mpr ⟨row - 1, by omega, rfl⟩) ?_ inside
    covers
  simp only [writtenByte, yuvLinestride]
  omega

/-- A macroblock is inside texture memory exactly if its last row is, and a byte of it is reported
exactly if it is not of the first row. Textures and framebuffers that cover a reported byte of the
macroblock are not taken for valid any more; the pages of the first row are not stamped. -/
theorem macroblock_reports_iff (done : s.macroblock = .ok s') :
    (∀ z, (∀ row < 16, ∀ i < 32, z ≠ s.writtenByte row i) →
      s'.tex.mem .tex64 z = s.tex.mem .tex64 z) ∧
    ((∀ row < 16, ∀ i < 32, s.writtenByte row i < TexArea.len) ↔
      s.macroblockAddr + yuvLinestride * 15 + 32 ≤ TexArea.len) ∧
    (∀ row < 16, ∀ i < 32, s.Reports (s.writtenByte row i) ↔ row ≠ 0) ∧
    (∀ row < 16, ∀ i < 32, row ≠ 0 → s.writtenByte row i < TexArea.len →
      (∀ tex ∈ s'.tex.texCache, tex.valid = true → tex.lastUpdate < s.tex.clk →
        tex.Covers (s.writtenByte row i) → s'.tex.needUpdate tex = true) ∧
      ∀ idx, (s'.fbs.fbs idx).Covers (offs64 (s.writtenByte row i)) →
        (s'.fbs.fbs idx).state.hasGfx = false) ∧
    ∀ page < (s.macroblockAddr + yuvLinestride) / texPageSize,
      s'.tex.pageStamps page = s.tex.pageStamps page := by
  obtain ⟨htex, hfbs⟩ := macroblock_ok done
  rw [htex, hfbs]
  refine ⟨fun z other => written_mem_of_ne other, writtenByte_lt_iff,
    fun row hrow i hi => reports_writtenByte_iff hrow hi, ?_, ?_⟩
  · intro row hrow i hi hne inside
    constructor
    · intro tex _ valid later covers
      exact written_needUpdate valid hrow hi hne covers later
    · intro idx covers
      refine written_hasGfx hrow hi hne inside ?_
      simp only [Framebuffer.Covers] at covers ⊢
      rwa [← @FbHeap.reportedFbs_fields s.fbs idx (yuvReports s.macroblockAddr 16)]
  · intro page hpage
    exact reportedStamps_of_not_onReportedPage _ _ (not_onReportedPage_of_lt hpage)

/-- A converter with a macroblock of ones, whose only macroblock is not written yet. -/
def ones (dstAddr : UInt32) (texCache : List Tex) (fbs : FbHeap) : YuvSystem where
  yuv := ⟨dstAddr, .fmt420, 0, 0, 0, 1, 1, fun _ => 1, fun _ => 1, fun _ => 1, .idle⟩
  taYuvTexCtrl := 0
  tex := ⟨6, 1, fun _ _ => 0, fun _ => 0, 0, fun _ => 0, texCache⟩
  fbs := fbs

/-- A texture of eight rows and eight columns at the start of texture memory, which was sent in cycle
five. -/
def sentTexture : Tex where
  lastUpdate := 5
  texMeta := ⟨0, 127, 3, 3, .argb1555, .argb1555, 0, false, false, false, false⟩
  obj := some ⟨replicate 128 0, .argb1555⟩
  frameStampLastUsed := 1
  state := .ready

/-- A framebuffer of which the host has the newest contents, with its first word in the first row. -/
def shownHeap : FbHeap :=
  let fb : Framebuffer :=
    ⟨.gfx, 2, 1, 0xff000000, (⟨0xff000000, 0xff000002, 0xff000003⟩,
      ⟨0xff000000, 0xff000002, 0xff000003⟩), 0, .rgb565⟩
  ⟨fun _ => fb, 0⟩

theorem macroblock_reports_iff_ones :
    (ones 0 [sentTexture] shownHeap).macroblock.toOption.isSome = true ∧
      (ones 0 [sentTexture] shownHeap).Reports 1024 ∧
      ¬(ones 0 [sentTexture] shownHeap).Reports 0 := by
  obtain ⟨s', done⟩ : ∃ s', (ones 0 [sentTexture] shownHeap).macroblock = .ok s' := ⟨_, rfl⟩
  have hreports := (macroblock_reports_iff done).2.2.1
  refine ⟨by rw [done]; rfl, (hreports 1 (by decide) 0 (by decide)).mpr (by decide), ?_⟩
  exact fun h => (hreports 0 (by decide) 0 (by decide)).mp h rfl

/-- The first row of a macroblock changes a byte of a texture and of a framebuffer that stay valid.
Another macroblock passes the check of its base and is written behind texture memory. -/
theorem macroblock_reports_wrong :
    (∃ s', (ones 0 [sentTexture] shownHeap).macroblock = .ok s' ∧
      s'.tex.mem .tex64 0 = 1 ∧ ¬(ones 0 [sentTexture] shownHeap).Reports 0 ∧
      sentTexture ∈ s'.tex.texCache ∧ sentTexture.Covers 0 ∧
      s'.tex.needUpdate sentTexture = false ∧
      (s'.fbs.fbs ⟨0, by decide⟩).Covers (offs64 0) ∧
      (s'.fbs.fbs ⟨0, by decide⟩).state = .gfx) ∧
    (∃ s', ((ones 0x7ffff8 [] .init).yuv.dstAddr + 3).toNat < TexArea.len ∧
      (ones 0x7ffff8 [] .init).macroblock = .ok s' ∧
      TexArea.len ≤ (ones 0x7ffff8 [] .init).writtenByte 0 8) := by
  constructor
  · obtain ⟨s', done⟩ : ∃ s', (ones 0 [sentTexture] shownHeap).macroblock = .ok s' := ⟨_, rfl⟩
    obtain ⟨htex, hfbs⟩ := macroblock_ok done
    have hrow : ¬(ones 0 [sentTexture] shownHeap).Reports 0 := fun h =>
      (@reports_writtenByte_iff (ones 0 [sentTexture] shownHeap) 0 0 (by decide) (by decide)).mp h rfl
    have hbyte : (ones 0 [sentTexture] shownHeap).written.tex.mem .tex64 0 = 1 := by
      simp only [written, Function.update_self]
      exact (rowsMem_inside _ _ 0 (by decide : 0 < 16) (by decide : 0 < 32)).trans (by decide +kernel)
    refine ⟨s', done, ?_⟩
    rw [htex, hfbs]
    exact ⟨hbyte, hrow, mem_singleton.mpr rfl, by decide, by decide +kernel, by decide +kernel,
      by decide +kernel⟩
  · exact ⟨_, by decide, rfl, by decide⟩

end YuvSystem

end Pvr2
