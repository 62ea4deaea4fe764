import WashingtonDC.Pvr2.TexCoherence
import WashingtonDC.Pvr2.Twiddle

/-!
# The bytes that are read for a texture

`pvr2_tex_cache_add` and `pvr2_tex_cache_read` compute the bytes of a texture apart from each other.
They agree unless the texture has a code book and mipmaps: then the indices are read behind the byte
that is taken for the last one. Neither of them compares the texture with the end of texture memory.

A texture that is an error of the program, such as a paletted one with a code book, is not read.
-/
namespace Pvr2

open List Option TexArea TexCtrlPixFmt Nat
open ByteMemory (Memory)

/-! ## The loops -/

/-- The bytes that `pvr2_tex_detwiddle` copies, in the order of its loops. -/
def detwiddleReads (wShift hShift bytesPerPix : Nat) : List Nat :=
  (RowMajor.cells (1 <<< wShift) (1 <<< hShift)).flatMap fun p =>
    (range bytesPerPix).map fun i => texTwiddle p.1 p.2 wShift hShift * bytesPerPix + i

/-- The bytes that `pvr2_tex_detwiddle_4bpp` reads. -/
def detwiddle4BppReads (wShift hShift : Nat) : List Nat :=
  (RowMajor.cells (1 <<< wShift) (1 <<< hShift)).map fun p => texTwiddle p.1 p.2 wShift hShift / 2

/-- The bytes that `pvr2_tex_vq_decompress` reads: an index, and then its entry of the code book. -/
def vqDecompressReads (mem : Memory) (codeBook src sideShift : Nat) : List Nat :=
  (RowMajor.cells (1 <<< (sideShift - 1)) (1 <<< (sideShift - 1))).flatMap fun p =>
    let idx := src + texTwiddle p.1 p.2 (sideShift - 1) (sideShift - 1)
    idx :: (range 8).map fun i => codeBook + 8 * (mem idx).toNat + i

section
variable {i wShift hShift : Nat}

theorem exists_texTwiddle {t : Nat} :
    (∃ p ∈ RowMajor.cells (1 <<< wShift) (1 <<< hShift), texTwiddle p.1 p.2 wShift hShift = t) ↔
      t < (1 <<< wShift) * (1 <<< hShift) := by
  rw [one_shiftLeft, one_shiftLeft, ← mem_range,
    ← (map_texTwiddle_perm wShift hShift).mem_iff, List.mem_map]

theorem mem_detwiddleReads {bytesPerPix : Nat} :
    i ∈ detwiddleReads wShift hShift bytesPerPix ↔
      i < (1 <<< wShift) * (1 <<< hShift) * bytesPerPix := by
  simp only [detwiddleReads, mem_flatMap, List.mem_map, mem_range]
  constructor
  · rintro ⟨p, hp, k, hk, rfl⟩
    have hlt : texTwiddle p.1 p.2 wShift hShift < _ := exists_texTwiddle.mp ⟨p, hp, rfl⟩
    calc texTwiddle p.1 p.2 wShift hShift * bytesPerPix + k
      _ < texTwiddle p.1 p.2 wShift hShift * bytesPerPix + bytesPerPix := Nat.add_lt_add_left hk _
      _ = (texTwiddle p.1 p.2 wShift hShift + 1) * bytesPerPix := by ring
      _ ≤ (1 <<< wShift) * (1 <<< hShift) * bytesPerPix := Nat.mul_le_mul_right _ hlt
  · intro hi
    have hpos : 0 < bytesPerPix := by
      rcases Nat.eq_zero_or_pos bytesPerPix with rfl | hpos
      · cases hi
      · exact hpos
    obtain ⟨p, hp, ht⟩ := exists_texTwiddle.mpr
      (Nat.div_lt_of_lt_mul (mul_comm _ bytesPerPix ▸ hi))
    refine ⟨p, hp, i % bytesPerPix, mod_lt _ hpos, ?_⟩
    rw [ht, div_add_mod']

theorem mem_detwiddle4BppReads (even : 1 ≤ wShift) :
    i ∈ detwiddle4BppReads wShift hShift ↔ i < (1 <<< wShift) * (1 <<< hShift) / 2 := by
  have hhalf := pixels_eq_two_mul even hShift
  rw [detwiddle4BppReads, List.mem_map]
  constructor
  · rintro ⟨p, hp, rfl⟩
    have hlt : texTwiddle p.1 p.2 wShift hShift < _ := exists_texTwiddle.mp ⟨p, hp, rfl⟩
    omega
  · intro hi
    obtain ⟨p, hp, ht⟩ := exists_texTwiddle.mpr (by omega : 2 * i < (1 <<< wShift) * (1 <<< hShift))
    refine ⟨p, hp, ?_⟩
    rw [ht, Nat.mul_div_cancel_left i (by decide)]

variable {mem : Memory} {codeBook src sideShift : Nat}

theorem mem_vqDecompressReads_of_index
    (hi : src ≤ i ∧ i < src + (1 <<< (sideShift - 1)) * (1 <<< (sideShift - 1))) :
    i ∈ vqDecompressReads mem codeBook src sideShift := by
  obtain ⟨p, hp, ht⟩ := exists_texTwiddle.mpr
    (by omega : i - src < (1 <<< (sideShift - 1)) * (1 <<< (sideShift - 1)))
  refine mem_flatMap.mpr ⟨p, hp, ?_⟩
  rw [ht, add_sub_of_le hi.1]
  exact mem_cons_self

theorem mem_vqDecompressReads (hi : i ∈ vqDecompressReads mem codeBook src sideShift) :
    (src ≤ i ∧ i < src + (1 <<< (sideShift - 1)) * (1 <<< (sideShift - 1))) ∨
      (codeBook ≤ i ∧ i < codeBook + codeBookLen) := by
  obtain ⟨p, hp, hi⟩ := mem_flatMap.mp hi
  have hlt := exists_texTwiddle.mp ⟨p, hp, rfl⟩
  rcases mem_cons.mp hi with rfl | hi
  · exact .inl (by omega)
  · obtain ⟨k, hk, rfl⟩ := List.mem_map.mp hi
    have hidx := (mem (src + texTwiddle p.1 p.2 (sideShift - 1) (sideShift - 1))).toNat_lt
    rw [mem_range] at hk
    exact .inr (by simp only [codeBookLen]; omega)

theorem pvr2TexVqDecompress_congr_reads {mem' : Memory} (dst : Memory)
    (same : ∀ i ∈ vqDecompressReads mem codeBook src sideShift, mem' i = mem i) :
    pvr2TexVqDecompress dst (fun i => mem' (codeBook + i)) (fun i => mem' (src + i)) sideShift =
      pvr2TexVqDecompress dst (fun i => mem (codeBook + i)) (fun i => mem (src + i)) sideShift := by
  apply RowMajor.scan_congr
  intro dst col hcol row hrow
  have hcell : ∀ i ∈ (src + texTwiddle col row (sideShift - 1) (sideShift - 1)) ::
      (range 8).map (fun i => codeBook + 8 *
        (mem (src + texTwiddle col row (sideShift - 1) (sideShift - 1))).toNat + i),
      mem' i = mem i := by
    intro i hi
    exact same i (mem_flatMap.mpr ⟨(col, row), RowMajor.mem_cells.mpr ⟨hcol, hrow⟩, hi⟩)
  obtain ⟨hidx, hentry⟩ := forall_mem_cons.mp hcell
  have hcolor : ∀ (dst : Memory) (pix : Nat), ∀ j < 4,
      copyColor dst pix (fun i => mem' (codeBook + i))
        (mem (src + texTwiddle col row (sideShift - 1) (sideShift - 1))) j =
      copyColor dst pix (fun i => mem (codeBook + i))
        (mem (src + texTwiddle col row (sideShift - 1) (sideShift - 1))) j := by
    intro dst pix j hj
    refine ByteMemory.copy_congr _ _ ?_
    intro i hi
    refine hentry _ (List.mem_map.mpr ⟨2 * j + i, mem_range.mpr (by omega), ?_⟩)
    omega
  simp only [hidx, hcolor _ _ 0 (by decide), hcolor _ _ 1 (by decide), hcolor _ _ 2 (by decide),
    hcolor _ _ 3 (by decide)]

end

/-! ## Textures -/

namespace TexMeta

/-- The bytes of texture memory that `pvr2_tex_cache_read` reads, in its order. -/
def reads (m : TexMeta) (mem : Memory) : List Nat :=
  if len ≤ (m.addrLast - m.addrFirst + 1).toNat then []
  else match m.nBytes, m.beg with
    | some nBytes, some beg =>
      if m.vqCompression then
        if m.texFmt.isPaletted then []
        else if m.texFmt = .yuv422 then []
        else if m.texFmt.pixelSize ≠ 2 then []
        else if m.wShift ≠ m.hShift then []
        else vqDecompressReads mem m.addrFirst.toNat beg m.wShift
      else if m.twiddled then
        if m.texFmt = .pal4Bpp then (detwiddle4BppReads m.wShift m.hShift).map (beg + ·)
        else (detwiddleReads m.wShift m.hShift m.texFmt.pixelSize).map (beg + ·)
      else (range nBytes).map (beg + ·)
    | _, _ => []

variable {m : TexMeta} {mem : Memory} {i nBytes beg extent : Nat}

def CodeBookReadable (m : TexMeta) : Prop :=
  m.texFmt.isPaletted = false ∧ m.texFmt ≠ .yuv422 ∧ m.texFmt.pixelSize = 2 ∧ m.wShift = m.hShift

theorem reads_of_codeBook (hlen : (m.addrLast - m.addrFirst + 1).toNat < len)
    (hbytes : m.nBytes = some nBytes) (hbeg : m.beg = some beg) (hvq : m.vqCompression = true)
    (readable : m.CodeBookReadable) :
    m.reads mem = vqDecompressReads mem m.addrFirst.toNat beg m.wShift := by
  obtain ⟨hpal, hyuv, hsize, hsquare⟩ := readable
  rw [reads, if_neg (Nat.not_le_of_lt hlen)]
  simp [hbytes, hbeg, hvq, hpal, hyuv, hsize, hsquare]

theorem mem_reads_of_plain (even : 1 ≤ m.wShift)
    (hlen : (m.addrLast - m.addrFirst + 1).toNat < len)
    (hbytes : m.nBytes = some nBytes) (hbeg : m.beg = some beg) (hvq : m.vqCompression = false) :
    i ∈ m.reads mem ↔ beg ≤ i ∧ i < beg + nBytes := by
  -- each of the loops reads the bytes from 0 on
  have hshift : ∀ {l : List Nat}, (∀ k, k ∈ l ↔ k < nBytes) →
      (i ∈ l.map (beg + ·) ↔ beg ≤ i ∧ i < beg + nBytes) := by
    intro l hl
    rw [List.mem_map]
    constructor
    · rintro ⟨k, hk, rfl⟩
      have hk' := (hl k).mp hk
      omega
    · rintro ⟨hge, hlt⟩
      exact ⟨i - beg, (hl _).mpr (by omega), add_sub_of_le hge⟩
  simp only [reads, if_neg (Nat.not_le_of_lt hlen), hbytes, hbeg, hvq, Bool.false_eq_true, if_false]
  split
  · split
    · rename_i hfmt
      refine hshift fun k => (mem_detwiddle4BppReads even).trans ?_
      simp only [TexMeta.nBytes, if_pos hfmt, Option.some.injEq] at hbytes
      rw [hbytes]
    · rename_i hfmt
      refine hshift fun k => mem_detwiddleReads.trans ?_
      simp only [TexMeta.nBytes, if_neg hfmt] at hbytes
      split at hbytes
      · cases hbytes
      · rw [Option.some.inj hbytes]
  · exact hshift fun k => mem_range

/-! ## Textures of the cache -/

/-- What `pvr2_tex_cache_add` has made of a request. -/
structure Accepted (m : TexMeta) : Prop extends m.Made where
  shifts : m.wShift ≤ 10 ∧ m.hShift ≤ 10
  known : m.nBytes.isSome = true
  square : m.vqCompression = true ∨ m.mipmap = true → m.wShift = m.hShift

def Decodes (m : TexMeta) : Prop :=
  (m.mipmap = true → m.texFmt ≠ .yuv422) ∧
    (m.vqCompression = true → m.texFmt.isPaletted = false ∧ m.texFmt ≠ .yuv422)

instance : Decidable m.Decodes := inferInstanceAs (Decidable (_ ∧ _))

theorem mipmapOffset_lt {offs : Nat} (hoffs : m.mipmapOffset = some offs) : offs < 2 ^ 20 := by
  have htable : ∀ {l : List Nat}, (∀ x ∈ l, x < 2 ^ 20) → l[m.wShift]? = some offs → offs < 2 ^ 20 :=
    fun hl hget => hl _ (mem_of_getElem? hget)
  have hnorm := htable (by decide : ∀ x ∈ mipmapByteOffsetNorm, x < 2 ^ 20)
  have hpalette := htable (by decide : ∀ x ∈ mipmapByteOffsetPalette, x < 2 ^ 20)
  rw [mipmapOffset] at hoffs
  split at hoffs
  · exact hnorm hoffs
  · exact hnorm hoffs
  · exact hnorm hoffs
  · exact hnorm hoffs
  · exact hpalette hoffs
  · exact hpalette hoffs
  · cases hoffs

section
variable (accepted : m.Accepted)
include accepted

theorem Accepted.extent_lt (hextent : m.extent = some extent) : extent < len := by
  have hpow : ∀ {k : Nat}, k ≤ 10 → 1 <<< k ≤ 1024 := by
    intro k hk
    rw [one_shiftLeft]
    exact Nat.pow_le_pow_right (by decide) hk
  have harea : (1 <<< m.wShift) * (1 <<< m.hShift) ≤ 1024 * 1024 :=
    Nat.mul_le_mul (hpow accepted.shifts.1) (hpow accepted.shifts.2)
  have hsquare : (1 <<< m.wShift) * (1 <<< m.wShift) ≤ 1024 * 1024 :=
    Nat.mul_le_mul (hpow accepted.shifts.1) (hpow accepted.shifts.1)
  have hsize : m.texFmt.pixelSize ≤ 2 := by
    cases m.texFmt <;> decide
  have hpixels : m.texFmt.pixelSize * (1 <<< m.wShift) * (1 <<< m.hShift) ≤ 2 * (1024 * 1024) := by
    rw [Nat.mul_assoc]
    exact Nat.mul_le_mul hsize harea
  simp only [len]
  simp only [TexMeta.extent] at hextent
  split at hextent
  · cases hextent
    simp only [codeBookLen]
    omega
  · have hlen : (if m.texFmt = .pal4Bpp then (1 <<< m.wShift) * (1 <<< m.hShift) / 2
        else m.texFmt.pixelSize * (1 <<< m.wShift) * (1 <<< m.hShift)) ≤ 2 * (1024 * 1024) := by
      split
      · omega
      · exact hpixels
    split at hextent
    · split at hextent
      · cases hextent
      · obtain ⟨offs, hoffs, rfl⟩ := map_eq_some_iff.mp hextent
        have hlt := mipmapOffset_lt hoffs
        omega
    · cases hextent
      omega

theorem Accepted.len_lt : (m.addrLast - m.addrFirst + 1).toNat < len := by
  obtain ⟨extent, hextent, hlast⟩ := accepted.ends
  have hlt := accepted.extent_lt hextent
  have hsub : m.addrLast - m.addrFirst + 1 = UInt32.ofNat extent := by
    rw [hlast]
    grind
  rw [hsub, UInt32.toNat_ofNat']
  exact lt_of_le_of_lt (mod_le _ _) hlt

theorem srcLen_pos : 0 < m.srcLen := by
  have hpos : ∀ k : Nat, 0 < 1 <<< k := by
    intro k
    rw [one_shiftLeft]
    exact Nat.two_pow_pos k
  rw [srcLen]
  split
  · exact Nat.mul_pos (hpos _) (hpos _)
  · have hknown := accepted.known
    simp only [TexMeta.nBytes] at hknown ⊢
    split
    · have wide : 1 ≤ m.wShift := le_trans (by decide) accepted.wide
      rw [pixels_eq_two_mul wide, getD_some, Nat.mul_div_cancel_left _ (by decide)]
      exact Nat.mul_pos (hpos _) (hpos _)
    · split
      · simp_all
      · rename_i hsize
        exact Nat.mul_pos (Nat.mul_pos (hpos _) (hpos _)) (pos_of_ne_zero hsize)

theorem Accepted.exists_beg (decodes : m.Decodes) : ∃ beg, m.beg = some beg := by
  have hindex : ∀ {l : List Nat}, l.length = 11 → ∃ offs, l[m.wShift]? = some offs := by
    intro l hl
    have hlt := accepted.shifts.1
    exact ⟨l[m.wShift], getElem?_eq_getElem (by omega)⟩
  by_cases hmipmap : m.mipmap = true
  · have hsquare := not_not.mpr (accepted.square (.inr hmipmap))
    simp only [beg, if_pos hmipmap, if_neg hsquare, if_neg (decodes.1 hmipmap)]
    split
    · obtain ⟨offs, hoffs⟩ := @hindex mipmapByteOffsetVq rfl
      exact ⟨_, map_eq_some_iff.mpr ⟨offs, hoffs, rfl⟩⟩
    · obtain ⟨offs, hoffs⟩ : ∃ offs, m.mipmapOffset = some offs := by
        have hknown := accepted.known
        obtain ⟨norm, hnorm⟩ := @hindex mipmapByteOffsetNorm rfl
        obtain ⟨palette, hpalette⟩ := @hindex mipmapByteOffsetPalette rfl
        cases hfmt : m.texFmt <;>
          simp_all [mipmapOffset, TexMeta.nBytes, pixelSize]
      exact ⟨_, map_eq_some_iff.mpr ⟨offs, hoffs, rfl⟩⟩
  · simp only [beg, if_neg hmipmap]
    split
    · exact ⟨_, rfl⟩
    · exact ⟨_, rfl⟩

theorem Accepted.codeBookReadable (decodes : m.Decodes) (hvq : m.vqCompression = true) :
    m.CodeBookReadable := by
  obtain ⟨hpal, hyuv⟩ := decodes.2 hvq
  refine ⟨hpal, hyuv, ?_, accepted.square (.inl hvq)⟩
  have hknown := accepted.known
  cases hfmt : m.texFmt <;>
    simp_all [TexMeta.nBytes, pixelSize, isPaletted]

theorem Accepted.mem_reads (decodes : m.Decodes) (hbeg : m.beg = some beg)
    (hi : beg ≤ i ∧ i < beg + m.srcLen) : i ∈ m.reads mem := by
  obtain ⟨nBytes, hbytes⟩ := isSome_iff_exists.mp accepted.known
  cases hvq : m.vqCompression with
  | true =>
    rw [reads_of_codeBook accepted.len_lt hbytes hbeg hvq (accepted.codeBookReadable decodes hvq)]
    rw [srcLen, if_pos hvq] at hi
    exact mem_vqDecompressReads_of_index hi
  | false =>
    have hlen : m.srcLen = nBytes := by
      simp [srcLen, hvq, hbytes]
    rw [mem_reads_of_plain (le_trans (by decide) accepted.wide) accepted.len_lt hbytes hbeg hvq]
    rwa [hlen] at hi

theorem Accepted.reads_of_mem (hi : i ∈ m.reads mem) : m.Reads i ∧ m.Decodes := by
  obtain ⟨nBytes, hbytes⟩ := isSome_iff_exists.mp accepted.known
  cases hbeg : m.beg with
  | none =>
    rw [reads, if_neg (Nat.not_le_of_lt accepted.len_lt), hbytes, hbeg] at hi
    cases hi
  | some beg =>
    have hmipmap : m.mipmap = true → m.texFmt ≠ .yuv422 := by
      intro hmipmap hyuv
      simp [TexMeta.beg, hmipmap, hyuv] at hbeg
    cases hvq : m.vqCompression with
    | true =>
      have hcond : m.texFmt.isPaletted = false ∧ m.texFmt ≠ .yuv422 := by
        rw [reads, if_neg (Nat.not_le_of_lt accepted.len_lt), hbytes, hbeg] at hi
        by_contra hcontra
        cases hpal : m.texFmt.isPaletted <;> simp_all
      refine ⟨?_, hmipmap, fun _ => hcond⟩
      rw [reads_of_codeBook accepted.len_lt hbytes hbeg hvq
        (accepted.codeBookReadable ⟨hmipmap, fun _ => hcond⟩ hvq)] at hi
      rcases mem_vqDecompressReads hi with hsrc | hbook
      · refine .inr ⟨beg, hbeg, ?_⟩
        rwa [srcLen, if_pos hvq]
      · exact .inl ⟨hvq, hbook⟩
    | false =>
      have hlen : m.srcLen = nBytes := by
        simp [srcLen, hvq, hbytes]
      rw [mem_reads_of_plain (le_trans (by decide) accepted.wide) accepted.len_lt hbytes hbeg hvq,
        ← hlen] at hi
      refine ⟨.inr ⟨beg, hbeg, hi⟩, hmipmap, ?_⟩
      intro hcontra
      rw [hvq] at hcontra
      cases hcontra

end

/-- The texture ends inside texture memory and does not have mipmaps and a code book, if it can be
decoded. -/
def Contained (m : TexMeta) : Prop :=
  m.Decodes → ¬(m.vqCompression = true ∧ m.mipmap = true) ∧
    ∀ extent ∈ m.extent, m.addrFirst.toNat + extent ≤ len

instance : Decidable m.Contained := inferInstanceAs (Decidable (_ → _ ∧ ∀ _ ∈ m.extent, _))

theorem Accepted.extent_lt_beg (accepted : m.Accepted) (hvq : m.vqCompression = true)
    (hmipmap : m.mipmap = true) (hbeg : m.beg = some beg) (hextent : m.extent = some extent) :
    m.addrFirst.toNat + extent < beg + m.srcLen := by
  have hoffset : ∀ k ≤ 10, 3 ≤ k → ∀ offs ∈ mipmapByteOffsetVq[k]?, 0 < offs := by decide
  simp only [TexMeta.beg, if_pos hmipmap, if_pos hvq] at hbeg
  split at hbeg
  · cases hbeg
  · split at hbeg
    · cases hbeg
    · obtain ⟨offs, hoffs, rfl⟩ := map_eq_some_iff.mp hbeg
      have hpos := hoffset m.wShift accepted.shifts.1 accepted.wide offs hoffs
      rw [extent_eq_of_codeBook (le_trans (by decide) accepted.wide) hvq hextent]
      omega

theorem Accepted.reads_between_iff (accepted : m.Accepted) (mem : Memory) :
    (∀ i ∈ m.reads mem,
        m.addrFirst.toNat ≤ i ∧ i ≤ m.addrLast.toNat ∧ i < len) ↔ m.Contained := by
  obtain ⟨extent, hextent, hlast⟩ := accepted.ends
  have wide : 1 ≤ m.wShift := le_trans (by decide) accepted.wide
  have hpos := srcLen_pos accepted
  constructor
  · intro hinside decodes
    obtain ⟨beg, hbeg⟩ := accepted.exists_beg decodes
    -- the last byte that is read
    obtain ⟨-, hle, hlt⟩ := hinside (beg + m.srcLen - 1)
      (accepted.mem_reads decodes hbeg (by omega))
    have hfirst := addrFirst_le_beg hbeg
    have hsingle : ¬(m.vqCompression = true ∧ m.mipmap = true) := by
      rintro ⟨hvq, hmipmap⟩
      have hbehind := accepted.extent_lt_beg hvq hmipmap hbeg hextent
      have hextent_pos : 0 < extent := by
        rw [extent_eq_of_codeBook wide hvq hextent]
        omega
      have hsum := addrLast_add_one hlast hextent_pos (by omega)
      omega
    refine ⟨hsingle, ?_⟩
    intro extent' hextent'
    have hend := extent_eq wide (fun hvq => by simpa [hvq] using hsingle) hextent' hbeg hpos
    omega
  · intro contained i hi
    obtain ⟨hreads, decodes⟩ := accepted.reads_of_mem hi
    obtain ⟨hsingle, hend⟩ := contained decodes
    have hfirst := hreads.addrFirst_le
    have hlt := hreads.lt_extent wide (fun hvq => by simpa [hvq] using hsingle) hextent
    have hle := hend extent hextent
    have hsum := addrLast_add_one hlast (by omega) hle
    omega

theorem Accepted.read_congr (accepted : m.Accepted) {mem' palRam : Memory} {paletteTp : UInt32}
    (same : ∀ i ∈ m.reads mem, mem' i = mem i) :
    pvr2TexCacheRead mem' palRam paletteTp m = pvr2TexCacheRead mem palRam paletteTp m := by
  have wide : 1 ≤ m.wShift := le_trans (by decide) accepted.wide
  obtain ⟨nBytes, hbytes⟩ := isSome_iff_exists.mp accepted.known
  cases hbeg : m.beg with
  | none => simp [pvr2TexCacheRead, hbeg, hbytes]
  | some beg =>
    suffices hdat : m.texDat mem' beg nBytes = m.texDat mem beg nBytes by
      simp only [pvr2TexCacheRead, hbytes, hbeg, bind_eq_bind, bind_some, hdat]
    cases hvq : m.vqCompression with
    | true =>
      by_cases decodes : m.Decodes
      · rw [reads_of_codeBook accepted.len_lt hbytes hbeg hvq
          (accepted.codeBookReadable decodes hvq)] at same
        simp only [texDat, hvq, if_true, pvr2TexVqDecompress_congr_reads _ same]
      · have herror : ¬(m.texFmt.isPaletted = false ∧ m.texFmt ≠ .yuv422) := by
          intro hcond
          refine decodes ⟨?_, fun _ => hcond⟩
          exact fun _ => hcond.2
        cases hpal : m.texFmt.isPaletted <;> simp_all [texDat]
    | false =>
      refine texDat_congr wide hbeg hbytes ?_
      rintro i (⟨hcontra, -⟩ | ⟨beg', hbeg', hi⟩)
      · rw [hvq] at hcontra
        cases hcontra
      · cases hbeg.symm.trans hbeg'
        refine same i ((mem_reads_of_plain wide accepted.len_lt hbytes hbeg hvq).mpr ?_)
        simpa [srcLen, hvq, hbytes] using hi

end TexMeta

theorem TexRequest.accepted {r : TexRequest} {paletteTp : UInt32} {m : TexMeta}
    (added : addMeta r.params paletteTp = some m) : m.Accepted := by
  have made := TexRequest.made added
  obtain ⟨pixFmt, hpixFmt, added⟩ := bind_eq_some_iff.mp added
  obtain ⟨extent, hextent, hm⟩ := bind_eq_some_iff.mp added
  cases hm
  refine ⟨made, ⟨r.widthShift.2, r.heightShift.2⟩, ?_, ?_⟩
  · cases hfmt : TexCtrlPixFmt.ofBits r.params.pixFmt <;>
      simp_all [newPixFmt, newMeta, TexMeta.nBytes, pixelSize, pvr2TexFmtToGfx,
        isPaletted]
  · by_cases hsquare : r.params.texWidthShift = r.params.texHeightShift
    · exact fun _ => hsquare
    · rintro (hvq | hmipmap)
      · simp [newMeta, hsquare] at hvq
      · change r.params.texMipmap = true at hmipmap
        simp [TexMeta.extent, newMeta, hsquare, hmipmap] at hextent

namespace TexSystem

variable {s s' : TexSystem} {r : TexRequest} {idx : Nat} {tex : Tex}

theorem addMeta_of_added (added : s.pvr2TexCacheAdd r.params = some (some idx, s'))
    (entry : s'.texCache[idx]? = some tex) : addMeta r.params s.paletteTp = some tex.texMeta := by
  obtain ⟨texMeta, hmeta, rfl⟩ := pvr2TexCacheAdd_eq_some added
  obtain ⟨hidx, hset⟩ := List.getElem?_eq_some_iff.mp entry
  rw [getElem_set_self] at hset
  rw [hmeta, ← hset]

/-- The bytes that are read for a new entry are those between its first and its last one and are
inside texture memory if and only if it is contained. The image depends on these bytes, and a write
to one of them is seen by a page of the entry if it is contained. -/
theorem added_reads_between_iff (added : s.pvr2TexCacheAdd r.params = some (some idx, s'))
    (entry : s'.texCache[idx]? = some tex) :
    (∀ mem, (∀ i ∈ tex.texMeta.reads mem, tex.texMeta.addrFirst.toNat ≤ i ∧
        i ≤ tex.texMeta.addrLast.toNat ∧ i < len) ↔ tex.texMeta.Contained) ∧
      (∀ mem mem' palRam paletteTp, (∀ i ∈ tex.texMeta.reads mem, mem' i = mem i) →
        pvr2TexCacheRead mem' palRam paletteTp tex.texMeta =
          pvr2TexCacheRead mem palRam paletteTp tex.texMeta) ∧
      (tex.texMeta.Contained → ∀ (t t' : TexSystem) (w : TexWrite), w.area = .tex64 →
        t.write w = some t' → ∀ b ∈ w.written, b.2 ∈ tex.texMeta.reads (t.mem .tex64) →
          ∃ page, tex.texMeta.addrFirst.toNat / texPageSize ≤ page ∧
            page ≤ tex.texMeta.addrLast.toNat / texPageSize ∧ t'.pageStamps page = t.clk) := by
  have accepted := TexRequest.accepted (addMeta_of_added added entry)
  refine ⟨accepted.reads_between_iff, ?_, ?_⟩
  · intro mem mem' palRam paletteTp same
    exact accepted.read_congr same
  · intro contained t t' w harea written b hb hreads
    obtain ⟨hfirst, hlast, -⟩ := (accepted.reads_between_iff _).mpr contained b.2 hreads
    refine ⟨b.2 / texPageSize, Nat.div_le_div_right hfirst, Nat.div_le_div_right hlast, ?_⟩
    rw [TexSystem.write] at written
    split at written
    · cases written
      simp only [harea]
      exact if_pos (TexWrite.page_of_mem_written hb harea)
    · cases written

theorem added_reads_between_iff_small :
    ∃ s' tex, blank.pvr2TexCacheAdd (smallRequest 0 ⟨0, by decide⟩ true false).params =
        some (some 0, s') ∧ s'.texCache[0]? = some tex ∧ tex.texMeta.Contained ∧
      ∀ i ∈ tex.texMeta.reads (blank.mem .tex64), tex.texMeta.addrFirst.toNat ≤ i ∧
        i ≤ tex.texMeta.addrLast.toNat ∧ i < len := by
  refine ⟨_, _, rfl, rfl, ?_, ?_⟩
  · decide +kernel
  · have hiff := @added_reads_between_iff blank _ (smallRequest 0 ⟨0, by decide⟩ true false) 0 _ rfl rfl
    exact (hiff.1 _).mpr (by decide +kernel)

/-- A texture of eight rows with mipmaps and a code book, of which a byte on the page behind its last
one is read, so that a write to that byte is not seen; and a texture that runs past the end of texture
memory. -/
theorem added_reads_outside :
    (∃ s' s'' tex, blank.pvr2TexCacheAdd (smallTexture 496 ⟨0, by decide⟩ true true) =
        some (some 0, s') ∧ s'.texCache[0]? = some tex ∧
      s'.write ⟨.tex64, .one, TexArea.first .tex64 + 2565, 1⟩ = some s'' ∧
      2565 ∈ tex.texMeta.reads (s'.mem .tex64) ∧ tex.texMeta.addrLast.toNat < 2565 ∧
      s''.pagesNewer tex = false) ∧
    ∃ s' tex, blank.pvr2TexCacheAdd (smallTexture 0x7ffff8 ⟨0, by decide⟩ true false) =
        some (some 0, s') ∧ s'.texCache[0]? = some tex ∧
      len ∈ tex.texMeta.reads (s'.mem .tex64) := by
  refine ⟨⟨_, _, _, rfl, rfl, rfl, ?_, ?_, ?_⟩, _, _, rfl, rfl, ?_⟩
  · decide +kernel
  · decide +kernel
  · decide +kernel
  · decide +kernel

end TexSystem

end Pvr2
