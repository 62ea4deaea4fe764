import WashingtonDC.Pvr2.Texture
import WashingtonDC.QuadOrder
import Mathlib.Data.Finset.Prod
import Mathlib.Tactic.IntervalCases

/-!
# The order of twiddled pixels

`tex_twiddle` gives the place of a pixel in the recursive order of the quadrants, and the loops over
the pixels of a texture move every pixel to another place, also if two pixels share a byte. A texture
with a code book is the twiddled texture that has the pixels of the code book instead of the indices.

The numbers are unbounded here. In the source the sides of a texture are at most 1024.
-/
namespace Pvr2

open Nat List RowMajor
open ByteMemory (Memory)
open QuadOrder (place move rectangle)

/-! ## The index of a pixel -/

theorem twiddleBit_eq {x y t n : Nat} (ht : t < 2 ^ n * 2 ^ n) :
    twiddleBit x y t n = (x / 2 ^ n % 2 * 2 + y / 2 ^ n % 2) * (2 ^ n * 2 ^ n) + t := by
  have hbit : ∀ a : Nat, 1 <<< n ≤ a &&& ((1 <<< (n + 1)) - 1) ↔ a / 2 ^ n % 2 = 1 := by
    intro a
    have hmod : a % 2 ^ (n + 1) = a / 2 ^ n % 2 * 2 ^ n + a % 2 ^ n := by
      rw [pow_succ, mod_mul, mul_comm (a / 2 ^ n % 2), add_comm]
    rw [one_shiftLeft, one_shiftLeft, and_two_pow_sub_one_eq_mod, hmod]
    rcases mod_two_eq_zero_or_one (a / 2 ^ n) with h | h
    · rw [h]
      omega
    · rw [h]
      omega
  have hsquare : 2 ^ n * 2 ^ n = 2 ^ (n * 2) := by ring
  have hor : ∀ c : Nat, t ||| c <<< (n * 2) = c * (2 ^ n * 2 ^ n) + t := by
    intro c
    rw [hsquare] at ht ⊢
    rw [Nat.or_comm, ← shiftLeft_add_eq_or_of_lt ht, shiftLeft_eq]
  have hodd : (1 <<< (n * 2 + 1) : Nat) = 2 <<< (n * 2) := by
    rw [add_comm, shiftLeft_add]
    rfl
  simp only [twiddleBit, hbit, hodd]
  rcases mod_two_eq_zero_or_one (x / 2 ^ n) with hx | hx <;>
    rcases mod_two_eq_zero_or_one (y / 2 ^ n) with hy | hy
  · simp [hx, hy]
  · simp [hx, hy, hor]
  · simp [hx, hy, hor]
  · simp only [hx, hy, if_true]
    rw [Nat.or_assoc, ← shiftLeft_or_distrib, hor]
    rfl

theorem foldl_twiddleBit (x y n : Nat) :
    (range n).foldl (twiddleBit x y) 0 = place n (x % 2 ^ n) (y % 2 ^ n) := by
  induction n with
  | zero => rfl
  | succ n ih =>
    have hdiv : ∀ a : Nat, a % 2 ^ (n + 1) / 2 ^ n = a / 2 ^ n % 2 := by
      intro a
      rw [pow_succ, mod_mul_right_div_self]
    have hmod : ∀ a : Nat, a % 2 ^ (n + 1) % 2 ^ n = a % 2 ^ n := by
      intro a
      rw [pow_succ, mod_mul_right_mod]
    have hpos := Nat.two_pow_pos n
    have hlt := QuadOrder.place_lt (mod_lt x hpos) (mod_lt y hpos)
    rw [range_succ, foldl_append, ih, foldl_cons, foldl_nil, twiddleBit_eq hlt,
      place, hdiv, hdiv, hmod, hmod]

theorem twiddle_square (x y n : Nat) :
    (range (n + 1)).foldl (twiddleBit (x &&& (2 ^ n - 1)) (y &&& (2 ^ n - 1))) 0 =
      place n (x % 2 ^ n) (y % 2 ^ n) := by
  have hlt : ∀ a : Nat, a % 2 ^ n < 1 <<< n := by
    intro a
    rw [one_shiftLeft]
    exact mod_lt a (Nat.two_pow_pos n)
  rw [and_two_pow_sub_one_eq_mod, and_two_pow_sub_one_eq_mod, range_succ, foldl_append, foldl_cons, foldl_nil,
    twiddleBit_of_lt (hlt x) (hlt y), foldl_twiddleBit, mod_mod, mod_mod]

theorem texTwiddle_eq {x y a b : Nat} (hx : x < 2 ^ a) (hy : y < 2 ^ b) :
    texTwiddle x y a b =
      if a < b then y / 2 ^ a * (2 ^ a * 2 ^ a) + place a x (y % 2 ^ a)
      else x / 2 ^ b * (2 ^ b * 2 ^ b) + place b (x % 2 ^ b) y := by
  have hlt : 1 <<< a < 1 <<< b ↔ a < b := by
    rw [one_shiftLeft, one_shiftLeft]
    exact Nat.pow_lt_pow_iff_right (by decide)
  -- the square of a pixel with the number 0 is the first one
  have hfirst : ∀ {z n t : Nat}, (if z / 2 ^ n * 2 ^ n ≠ 0 then t + z / 2 ^ n * 2 ^ n * 2 ^ n else t) =
      z / 2 ^ n * (2 ^ n * 2 ^ n) + t := by
    intro z n t
    split
    · ring
    · rename_i hzero
      rw [← mul_assoc, not_not.mp hzero, zero_mul, zero_add]
  simp only [texTwiddle, hlt]
  by_cases hab : a < b
  · simp only [if_pos hab, twiddle_square, one_shiftLeft, div_eq_of_lt hx, zero_mul, ne_eq,
      not_true_eq_false, if_false, mod_eq_of_lt hx]
    exact hfirst
  · simp only [if_neg hab, twiddle_square, one_shiftLeft, div_eq_of_lt hy, zero_mul, ne_eq,
      not_true_eq_false, if_false, mod_eq_of_lt hy]
    exact hfirst

theorem rectangle_texTwiddle {x y a b : Nat} (hx : x < 2 ^ a) (hy : y < 2 ^ b) :
    (rectangle a b)[texTwiddle x y a b]? = some (x, y) := by
  rw [texTwiddle_eq hx hy, rectangle]
  split
  · rename_i hab
    have hcount : y / 2 ^ a < 2 ^ (b - a) := by
      refine Nat.div_lt_of_lt_mul ?_
      rwa [← Nat.pow_add, add_sub_of_le hab.le]
    rw [QuadOrder.getElem?_squares (fun i => (0, i)) hcount hx (mod_lt y (Nat.two_pow_pos a))]
    simp [move, div_add_mod']
  · rename_i hab
    have hcount : x / 2 ^ b < 2 ^ (a - b) := by
      refine Nat.div_lt_of_lt_mul ?_
      rwa [← Nat.pow_add, add_sub_of_le (Nat.le_of_not_lt hab)]
    rw [QuadOrder.getElem?_squares (fun i => (i, 0)) hcount (mod_lt x (Nat.two_pow_pos b)) hy]
    simp [move, div_add_mod']

theorem texTwiddle_bijOn (a b : Nat) :
    Set.BijOn (fun p : Nat × Nat => texTwiddle p.1 p.2 a b) {p | p.1 < 2 ^ a ∧ p.2 < 2 ^ b}
      (Set.Iio (2 ^ a * 2 ^ b)) := by
  have hmaps : Set.MapsTo (fun p : Nat × Nat => texTwiddle p.1 p.2 a b)
      {p | p.1 < 2 ^ a ∧ p.2 < 2 ^ b} (Set.Iio (2 ^ a * 2 ^ b)) := by
    rintro p ⟨hx, hy⟩
    obtain ⟨hlt, -⟩ := List.getElem?_eq_some_iff.mp (rectangle_texTwiddle hx hy)
    rwa [QuadOrder.length_rectangle] at hlt
  have hinj : Set.InjOn (fun p : Nat × Nat => texTwiddle p.1 p.2 a b)
      {p | p.1 < 2 ^ a ∧ p.2 < 2 ^ b} := by
    rintro p ⟨hx, hy⟩ q ⟨hx', hy'⟩ heq
    have hcell := rectangle_texTwiddle hx hy
    rw [show texTwiddle p.1 p.2 a b = _ from heq, rectangle_texTwiddle hx' hy'] at hcell
    exact (Option.some.inj hcell).symm
  -- there are as many pixels as indices
  have hpixels : {p : Nat × Nat | p.1 < 2 ^ a ∧ p.2 < 2 ^ b} =
      ((Finset.range (2 ^ a) ×ˢ Finset.range (2 ^ b) : Finset (Nat × Nat)) : Set (Nat × Nat)) := by
    ext p
    simp
  have hindices : Set.Iio (2 ^ a * 2 ^ b) = (Finset.range (2 ^ a * 2 ^ b) : Set Nat) := by
    ext i
    simp
  rw [hpixels] at hmaps hinj ⊢
  rw [hindices] at hmaps ⊢
  refine ⟨hmaps, hinj, Finset.surjOn_of_injOn_of_card_le _ hmaps hinj ?_⟩
  rw [Finset.card_product, Finset.card_range, Finset.card_range, Finset.card_range]

theorem map_texTwiddle_perm (a b : Nat) :
    ((cells (2 ^ a) (2 ^ b)).map fun p => texTwiddle p.1 p.2 a b).Perm
      (range (2 ^ a * 2 ^ b)) := by
  obtain ⟨hmaps, hinj, hsurj⟩ := texTwiddle_bijOn a b
  refine (perm_ext_iff_of_nodup ?_ nodup_range).mpr ?_
  · refine (nodup_cells _ _).map_on ?_
    intro p hp q hq heq
    exact hinj (mem_cells.mp hp) (mem_cells.mp hq) heq
  · intro i
    rw [mem_map, mem_range]
    constructor
    · rintro ⟨p, hp, rfl⟩
      exact hmaps (mem_cells.mp hp)
    · intro hi
      obtain ⟨p, hp, heq⟩ := hsurj hi
      exact ⟨p, mem_cells.mpr hp, heq⟩

/-! ## Twiddled textures -/

section
variable {x y a b : Nat}

theorem pvr2TexDetwiddle_pixel (dst src : Memory) {bytesPerPix i : Nat} (hx : x < 2 ^ a)
    (hy : y < 2 ^ b) (hi : i < bytesPerPix) :
    pvr2TexDetwiddle dst src a b bytesPerPix ((y * 2 ^ a + x) * bytesPerPix + i) =
      src (texTwiddle x y a b * bytesPerPix + i) := by
  rw [pvr2TexDetwiddle, one_shiftLeft, one_shiftLeft]
  refine @look_scan _ _ _ _
    (fun mem : Memory => mem ((y * 2 ^ a + x) * bytesPerPix + i)) _ _ (· = (x, y)) ?_ ?_ dst
    ⟨(x, y), mem_cells.mpr ⟨hx, hy⟩, rfl⟩
  · rintro mem p - rfl
    exact (ByteMemory.copy_block _ _ _ hi).trans (if_pos rfl)
  · intro mem p hp hne
    refine (ByteMemory.copy_block _ _ _ hi).trans (if_neg ?_)
    intro heq
    exact hne ((index_inj hx (mem_cells.mp hp).1).mp heq).symm

theorem pvr2TexDetwiddle_outside (dst src : Memory) {bytesPerPix z : Nat}
    (hz : 2 ^ a * 2 ^ b * bytesPerPix ≤ z) :
    pvr2TexDetwiddle dst src a b bytesPerPix z = dst z := by
  rw [pvr2TexDetwiddle, one_shiftLeft, one_shiftLeft]
  refine @look_scan_of_forall _ _ _ _ (fun mem : Memory => mem z) _ ?_ dst
  intro mem p hp
  obtain ⟨hcol, hrow⟩ := mem_cells.mp hp
  have hlast : (p.2 * 2 ^ a + p.1) * bytesPerPix + bytesPerPix ≤ z :=
    calc (p.2 * 2 ^ a + p.1) * bytesPerPix + bytesPerPix
      _ = (p.2 * 2 ^ a + p.1 + 1) * bytesPerPix := (succ_mul _ _).symm
      _ ≤ 2 ^ a * 2 ^ b * bytesPerPix := Nat.mul_le_mul_right _ (index_lt hcol hrow)
      _ ≤ z := hz
  exact if_neg (by omega)

theorem byte_ext {d e : UInt8}
    (same : ∀ i < 8, d.toBitVec.getLsbD i = e.toBitVec.getLsbD i) : d = e :=
  UInt8.toBitVec_inj.mp (BitVec.eq_of_getLsbD_eq fun i hi => same i hi)

variable {px : UInt8}

theorem byte_setLow (d : UInt8) (hpx : px &&& 0xf = px) :
    (d &&& ~~~(0xf : UInt8) ||| px) &&& 0xf = px ∧
      (d &&& ~~~(0xf : UInt8) ||| px) >>> 4 = d >>> 4 := by
  rw [← hpx]
  constructor
  all_goals
    refine byte_ext fun i hi => ?_
    interval_cases i <;> simp

theorem byte_setHigh (d : UInt8) (hpx : px &&& 0xf = px) :
    (d &&& ~~~(0xf0 : UInt8) ||| px <<< 4) &&& 0xf = d &&& 0xf ∧
      (d &&& ~~~(0xf0 : UInt8) ||| px <<< 4) >>> 4 = px := by
  rw [← hpx]
  constructor
  all_goals
    refine byte_ext fun i hi => ?_
    interval_cases i <;> simp

theorem nibble_and (src : Memory) (idx : Nat) : nibble src idx &&& 0xf = nibble src idx := by
  rw [nibble]
  split
  · rw [UInt8.and_assoc]
    rfl
  · refine byte_ext fun i hi => ?_
    interval_cases i <;> simp

theorem nibble_setNibble_same (dst : Memory) (idx : Nat) (hpx : px &&& 0xf = px) :
    nibble (setNibble dst idx px) idx = px := by
  rw [nibble, setNibble, Function.update_self]
  split
  · exact (byte_setLow _ hpx).1
  · exact (byte_setHigh _ hpx).2

theorem nibble_setNibble_other (dst : Memory) {idx idx' : Nat} (hpx : px &&& 0xf = px)
    (ne : idx' ≠ idx) : nibble (setNibble dst idx px) idx' = nibble dst idx' := by
  by_cases hbyte : idx' / 2 = idx / 2
  · rw [nibble, nibble, setNibble, hbyte, Function.update_self]
    by_cases heven : idx % 2 = 0
    · rw [if_pos heven, if_neg (by omega), if_neg (by omega)]
      exact (byte_setLow _ hpx).2
    · rw [if_neg heven, if_pos (by omega), if_pos (by omega)]
      exact (byte_setHigh _ hpx).1
  · exact nibble_congr (Function.update_of_ne hbyte _ _)

theorem pvr2TexDetwiddle4Bpp_pixel (dst src : Memory) (hx : x < 2 ^ a) (hy : y < 2 ^ b) :
    nibble (pvr2TexDetwiddle4Bpp dst src a b) (y * 2 ^ a + x) = nibble src (texTwiddle x y a b) := by
  rw [pvr2TexDetwiddle4Bpp, one_shiftLeft, one_shiftLeft]
  refine @look_scan _ _ _ _ (nibble · (y * 2 ^ a + x)) _ _ (· = (x, y)) ?_ ?_ dst
    ⟨(x, y), mem_cells.mpr ⟨hx, hy⟩, rfl⟩
  · rintro mem p - rfl
    exact nibble_setNibble_same _ _ (nibble_and _ _)
  · intro mem p hp hne
    refine nibble_setNibble_other _ (nibble_and _ _) ?_
    intro heq
    exact hne ((index_inj hx (mem_cells.mp hp).1).mp heq).symm

end

/-- The index of a pixel is a bijection and gives its place in the recursive order of quadrants, and
the loops that undo the order move each pixel from its index to its place. -/
theorem texTwiddle_recursive (a b : Nat) :
    Set.BijOn (fun p : Nat × Nat => texTwiddle p.1 p.2 a b) {p | p.1 < 2 ^ a ∧ p.2 < 2 ^ b}
        (Set.Iio (2 ^ a * 2 ^ b)) ∧
      ((cells (2 ^ a) (2 ^ b)).map fun p => texTwiddle p.1 p.2 a b).Perm
        (range (2 ^ a * 2 ^ b)) ∧
      ∀ x < 2 ^ a, ∀ y < 2 ^ b, (rectangle a b)[texTwiddle x y a b]? = some (x, y) ∧
        ∀ dst src : Memory,
          (∀ bytesPerPix, ∀ i < bytesPerPix,
            pvr2TexDetwiddle dst src a b bytesPerPix ((y * 2 ^ a + x) * bytesPerPix + i) =
              src (texTwiddle x y a b * bytesPerPix + i)) ∧
          nibble (pvr2TexDetwiddle4Bpp dst src a b) (y * 2 ^ a + x) =
            nibble src (texTwiddle x y a b) := by
  refine ⟨texTwiddle_bijOn a b, map_texTwiddle_perm a b, ?_⟩
  intro x hx y hy
  refine ⟨rectangle_texTwiddle hx hy, ?_⟩
  intro dst src
  constructor
  · intro bytesPerPix i hi
    exact pvr2TexDetwiddle_pixel dst src hx hy hi
  · exact pvr2TexDetwiddle4Bpp_pixel dst src hx hy

/-! ## Code books -/

/-- The pixels that the indices stand for, in the order of the indices. -/
def expand (codeBook src : Memory) : Memory := fun i => codeBook (8 * (src (i / 8)).toNat + i % 8)

section
variable {x y n : Nat}

theorem texTwiddle_double {i j : Nat} (hi : i < 2) (hj : j < 2) (hx : x < 2 ^ n) (hy : y < 2 ^ n) :
    texTwiddle (2 * x + i) (2 * y + j) (n + 1) (n + 1) = 4 * texTwiddle x y n n + (2 * i + j) := by
  have hdouble : ∀ {z k : Nat}, z < 2 ^ n → k < 2 → 2 * z + k < 2 ^ (n + 1) := by
    intro z k hz hk
    rw [pow_succ]
    omega
  have hsquare : ∀ {z w m : Nat}, z < 2 ^ m → w < 2 ^ m → texTwiddle z w m m = place m z w := by
    intro z w m hz hw
    rw [texTwiddle_eq hz hw, if_neg (lt_irrefl m), div_eq_of_lt hz, zero_mul, zero_add,
      mod_eq_of_lt hz]
  rw [hsquare (hdouble hx hi) (hdouble hy hj), hsquare hx hy, QuadOrder.place_double hi hj hx hy]

theorem copyColor_pixel (dst codeBook : Memory) (idx : UInt8) (j p q : Nat) {k : Nat} (hk : k < 2) :
    copyColor dst p codeBook idx j (q * 2 + k) =
      if q = p then codeBook (8 * idx.toNat + 2 * j + k) else dst (q * 2 + k) := by
  rw [copyColor, mul_comm 2 p]
  exact ByteMemory.copy_block _ _ _ hk

theorem pvr2TexVqDecompress_pixel (dst codeBook src : Memory) {i j k : Nat} (hx : x < 2 ^ n)
    (hy : y < 2 ^ n) (hi : i < 2) (hj : j < 2) (hk : k < 2) :
    pvr2TexVqDecompress dst codeBook src (n + 1)
        (((2 * y + j) * 2 ^ (n + 1) + (2 * x + i)) * 2 + k) =
      codeBook (8 * (src (texTwiddle x y n n)).toNat + 2 * (2 * i + j) + k) := by
  have hdouble : ∀ {z l : Nat}, z < 2 ^ n → l < 2 → 2 * z + l < 2 ^ (n + 1) := by
    intro z l hz hl
    rw [pow_succ]
    omega
  -- the four pixels of a block
  have hpix : ∀ {col row a b : Nat}, col < 2 ^ n → a < 2 → b < 2 →
      ((2 * y + j) * 2 ^ (n + 1) + (2 * x + i) = (row * 2 + b) * 2 ^ (n + 1) + (col * 2 + a) ↔
        (i = a ∧ j = b) ∧ (x, y) = (col, row)) := by
    intro col row a b hcol ha hb
    rw [mul_comm row, mul_comm col]
    refine (index_inj (hdouble hx hi) (hdouble hcol ha)).trans ?_
    rw [Prod.mk.injEq, Prod.mk.injEq]
    omega
  rw [pvr2TexVqDecompress, Nat.add_sub_cancel, one_shiftLeft, one_shiftLeft]
  refine @look_scan _ _ _ _
    (fun mem : Memory => mem (((2 * y + j) * 2 ^ (n + 1) + (2 * x + i)) * 2 + k)) _ _
    ((x, y) = ·) ?_ ?_ dst ⟨(x, y), mem_cells.mpr ⟨hx, hy⟩, rfl⟩
  all_goals
    intro mem p hp hown
    have hcol := (mem_cells.mp hp).1
    have h00 := @hpix p.1 p.2 0 0 hcol (by decide) (by decide)
    have h01 := @hpix p.1 p.2 0 1 hcol (by decide) (by decide)
    have h10 := @hpix p.1 p.2 1 0 hcol (by decide) (by decide)
    have h11 := @hpix p.1 p.2 1 1 hcol (by decide) (by decide)
    simp only [add_zero, ← add_assoc] at h00 h01 h10 h11
    simp only [copyColor_pixel _ _ _ _ _ _ hk, ← add_assoc, h00, h01, h10, h11]
  · subst hown
    obtain rfl | rfl : i = 0 ∨ i = 1 := by omega
    · obtain rfl | rfl : j = 0 ∨ j = 1 := by omega
      · simp
      · simp
    · obtain rfl | rfl : j = 0 ∨ j = 1 := by omega
      · simp
      · simp
  · simp [hown]

theorem copyColor_outside (dst codeBook : Memory) (idx : UInt8) (j : Nat) {p z : Nat}
    (hz : 2 * (p + 1) ≤ z) : copyColor dst p codeBook idx j z = dst z :=
  if_neg (by omega)

theorem pvr2TexVqDecompress_outside (dst codeBook src : Memory) {z : Nat}
    (hz : 2 * (2 ^ (n + 1) * 2 ^ (n + 1)) ≤ z) :
    pvr2TexVqDecompress dst codeBook src (n + 1) z = dst z := by
  rw [pvr2TexVqDecompress, Nat.add_sub_cancel, one_shiftLeft, one_shiftLeft]
  refine @look_scan_of_forall _ _ _ _ (fun mem : Memory => mem z) _ ?_ dst
  intro mem p hp
  obtain ⟨hcol, hrow⟩ := mem_cells.mp hp
  have hlast : ∀ {a b : Nat}, a < 2 → b < 2 →
      2 * ((p.2 * 2 + b) * 2 ^ (n + 1) + (p.1 * 2 + a) + 1) ≤ z := by
    intro a b ha hb
    refine le_trans (Nat.mul_le_mul_left 2 (succ_le_of_lt ?_)) hz
    exact index_lt (by rw [pow_succ]; omega) (by rw [pow_succ]; omega)
  have h00 := @hlast 0 0 (by decide) (by decide)
  have h01 := @hlast 0 1 (by decide) (by decide)
  have h10 := @hlast 1 0 (by decide) (by decide)
  have h11 := @hlast 1 1 (by decide) (by decide)
  simp only [add_zero, ← add_assoc] at h00 h01 h10 h11
  rw [copyColor_outside _ _ _ _ h11, copyColor_outside _ _ _ _ h10, copyColor_outside _ _ _ _ h01,
    copyColor_outside _ _ _ _ h00]

end

/-- A texture with a code book is the twiddled texture that has the pixels of the code book in the
order of the indices. An index stands for two rows, so that the smallest side is 2. -/
theorem pvr2TexVqDecompress_eq_detwiddle (dst codeBook src : Memory) (n : Nat) :
    pvr2TexVqDecompress dst codeBook src (n + 1) =
      pvr2TexDetwiddle dst (expand codeBook src) (n + 1) (n + 1) 2 := by
  funext z
  by_cases hz : 2 * (2 ^ (n + 1) * 2 ^ (n + 1)) ≤ z
  · rw [pvr2TexVqDecompress_outside _ _ _ hz, pvr2TexDetwiddle_outside _ _ (by rwa [mul_comm])]
  · -- the byte belongs to a pixel, and the pixel to a block
    obtain ⟨x, y, hx, hy, hpix⟩ : ∃ x y, x < 2 ^ (n + 1) ∧ y < 2 ^ (n + 1) ∧
        z / 2 = y * 2 ^ (n + 1) + x := by
      refine ⟨z / 2 % 2 ^ (n + 1), z / 2 / 2 ^ (n + 1), mod_lt _ (Nat.two_pow_pos _), ?_,
        (div_add_mod' _ _).symm⟩
      exact Nat.div_lt_of_lt_mul (by omega)
    have hi := mod_lt x (by decide : 0 < 2)
    have hj := mod_lt y (by decide : 0 < 2)
    have hk := mod_lt z (by decide : 0 < 2)
    have hx' : x / 2 < 2 ^ n := by omega
    have hy' : y / 2 < 2 ^ n := by omega
    have hbyte : z = (y * 2 ^ (n + 1) + x) * 2 + z % 2 := by omega
    have hblock : z = ((2 * (y / 2) + y % 2) * 2 ^ (n + 1) + (2 * (x / 2) + x % 2)) * 2 + z % 2 := by
      rwa [div_add_mod, div_add_mod]
    have htwiddle := texTwiddle_double hi hj hx' hy'
    rw [div_add_mod, div_add_mod] at htwiddle
    calc pvr2TexVqDecompress dst codeBook src (n + 1) z
      _ = codeBook (8 * (src (texTwiddle (x / 2) (y / 2) n n)).toNat +
            2 * (2 * (x % 2) + y % 2) + z % 2) := by
        conv_lhs => rw [hblock]
        exact pvr2TexVqDecompress_pixel dst codeBook src hx' hy' hi hj hk
      _ = expand codeBook src (texTwiddle x y (n + 1) (n + 1) * 2 + z % 2) := by
        rw [expand, htwiddle]
        congr 1
        have hindex : ((4 * texTwiddle (x / 2) (y / 2) n n + (2 * (x % 2) + y % 2)) * 2 + z % 2) / 8 =
            texTwiddle (x / 2) (y / 2) n n := by omega
        rw [hindex]
        omega
      _ = pvr2TexDetwiddle dst (expand codeBook src) (n + 1) (n + 1) 2 z := by
        conv_rhs => rw [hbyte]
        exact (pvr2TexDetwiddle_pixel dst _ hx hy hk).symm

end Pvr2
