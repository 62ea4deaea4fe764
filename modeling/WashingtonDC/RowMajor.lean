import Mathlib.Data.Nat.ModEq
import Mathlib.Data.List.Nodup
import Mathlib.Tactic.Ring

/-!
# Grids that are scanned row by row

The cell that is reached after a number of steps through a grid, from the first cell on, row by row
and from the last cell back to the first. A scan can be resumed from any cell. A loop over the rows
and the columns of a grid depends on what it does with the cells of the grid only.
-/
namespace RowMajor

open Nat List

variable (width height : Nat)

/-- The column and the row after `steps` steps from the first cell. -/
def cell (steps : Nat) : Nat × Nat := (steps % width, steps / width % height)

def index (column row : Nat) : Nat := row * width + column

variable {width height}

theorem cell_eq_of_modEq {m n : Nat} (same : m ≡ n [MOD width * height]) :
    cell width height m = cell width height n := by
  have hcell : ∀ k, cell width height k =
      (k % (width * height) % width, k % (width * height) / width) := by
    intro k
    rw [cell, mod_mul_right_mod, mod_mul_right_div_self]
  rw [hcell m, hcell n, same]

theorem index_cell (n : Nat) :
    index width (cell width height n).1 (cell width height n).2 = n % (width * height) := by
  rw [index, cell, mod_mul]
  ring

theorem cell_resume (n k : Nat) :
    cell width height (index width (cell width height n).1 (cell width height n).2 + k) =
      cell width height (n + k) := by
  rw [index_cell]
  exact cell_eq_of_modEq ((mod_modEq n _).add_right k)

theorem cell_carry (column row k : Nat) (hwidth : 0 < width) :
    cell width height (index width column row + k) =
      ((column + k) % width, (row + (column + k) / width) % height) := by
  have hsum : index width column row + k = width * row + (column + k) := by
    rw [index, mul_comm]
    omega
  rw [hsum, cell, mul_add_mod, mul_add_div hwidth]

variable {column row : Nat} {σ : Type u} {visit : σ → Nat → Nat → σ}

theorem cell_index (hcolumn : column < width) (hrow : row < height) :
    cell width height (index width column row) = (column, row) := by
  have hcarry : cell width height (index width column row + 0) = _ :=
    cell_carry column row 0 (zero_lt_of_lt hcolumn)
  rwa [add_zero, add_zero, mod_eq_of_lt hcolumn, div_eq_of_lt hcolumn,
    add_zero, mod_eq_of_lt hrow] at hcarry

theorem index_inj {column' row' : Nat} (hcolumn : column < width) (hcolumn' : column' < width) :
    index width column row = index width column' row' ↔ (column, row) = (column', row') := by
  constructor
  · intro heq
    have hsplit : ∀ {c : Nat} (r : Nat), c < width →
        (index width c r % width, index width c r / width) = (c, r) := by
      intro c r hc
      rw [index, mul_comm, mul_add_mod, mul_add_div (zero_lt_of_lt hc),
        mod_eq_of_lt hc, div_eq_of_lt hc, add_zero]
    rw [← hsplit row hcolumn, heq, hsplit row' hcolumn']
  · intro heq
    rw [(Prod.mk.inj heq).1, (Prod.mk.inj heq).2]

theorem index_lt (hcolumn : column < width) (hrow : row < height) :
    index width column row < width * height :=
  calc index width column row
    _ < row * width + width := Nat.add_lt_add_left hcolumn _
    _ = (row + 1) * width := (succ_mul row width).symm
    _ ≤ height * width := Nat.mul_le_mul_right width hrow
    _ = width * height := mul_comm _ _

theorem cell_rows {rows : Nat} (le : column ≤ rows * width) (hwidth : 0 < width) :
    cell width height (index width column row + (rows * width - column)) =
      (0, (row + rows) % height) := by
  have hsum : index width column row + (rows * width - column) = width * (row + rows) := by
    rw [index, mul_add, mul_comm width row, mul_comm width rows]
    omega
  rw [hsum, cell, mul_mod_right, Nat.mul_div_cancel_left _ hwidth]

/-! ## Loops over a grid -/

universe u w z

/-- A loop over the rows of a grid and, inside it, over the columns. -/
def scan {σ : Type u} (width height : Nat) (visit : σ → Nat → Nat → σ) (start : σ) : σ :=
  (range height).foldl
    (fun s row => (range width).foldl (fun s column => visit s column row) s) start

theorem scan_congr {visit' : σ → Nat → Nat → σ}
    (same : ∀ s, ∀ column < width, ∀ row < height, visit s column row = visit' s column row)
    (start : σ) : scan width height visit start = scan width height visit' start := by
  apply foldl_ext
  intro s row hrow
  apply foldl_ext
  intro s column hcolumn
  exact same s column (mem_range.mp hcolumn) row (mem_range.mp hrow)

theorem foldlM_eq_foldl {α : Type z} {step : σ → α → Option σ} {turn : σ → α → σ} {as : List α}
    (each : ∀ s, ∀ a ∈ as, step s a = some (turn s a)) (start : σ) :
    as.foldlM step start = some (as.foldl turn start) := by
  induction as generalizing start with
  | nil => rfl
  | cons a as ih =>
    rw [foldlM_cons, each start a mem_cons_self, foldl_cons]
    exact ih (fun s b hb => each s b (.tail _ hb)) _

theorem foldlM_foldlM_eq_scan {visitM : Nat → σ → Nat → Option σ}
    (each : ∀ s, ∀ column < width, ∀ row < height, visitM row s column = some (visit s column row))
    (start : σ) :
    (range height).foldlM (fun s row => (range width).foldlM (visitM row) s) start =
      some (scan width height visit start) := by
  refine foldlM_eq_foldl ?_ start
  intro s row hrow
  refine foldlM_eq_foldl ?_ s
  intro s column hcolumn
  exact each s column (mem_range.mp hcolumn) row (mem_range.mp hrow)

def cells (width height : Nat) : List (Nat × Nat) :=
  (range height).flatMap fun row => (range width).map fun column => (column, row)

theorem mem_cells {p : Nat × Nat} : p ∈ cells width height ↔ p.1 < width ∧ p.2 < height := by
  obtain ⟨column, row⟩ := p
  simp [cells, and_comm]

theorem nodup_cells (width height : Nat) : (cells width height).Nodup := by
  refine nodup_flatMap.mpr ⟨?_, ?_⟩
  · intro row _
    exact nodup_range.map fun c c' heq => (Prod.mk.inj heq).1
  · refine nodup_range.pairwise_of_forall_ne ?_
    intro row _ row' _ hne p hp hp'
    obtain ⟨c, -, rfl⟩ := mem_map.mp hp
    obtain ⟨c', -, heq⟩ := mem_map.mp hp'
    exact hne (Prod.mk.inj heq).2.symm

section
variable {σ : Type u} {β : Type w} {look : σ → β} {v : β}

theorem look_foldl {α : Type z} {turn : σ → α → σ} {own : α → Prop} {as : List α}
    (here : ∀ s, ∀ a ∈ as, own a → look (turn s a) = v)
    (there : ∀ s, ∀ a ∈ as, ¬own a → look (turn s a) = look s) {start : σ}
    (h : look start = v ∨ ∃ a ∈ as, own a) : look (as.foldl turn start) = v := by
  induction as generalizing start with
  | nil =>
    rcases h with hstart | ⟨a, ha, -⟩
    · exact hstart
    · cases ha
  | cons a as ih =>
    rw [foldl_cons]
    refine ih (fun s b hb => here s b (.tail _ hb)) (fun s b hb => there s b (.tail _ hb)) ?_
    by_cases ha : own a
    · exact .inl (here start a mem_cons_self ha)
    · rcases h with hstart | ⟨b, hb, hown⟩
      · exact .inl ((there start a mem_cons_self ha).trans hstart)
      · rcases mem_cons.mp hb with rfl | hb
        · exact absurd hown ha
        · exact .inr ⟨b, hb, hown⟩

theorem look_foldl_of_forall {α : Type z} {turn : σ → α → σ} {as : List α}
    (there : ∀ s, ∀ a ∈ as, look (turn s a) = look s) (start : σ) :
    look (as.foldl turn start) = look start :=
  @look_foldl _ _ look _ _ _ (fun _ => False) _ (fun _ _ _ h => h.elim)
    (fun s a ha _ => there s a ha) _ (.inl rfl)

variable {visit : σ → Nat → Nat → σ} {own : Nat × Nat → Prop}

theorem scan_eq_foldl (visit : σ → Nat → Nat → σ) (start : σ) :
    scan width height visit start =
      (cells width height).foldl (fun s p => visit s p.1 p.2) start := by
  simp only [scan, cells, foldl_flatMap, foldl_map]

theorem look_scan (here : ∀ s, ∀ p ∈ cells width height, own p → look (visit s p.1 p.2) = v)
    (there : ∀ s, ∀ p ∈ cells width height, ¬own p → look (visit s p.1 p.2) = look s) (start : σ)
    (h : ∃ p ∈ cells width height, own p) : look (scan width height visit start) = v := by
  rw [scan_eq_foldl]
  exact look_foldl here there (.inr h)

theorem look_scan_of_forall
    (there : ∀ s, ∀ p ∈ cells width height, look (visit s p.1 p.2) = look s) (start : σ) :
    look (scan width height visit start) = look start := by
  rw [scan_eq_foldl]
  exact look_foldl_of_forall there start

end

end RowMajor
