import Mathlib.Data.List.Basic
import Mathlib.Data.Nat.Bitwise
import Mathlib.Tactic.Ring

/-!
# The recursive order of the cells of a rectangle

A square whose side is a power of two is visited quadrant by quadrant: the upper left one, the lower
left one, the upper right one and the lower right one, each of them in the same order. A rectangle is
cut into squares along its longer side. The place of a cell in this order is computed from the bits
of its column and its row.
-/
namespace QuadOrder

open List Nat Option

theorem getElem?_flatMap_block {α β : Type} {f : α → List β} {len : Nat} (as : List α)
    (hlen : ∀ a, (f a).length = len) {i j : Nat} (hj : j < len) :
    (as.flatMap f)[i * len + j]? = as[i]?.bind fun a => (f a)[j]? := by
  induction as generalizing i with
  | nil => simp
  | cons a as ih =>
    rw [flatMap_cons]
    cases i with
    | zero =>
      rw [zero_mul, zero_add, getElem?_append_left (by rw [hlen]; exact hj)]
      rfl
    | succ i =>
      have hidx : (i + 1) * len + j - len = i * len + j := by
        rw [succ_mul]
        omega
      rw [getElem?_append_right (by rw [hlen, succ_mul]; omega), hlen, hidx, ih]
      rfl

theorem length_flatMap_block {α β : Type} {f : α → List β} {len : Nat} (as : List α)
    (hlen : ∀ a, (f a).length = len) : (as.flatMap f).length = as.length * len := by
  induction as with
  | nil => simp
  | cons a as ih => rw [flatMap_cons, length_append, hlen, ih, length_cons, succ_mul,
      add_comm]

/-! ## Squares -/

/-- The quadrants, by column and row, in the order of their visits. -/
def quadrants : List (Nat × Nat) := [(0, 0), (0, 1), (1, 0), (1, 1)]

def move (side : Nat) (q cell : Nat × Nat) : Nat × Nat := (q.1 * side + cell.1, q.2 * side + cell.2)

/-- The cells of a square of side `2 ^ n` in their order. -/
def square : Nat → List (Nat × Nat)
  | 0 => [(0, 0)]
  | n + 1 => quadrants.flatMap fun q => (square n).map (move (2 ^ n) q)

def place : Nat → Nat → Nat → Nat
  | 0, _, _ => 0
  | n + 1, x, y => (x / 2 ^ n * 2 + y / 2 ^ n) * (2 ^ n * 2 ^ n) + place n (x % 2 ^ n) (y % 2 ^ n)

theorem length_square (n : Nat) : (square n).length = 2 ^ n * 2 ^ n := by
  induction n with
  | zero => rfl
  | succ n ih =>
    rw [square, length_flatMap_block quadrants fun q => by rw [length_map, ih]]
    show 4 * (2 ^ n * 2 ^ n) = _
    ring

theorem div_pow_lt_two {n x : Nat} (hx : x < 2 ^ (n + 1)) : x / 2 ^ n < 2 :=
  Nat.div_lt_of_lt_mul (by rwa [← pow_succ])

theorem place_lt {n x y : Nat} (hx : x < 2 ^ n) (hy : y < 2 ^ n) : place n x y < 2 ^ n * 2 ^ n := by
  induction n generalizing x y with
  | zero => exact zero_lt_one
  | succ n ih =>
    have hpos := Nat.two_pow_pos n
    have hrest := ih (mod_lt x hpos) (mod_lt y hpos)
    have hx' := div_pow_lt_two hx
    have hy' := div_pow_lt_two hy
    calc place (n + 1) x y
      _ < (x / 2 ^ n * 2 + y / 2 ^ n) * (2 ^ n * 2 ^ n) + 2 ^ n * 2 ^ n :=
        Nat.add_lt_add_left hrest _
      _ = (x / 2 ^ n * 2 + y / 2 ^ n + 1) * (2 ^ n * 2 ^ n) := by ring
      _ ≤ 4 * (2 ^ n * 2 ^ n) := Nat.mul_le_mul_right _ (by omega)
      _ = 2 ^ (n + 1) * 2 ^ (n + 1) := by ring

theorem quadrants_getElem? {i j : Nat} (hi : i < 2) (hj : j < 2) :
    quadrants[i * 2 + j]? = some (i, j) := by
  obtain rfl | rfl : i = 0 ∨ i = 1 := by omega
  all_goals obtain rfl | rfl : j = 0 ∨ j = 1 := by omega
  all_goals rfl

theorem square_place {n x y : Nat} (hx : x < 2 ^ n) (hy : y < 2 ^ n) :
    (square n)[place n x y]? = some (x, y) := by
  induction n generalizing x y with
  | zero =>
    obtain rfl : x = 0 := by simpa using hx
    obtain rfl : y = 0 := by simpa using hy
    rfl
  | succ n ih =>
    have hpos := Nat.two_pow_pos n
    have hx' := mod_lt x hpos
    have hy' := mod_lt y hpos
    rw [square, place, getElem?_flatMap_block quadrants
      (fun q => by rw [length_map, length_square]) (place_lt hx' hy'),
      quadrants_getElem? (div_pow_lt_two hx) (div_pow_lt_two hy)]
    simp only [bind_some, getElem?_map, ih hx' hy', map_some, move,
      div_add_mod']

theorem place_double {n x y i j : Nat} (hi : i < 2) (hj : j < 2) (hx : x < 2 ^ n) (hy : y < 2 ^ n) :
    place (n + 1) (2 * x + i) (2 * y + j) = 4 * place n x y + (2 * i + j) := by
  induction n generalizing x y with
  | zero =>
    obtain rfl : x = 0 := by simpa using hx
    obtain rfl : y = 0 := by simpa using hy
    simp [place]
    omega
  | succ n ih =>
    have hpos := Nat.two_pow_pos n
    have hhalf : ∀ {a b : Nat}, b < 2 → (2 * a + b) / 2 ^ (n + 1) = a / 2 ^ n ∧
        (2 * a + b) % 2 ^ (n + 1) = 2 * (a % 2 ^ n) + b := by
      intro a b hb
      have hdiv := div_add_mod a (2 ^ n)
      have hsum : 2 * a + b = 2 ^ (n + 1) * (a / 2 ^ n) + (2 * (a % 2 ^ n) + b) := by
        rw [pow_succ]
        conv_lhs => rw [← hdiv]
        ring
      have hlt : 2 * (a % 2 ^ n) + b < 2 ^ (n + 1) := by
        rw [pow_succ]
        omega
      constructor
      · rw [hsum, mul_add_div (Nat.two_pow_pos _), div_eq_of_lt hlt, add_zero]
      · rw [hsum, mul_add_mod, mod_eq_of_lt hlt]
    rw [place, (hhalf hi).1, (hhalf hi).2, (hhalf hj).1, (hhalf hj).2,
      ih (mod_lt x hpos) (mod_lt y hpos), place]
    ring

/-! ## Rectangles -/

/-- The cells of a rectangle with the sides `2 ^ a` and `2 ^ b`: squares from top to bottom or from
left to right. -/
def rectangle (a b : Nat) : List (Nat × Nat) :=
  if a < b then (range (2 ^ (b - a))).flatMap fun i => (square a).map (move (2 ^ a) (0, i))
  else (range (2 ^ (a - b))).flatMap fun i => (square b).map (move (2 ^ b) (i, 0))

theorem length_rectangle (a b : Nat) : (rectangle a b).length = 2 ^ a * 2 ^ b := by
  have hlen : ∀ {n : Nat} (f : Nat → Nat × Nat) (i : Nat),
      ((square n).map (move (2 ^ n) (f i))).length = 2 ^ n * 2 ^ n := by
    intro n f i
    rw [length_map, length_square]
  rw [rectangle]
  split
  · rename_i hlt
    rw [length_flatMap_block _ (hlen fun i => (0, i)), length_range, ← mul_assoc,
      ← Nat.pow_add, Nat.sub_add_cancel hlt.le, mul_comm]
  · rename_i hge
    rw [length_flatMap_block _ (hlen fun i => (i, 0)), length_range, ← mul_assoc,
      ← Nat.pow_add, Nat.sub_add_cancel (Nat.le_of_not_lt hge)]

theorem getElem?_squares {n k i x y : Nat} (f : Nat → Nat × Nat) (hi : i < k) (hx : x < 2 ^ n)
    (hy : y < 2 ^ n) :
    ((range k).flatMap fun i => (square n).map (move (2 ^ n) (f i)))[
      i * (2 ^ n * 2 ^ n) + place n x y]? = some (move (2 ^ n) (f i) (x, y)) := by
  rw [getElem?_flatMap_block _ (fun i => by rw [length_map, length_square]) (place_lt hx hy),
    getElem?_range hi, bind_some, getElem?_map, square_place hx hy, map_some]

end QuadOrder
