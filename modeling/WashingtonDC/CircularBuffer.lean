import Mathlib.Data.Fin.Basic
import Mathlib.Data.Nat.ModEq

/-!
# Circular buffers

A buffer of `n` slots holds a list from its head on, around the end of the buffer, up to its tail.
One slot is always free: head and tail are the same slot exactly when the list is empty. An element
is added in two steps, first to the free slot at the tail and then to the list.
-/
namespace CircularBuffer

open Nat List

variable {α : Type} {n : Nat}

def next (i : Fin n) : Fin n := ⟨(i.val + 1) % n, mod_lt _ i.pos⟩

@[simp] theorem val_next (i : Fin n) : (next i).val = (i.val + 1) % n := rfl

theorem val_eq_mod (i : Fin n) : i.val = (i.val + 0) % n := (mod_eq_of_lt i.isLt).symm

/-- The slots from the head to the tail hold the list, and there is a free slot. -/
structure Holds (buf : Fin n → α) (head tail : Fin n) (xs : List α) : Prop where
  free : xs.length < n
  tail_eq : tail.val = (head.val + xs.length) % n
  get : ∀ {i : Nat} {x : α} {slot : Fin n},
    xs[i]? = some x → slot.val = (head.val + i) % n → buf slot = x

theorem mod_add_ne_of_lt {a i j : Nat} (hij : i < j) (hj : j < n) : (a + i) % n ≠ (a + j) % n := by
  intro h
  have hmod : i % n = j % n := Nat.ModEq.add_left_cancel' a h
  rw [mod_eq_of_lt hj, mod_eq_of_lt (hij.trans hj)] at hmod
  exact absurd hmod (Nat.ne_of_lt hij)

namespace Holds

variable {buf : Fin n → α} {head tail : Fin n} {xs : List α} {x : α}

theorem empty (buf : Fin n → α) (i : Fin n) : Holds buf i i [] where
  free := i.pos
  tail_eq := (mod_eq_of_lt i.isLt).symm
  get := by
    intro j x slot hx
    simp at hx

section
variable (holds : Holds buf head tail xs)
include holds

theorem eq_iff_nil : tail = head ↔ xs = [] := by
  constructor
  · intro heq
    by_contra hxs
    have hpos : 0 < xs.length := length_pos_iff.mpr hxs
    apply mod_add_ne_of_lt (a := head.val) hpos holds.free
    rw [← holds.tail_eq, ← val_eq_mod, heq]
  · rintro rfl
    apply Fin.ext
    rw [holds.tail_eq, length_nil, ← val_eq_mod]

theorem length_eq {xs' : List α} (holds' : Holds buf head tail xs') : xs.length = xs'.length := by
  have hmod : xs.length % n = xs'.length % n := by
    apply Nat.ModEq.add_left_cancel' head.val
    rw [ModEq, ← holds.tail_eq, ← holds'.tail_eq]
  rwa [mod_eq_of_lt holds.free, mod_eq_of_lt holds'.free] at hmod

theorem next_tail : (next tail).val = (head.val + (xs.length + 1)) % n := by
  rw [val_next, holds.tail_eq, mod_add_mod, add_assoc]

theorem next_eq_iff_full : next tail = head ↔ xs.length + 1 = n := by
  constructor
  · intro heq
    by_contra hlen
    have hlt : xs.length + 1 < n := Nat.lt_of_le_of_ne holds.free hlen
    apply mod_add_ne_of_lt (a := head.val) xs.length.succ_pos hlt
    rw [← holds.next_tail, ← val_eq_mod, heq]
  · intro hlen
    apply Fin.ext
    rw [holds.next_tail, hlen, add_mod_right, mod_eq_of_lt head.isLt]

theorem store (x : α) :
    Holds (Function.update buf tail x) head tail xs where
  free := holds.free
  tail_eq := holds.tail_eq
  get := by
    intro i y slot hy hslot
    have hi : i < xs.length := (List.getElem?_eq_some_iff.mp hy).1
    have hne : slot ≠ tail := by
      intro heq
      apply mod_add_ne_of_lt (a := head.val) hi holds.free
      rw [← hslot, ← holds.tail_eq, heq]
    rw [Function.update_of_ne hne]
    exact holds.get hy hslot

theorem push (stored : buf tail = x) (room : xs.length + 1 < n) :
    Holds buf head (next tail) (xs ++ [x]) where
  free := by
    rw [length_append, length_singleton]
    exact room
  tail_eq := by
    rw [length_append, length_singleton]
    exact holds.next_tail
  get := by
    intro i y slot hy hslot
    obtain hi | hi := lt_or_ge i xs.length
    · rw [getElem?_append_left hi] at hy
      exact holds.get hy hslot
    · rw [getElem?_append_right hi] at hy
      have hlast : i - xs.length = 0 := by
        by_contra hne
        rw [getElem?_eq_none (by simp; omega)] at hy
        cases hy
      have htail : slot = tail := by
        apply Fin.ext
        rw [hslot, holds.tail_eq, show i = xs.length by omega]
      rw [hlast] at hy
      cases hy
      rw [htail, stored]

end

theorem get_head (holds : Holds buf head tail (x :: xs)) : buf head = x :=
  holds.get (i := 0) rfl (val_eq_mod head)

theorem pop (holds : Holds buf head tail (x :: xs)) : Holds buf (next head) tail xs where
  free := lt_of_succ_lt holds.free
  tail_eq := by
    rw [holds.tail_eq, val_next, mod_add_mod, length_cons, add_assoc,
      add_comm 1]
  get := by
    intro i y slot hy hslot
    apply holds.get (i := i + 1)
    · rw [getElem?_cons_succ]
      exact hy
    · rw [hslot, val_next, mod_add_mod, add_assoc, add_comm 1]

end Holds

end CircularBuffer
