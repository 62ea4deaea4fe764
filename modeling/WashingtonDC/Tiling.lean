import Mathlib.Algebra.BigOperators.Group.List.Basic
import Mathlib.Algebra.Order.Ring.Nat
import Mathlib.Data.List.Pairwise

/-!
# Regions cut into segments

A region of addresses is cut into consecutive segments, each with a tag. The segments are
listed in the order of their addresses, so that replacing a few neighbours by others that
cover the same addresses leaves the rest of the list as it was.
-/
namespace Tiling

open List

universe u

structure Seg (τ : Type u) where
  start : Nat
  len : Nat
  tag : τ

variable {τ : Type u}

def Seg.stop (s : Seg τ) : Nat := s.start + s.len

/-- The segments cover the addresses from `b` up to `e`, without gaps. -/
def Tiled : Nat → List (Seg τ) → Nat → Prop
  | b, [], e => b = e
  | b, s :: rest, e => s.start = b ∧ Tiled s.stop rest e

variable {b e : Nat} {s t : Seg τ} {xs ys : List (Seg τ)}

theorem tiled_append : Tiled b (xs ++ ys) e ↔ ∃ m, Tiled b xs m ∧ Tiled m ys e := by
  induction xs generalizing b with
  | nil => simp [Tiled]
  | cons s rest ih =>
    simp only [cons_append, Tiled, ih]
    constructor
    · rintro ⟨hs, m, hm, hys⟩
      exact ⟨m, ⟨hs, hm⟩, hys⟩
    · rintro ⟨m, ⟨hs, hm⟩, hys⟩
      exact ⟨hs, m, hm, hys⟩

theorem Tiled.sum (h : Tiled b xs e) : b + (xs.map Seg.len).sum = e := by
  induction xs generalizing b with
  | nil => exact h
  | cons s rest ih =>
    obtain ⟨rfl, hrest⟩ := h
    rw [map_cons, sum_cons, ← add_assoc]
    exact ih hrest

theorem Tiled.mem (h : Tiled b xs e) (hs : s ∈ xs) : b ≤ s.start ∧ s.stop ≤ e := by
  induction xs generalizing b with
  | nil => cases hs
  | cons t rest ih =>
    obtain ⟨rfl, hrest⟩ := h
    rcases mem_cons.mp hs with rfl | hs
    · have := hrest.sum
      omega
    · have := ih hrest hs
      have hstop : t.stop = t.start + t.len := rfl
      omega

theorem Tiled.stop_le (h : Tiled b (s :: xs) e) (ht : t ∈ xs) : s.stop ≤ t.start :=
  (h.2.mem ht).1

theorem Tiled.ordered (h : Tiled b xs e) : xs.Pairwise fun s t => s.stop ≤ t.start := by
  induction xs generalizing b with
  | nil => exact List.Pairwise.nil
  | cons s rest ih => exact pairwise_cons.mpr ⟨fun _ => h.stop_le, ih h.2⟩

theorem Tiled.apart (h : Tiled b xs e) (hs : s ∈ xs) (ht : t ∈ xs) :
    s = t ∨ s.stop ≤ t.start ∨ t.stop ≤ s.start := by
  induction xs generalizing b with
  | nil => cases hs
  | cons x rest ih =>
    rcases mem_cons.mp hs with rfl | hs' <;> rcases mem_cons.mp ht with rfl | ht'
    · exact .inl rfl
    · exact .inr (.inl (h.2.mem ht').1)
    · exact .inr (.inr (h.2.mem hs').1)
    · exact ih h.2 hs' ht'

theorem Tiled.mod (h : Tiled b xs e) {k : Nat} (sizes : ∀ s ∈ xs, s.len % k = 0) (hs : s ∈ xs) :
    s.start % k = b % k := by
  induction xs generalizing b with
  | nil => cases hs
  | cons t rest ih =>
    obtain ⟨rfl, hrest⟩ := h
    rcases mem_cons.mp hs with rfl | hs
    · rfl
    · rw [ih hrest (fun x hx => sizes x (mem_cons_of_mem t hx)) hs, Seg.stop, Nat.add_mod,
        sizes t mem_cons_self, add_zero, Nat.mod_mod]

theorem Tiled.starts_lt (h : Tiled b xs e) (sizes : ∀ s ∈ xs, 0 < s.len) :
    xs.Pairwise fun s t => s.start < t.start := by
  refine h.ordered.imp_of_mem ?_
  intro s t hs _ hst
  exact lt_of_lt_of_le (Nat.lt_add_of_pos_right (sizes s hs)) hst

end Tiling
