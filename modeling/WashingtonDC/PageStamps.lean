import Mathlib.Data.List.Basic

/-!
# Pages with the time of their last write

A memory is divided into pages and each page has the time of its last write. A copy of some pages is
out of date if one of them has a later time than the copy. Times do not go backwards, so that a copy
that is out of date stays out of date. A write at the very time of the copy is not seen.
-/
namespace PageStamps

/-- The pages from `first` to `last` are written. -/
def touch (stamps : Nat → Nat) (first last now : Nat) : Nat → Nat := fun page =>
  if first ≤ page ∧ page ≤ last then now else stamps page

/-- One of the pages from `first` to `last` has a later time than `since`. -/
def newer (stamps : Nat → Nat) (first last since : Nat) : Bool :=
  (List.range' first (last + 1 - first)).any fun page => decide (since < stamps page)

variable {stamps : Nat → Nat} {first last first' last' since now : Nat}

theorem newer_iff :
    newer stamps first last since = true ↔
      ∃ page, (first ≤ page ∧ page ≤ last) ∧ since < stamps page := by
  simp only [newer, List.any_eq_true, List.mem_range'_1, decide_eq_true_eq]
  constructor
  · rintro ⟨page, ⟨hfirst, hlast⟩, hstamp⟩
    exact ⟨page, ⟨hfirst, by omega⟩, hstamp⟩
  · rintro ⟨page, ⟨hfirst, hlast⟩, hstamp⟩
    exact ⟨page, ⟨hfirst, by omega⟩, hstamp⟩

theorem touch_le (bounded : ∀ page, stamps page ≤ now) (page : Nat) :
    touch stamps first last now page ≤ now := by
  by_cases h : first ≤ page ∧ page ≤ last
  · exact Nat.le_of_eq (if_pos h)
  · simp only [touch, if_neg h]
    exact bounded page

theorem newer_touch (bounded : ∀ page, stamps page ≤ now)
    (h : newer stamps first last since = true) :
    newer (touch stamps first' last' now) first last since = true := by
  obtain ⟨page, hpage, hstamp⟩ := newer_iff.mp h
  refine newer_iff.mpr ⟨page, hpage, ?_⟩
  by_cases hwritten : first' ≤ page ∧ page ≤ last'
  · simp only [touch, if_pos hwritten]
    exact Nat.lt_of_lt_of_le hstamp (bounded page)
  · simp only [touch, if_neg hwritten]
    exact hstamp

theorem newer_touch_of_lt {page : Nat} (copied : first ≤ page ∧ page ≤ last)
    (written : first' ≤ page ∧ page ≤ last') (later : since < now) :
    newer (touch stamps first' last' now) first last since = true := by
  refine newer_iff.mpr ⟨page, copied, ?_⟩
  simp only [touch, if_pos written]
  exact later

end PageStamps
