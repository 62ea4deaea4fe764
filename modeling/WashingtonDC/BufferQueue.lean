import Mathlib.Data.List.Flatten
import Mathlib.Data.List.GetD

/-!
# Queues of buffers that are read element by element

A queue holds buffers, each with the position of the next element. Reading takes an element from
the first buffer and drops the buffer when it has been read to its end. What is left to read is the
list of the remaining elements of all buffers.
-/
namespace BufferQueue

open List

variable {α : Type}

structure Buffer (α : Type) where
  idx : Nat
  dat : List α

def Buffer.rest (b : Buffer α) : List α := b.dat.drop b.idx

def rest (q : List (Buffer α)) : List α := q.flatMap Buffer.rest

def Solid (q : List (Buffer α)) : Prop := ∀ b ∈ q, b.idx < b.dat.length

def consume [Inhabited α] : List (Buffer α) → Option α × List (Buffer α)
  | [] => (none, [])
  | b :: q =>
    (some (b.dat.getD b.idx default),
      if b.dat.length ≤ b.idx + 1 then q else { b with idx := b.idx + 1 } :: q)

@[simp] theorem rest_nil : rest ([] : List (Buffer α)) = [] := rfl

@[simp] theorem rest_cons (b : Buffer α) (q : List (Buffer α)) : rest (b :: q) = b.rest ++ rest q :=
  rfl

theorem rest_append (q q' : List (Buffer α)) : rest (q ++ q') = rest q ++ rest q' :=
  flatMap_append

theorem solid_nil : Solid ([] : List (Buffer α)) := by
  intro b hb
  cases hb

theorem Solid.append {q q' : List (Buffer α)} (solid : Solid q) (solid' : Solid q') :
    Solid (q ++ q') := by
  intro b hb
  obtain hb | hb := mem_append.mp hb
  · exact solid b hb
  · exact solid' b hb

theorem Solid.nil_of_rest {q : List (Buffer α)} (solid : Solid q) (h : rest q = []) : q = [] := by
  cases q with
  | nil => rfl
  | cons b q =>
    have hlt := solid b mem_cons_self
    rw [rest_cons, append_eq_nil_iff] at h
    have hle := drop_eq_nil_iff.mp h.1
    omega

theorem Solid.consume [Inhabited α] {q : List (Buffer α)} (solid : Solid q) {x : α} {xs : List α}
    (h : rest q = x :: xs) :
    ∃ q', BufferQueue.consume q = (some x, q') ∧ rest q' = xs ∧ Solid q' := by
  cases q with
  | nil => cases h
  | cons b q =>
    have hlt := solid b mem_cons_self
    have hsolid : Solid q := fun c hc => solid c (mem_cons_of_mem b hc)
    have hrest : b.rest = b.dat[b.idx] :: b.dat.drop (b.idx + 1) :=
      drop_eq_getElem_cons hlt
    rw [rest_cons, hrest, cons_append, List.cons.injEq] at h
    obtain ⟨rfl, rfl⟩ := h
    dsimp only [BufferQueue.consume]
    rw [getD_eq_getElem _ _ hlt]
    refine ⟨_, rfl, ?_, ?_⟩
    · split
      · rename_i hend
        rw [drop_eq_nil_of_le hend, nil_append]
      · rfl
    · split
      · exact hsolid
      · rename_i hmore
        intro c hc
        obtain rfl | hc := mem_cons.mp hc
        · exact Nat.lt_of_not_le hmore
        · exact hsolid c hc

end BufferQueue
