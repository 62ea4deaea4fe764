import WashingtonDC.IntrusiveList

/-!
# FIFOs

The queue of `fifo.h`: nodes with a forward link, and the address of the last link. Loops have fuel.
`fifo_erase` does not repair that address, so that a queue whose last node was erased loses the
nodes that are pushed after it.
-/
namespace Fifo

open List
open IntrusiveList (Link)

universe u
variable {α : Type u}

/-- A `fifo_head`, and the `next` fields of the nodes. -/
structure FifoHead (α : Type u) where
  first : Option α
  next : α → Option α
  plast : Link α

def FifoHead.get (q : FifoHead α) : Link α → Option α
  | .head => q.first
  | .next a => q.next a

/-- The loops of `fifo_len` and `fifo_erase`: the number of nodes before the first address that
has no node, or one to stop at, and that address. -/
def walk (q : FifoHead α) (stop : α → Bool) : Nat → Link α → Option (Nat × Link α)
  | 0, _ => none
  | fuel + 1, p =>
    match q.get p with
    | none => some (0, p)
    | some a =>
      if stop a then some (0, p) else (walk q stop fuel (.next a)).map fun (n, e) => (n + 1, e)

def fifoInit (q : FifoHead α) : FifoHead α := { q with first := none, plast := .head }

def fifoLen (fuel : Nat) (q : FifoHead α) : Option Nat :=
  (walk q (fun _ => false) fuel .head).map Prod.fst

/-- The address of the link behind the nodes. -/
def tip (xs : List α) : Link α := xs.getLast?.elim .head .next

/-- Behind every part of the queue is a link to the rest of it, and `plast` is the last one. -/
structure Holds (q : FifoHead α) (xs : List α) : Prop where
  nodup : xs.Nodup
  links : ∀ l r, xs = l ++ r → q.get (tip l) = r.head?
  plast : q.plast = tip xs

variable {q : FifoHead α} {xs l m r : List α} {a : α} {p e s : Link α} {stop : α → Bool} {fuel : Nat}

@[simp] theorem get_with_plast : ({ q with plast := e } : FifoHead α).get p = q.get p := by
  cases p <;> rfl

@[simp] theorem tip_concat : tip (l ++ [a]) = .next a := by
  simp [tip]

theorem tip_append (more : m ≠ []) : tip (l ++ m) = tip m := by
  obtain ⟨m, b, rfl⟩ := (eq_nil_or_concat m).resolve_left more
  rw [concat_eq_append, ← append_assoc, tip_concat, tip_concat]

theorem tip_ne_next (fresh : a ∉ l) : tip l ≠ .next a := by
  rcases eq_nil_or_concat l with rfl | ⟨l, b, rfl⟩
  · exact nofun
  · rintro heq
    simp_all

theorem tip_ne (nodup : (l ++ m).Nodup) (more : m ≠ []) : tip l ≠ tip (l ++ m) := by
  obtain ⟨m, b, rfl⟩ := (eq_nil_or_concat m).resolve_left more
  rw [tip_append more, concat_eq_append, tip_concat]
  exact tip_ne_next fun hb => (nodup_append.mp nodup).2.2 b hb b (by simp) rfl

theorem Holds.walk (holds : Holds q (l ++ m ++ r)) (pass : ∀ x ∈ m, stop x = false)
    (last : ∀ x ∈ r.head?, stop x = true) (enough : m.length < fuel) :
    walk q stop fuel (tip l) = some (m.length, tip (l ++ m)) := by
  induction m generalizing l fuel with
  | nil =>
    obtain ⟨fuel, rfl⟩ : ∃ n, fuel = n + 1 := ⟨fuel - 1, by omega⟩
    have hget := holds.links l r (by simp)
    cases r with
    | nil => simp [Fifo.walk, hget]
    | cons b r => simp [Fifo.walk, hget, last b rfl]
  | cons b m ih =>
    rw [length_cons] at enough
    obtain ⟨fuel, rfl⟩ : ∃ n, fuel = n + 1 := ⟨fuel - 1, by omega⟩
    have hget := holds.links l (b :: m ++ r) (by simp)
    have hih := ih (l := l ++ [b]) (by simpa using holds) (fun x hx => pass x (by simp [hx]))
      (Nat.lt_of_succ_lt_succ enough)
    simp only [tip_concat, append_assoc, singleton_append] at hih
    simp [Fifo.walk, hget, pass b, hih]

theorem Holds.fifoLen (holds : Holds q xs) (enough : xs.length < fuel) :
    fifoLen fuel q = some xs.length := by
  have hwalk : Fifo.walk q (fun _ => false) fuel (tip []) = _ :=
    Holds.walk (r := []) (by simpa using holds) (by simp) (by simp) enough
  exact congrArg (Option.map Prod.fst) hwalk

/-! ## The operations -/

variable [DecidableEq α]

def FifoHead.set (q : FifoHead α) (x : Option α) : Link α → FifoHead α
  | .head => { q with first := x }
  | .next a => { q with next := Function.update q.next a x }

def fifoPush (q : FifoHead α) (node : α) : FifoHead α :=
  { (q.set (some node) q.plast).set none (.next node) with plast := .next node }

def fifoPop (q : FifoHead α) : FifoHead α × Option α :=
  match q.first with
  | none => (q, none)
  | some first =>
    let q := q.set (q.next first) .head
    let q := if q.plast = .next first then { q with plast := .head } else q
    (q.set none (.next first), some first)

def unlink (q : FifoHead α) (cursp : Link α) (node : α) : FifoHead α :=
  (q.set (q.next node) cursp).set none (.next node)

def fifoErase (fuel : Nat) (q : FifoHead α) (node : α) : Option (FifoHead α) :=
  (walk q (· = node) fuel .head).map fun (_, cursp) =>
    if (q.get cursp).isSome then unlink q cursp node else q

@[simp] theorem get_set (x : Option α) : (q.set x p).get s = if s = p then x else q.get s := by
  cases p <;> cases s <;> simp [FifoHead.set, FifoHead.get, Function.update_apply]

@[simp] theorem plast_set (x : Option α) : (q.set x p).plast = q.plast := by
  cases p <;> rfl

theorem Holds.push (holds : Holds q xs) (fresh : a ∉ xs) : Holds (fifoPush q a) (xs ++ [a]) where
  nodup := nodup_middle.mpr (by simp [holds.nodup, fresh])
  plast := by simp [fifoPush]
  links := by
    intro l r hsplit
    rcases eq_nil_or_concat r with rfl | ⟨r, b, rfl⟩
    · rw [append_nil] at hsplit
      simp [fifoPush, ← hsplit]
    · rw [concat_eq_append, ← append_assoc] at hsplit
      obtain ⟨rfl, hb⟩ := append_inj' hsplit rfl
      obtain rfl := singleton_inj.mp hb
      have hnew : tip l ≠ .next a := tip_ne_next (by simp_all)
      by_cases hr : r = []
      · simp [fifoPush, holds.plast, hnew, hr]
      · have hne := tip_ne holds.nodup hr
        have hlinks := holds.links l r rfl
        rw [← holds.plast] at hne
        cases r <;> simp_all [fifoPush]

theorem Holds.unlink_links (holds : Holds q (l ++ a :: r)) (l' r' : List α)
    (split : l ++ r = l' ++ r') : (unlink q (tip l) a).get (tip l') = r'.head? := by
  obtain ⟨hfresh, hnodup⟩ := nodup_cons.mp (nodup_middle.mp holds.nodup)
  have hnew : tip l' ≠ .next a := tip_ne_next fun hmem => hfresh (by simp [split, hmem])
  by_cases hl : l' = l
  · obtain rfl : r = r' := by simpa [hl] using split
    have hlinks : q.next a = r.head? := by
      simpa [FifoHead.get] using holds.links (l ++ [a]) r (by simp)
    rw [hl] at hnew ⊢
    simp [unlink, hnew, hlinks]
  rcases append_eq_append_iff.mp split with ⟨m, rfl, rfl⟩ | ⟨m, rfl, rfl⟩
  · have hm : m ≠ [] := by simpa using hl
    rw [← append_assoc] at hnodup
    have hne := tip_ne hnodup.of_append_left hm
    have hlinks := holds.links (l ++ [a] ++ m) r' (by simp)
    rw [tip_append hm, ← tip_append (l := l) hm] at hlinks
    simp [unlink, hnew, hne.symm, hlinks]
  · have hm : m ≠ [] := by simpa using Ne.symm hl
    have hne := tip_ne hnodup.of_append_left hm
    have hlinks := holds.links l' (m ++ a :: r) (by simp)
    cases m <;> simp_all [unlink]

theorem Holds.unlink_iff (holds : Holds q (l ++ a :: r)) :
    Holds (unlink q (tip l) a) (l ++ r) ↔ r ≠ [] := by
  obtain ⟨hfresh, hnodup⟩ := nodup_cons.mp (nodup_middle.mp holds.nodup)
  have hplast : (unlink q (tip l) a).plast = tip (l ++ a :: r) := by simp [unlink, holds.plast]
  constructor
  · rintro holds' rfl
    have heq := holds'.plast.symm.trans hplast
    rw [append_nil, tip_concat] at heq
    exact tip_ne_next (by simpa using hfresh) heq
  · intro more
    refine ⟨hnodup, holds.unlink_links, hplast.trans ?_⟩
    rw [tip_append more, ← tip_append (l := l ++ [a]) more, append_assoc]
    rfl

theorem Holds.fifoErase (holds : Holds q (l ++ a :: r)) (enough : l.length < fuel) :
    fifoErase fuel q a = some (unlink q (tip l) a) := by
  obtain ⟨hfresh, -⟩ := nodup_cons.mp (nodup_middle.mp holds.nodup)
  have hpass : ∀ x ∈ l, decide (x = a) = false := by
    intro x hx
    exact decide_eq_false fun heq => hfresh (by simp [← heq, hx])
  have hwalk : Fifo.walk q (· = a) fuel .head = _ := Holds.walk (l := []) holds hpass (by simp) enough
  simp [Fifo.fifoErase, hwalk, holds.links l (a :: r) rfl]

theorem Holds.pop (holds : Holds q xs) :
    Holds (fifoPop q).1 xs.tail ∧ (fifoPop q).2 = xs.head? := by
  have hfirst : q.first = xs.head? := holds.links [] xs rfl
  cases xs with
  | nil => simpa [fifoPop, hfirst] using holds
  | cons a r =>
    by_cases hr : r = []
    · subst hr
      have hplast : q.plast = .next a := holds.plast
      have hnext : q.next a = none := holds.links [a] [] rfl
      simp [fifoPop, hfirst, hplast, hnext]
      refine ⟨nodup_nil, fun l r hsplit => ?_, ?_⟩
      · obtain ⟨rfl, rfl⟩ := nil_eq_append_iff.mp hsplit
        simp [tip]
      · simp [tip]
    · have hplast : q.plast ≠ .next a := by
        rw [holds.plast]
        exact (tip_ne (l := [a]) holds.nodup hr).symm
      have hunlink := (Holds.unlink_iff (l := []) holds).mpr hr
      simpa [fifoPop, hfirst, hplast, unlink, tip] using hunlink

/-! ## Whole runs -/

/-- The queues that calls lead to of which none erases the last node, with the lists. -/
inductive Reached : FifoHead α → List α → Prop
  | init (q : FifoHead α) : Reached (fifoInit q) []
  | push {q : FifoHead α} {xs : List α} {node : α} (before : Reached q xs) (fresh : node ∉ xs) :
      Reached (fifoPush q node) (xs ++ [node])
  | pop {q : FifoHead α} {xs : List α} (before : Reached q xs) : Reached (fifoPop q).1 xs.tail
  | erase {q q' : FifoHead α} {l r : List α} {node : α} {fuel : Nat}
      (before : Reached q (l ++ node :: r)) (more : r ≠ []) (enough : l.length < fuel)
      (run : fifoErase fuel q node = some q') : Reached q' (l ++ r)

theorem Reached.holds (reached : Reached q xs) : Holds q xs := by
  induction reached with
  | init q =>
    refine ⟨nodup_nil, fun l r split => ?_, rfl⟩
    obtain ⟨rfl, rfl⟩ := nil_eq_append_iff.mp split
    rfl
  | push before fresh ih => exact ih.push fresh
  | pop before ih => exact ih.pop.1
  | erase before more enough run ih =>
    cases (ih.fifoErase enough).symm.trans run
    exact ih.unlink_iff.mpr more

/-- The queue is the list of its nodes, and it still is after a node was erased if and only if that
was not the last one. -/
theorem reached_refines (reached : Reached q xs) :
    Holds q xs ∧ (fifoPop q).2 = xs.head? ∧
    (∀ fuel, xs.length < fuel → fifoLen fuel q = some xs.length) ∧
    ∀ l a r, xs = l ++ a :: r → ∃ q', (∀ fuel, xs.length < fuel → fifoErase fuel q a = some q') ∧
      (Holds q' (l ++ r) ↔ r ≠ []) := by
  have holds := reached.holds
  refine ⟨holds, holds.pop.2, fun _ => holds.fifoLen, ?_⟩
  rintro l a r rfl
  refine ⟨_, fun fuel enough => holds.fifoErase ?_, holds.unlink_iff⟩
  rw [length_append] at enough
  omega

def empty : FifoHead Nat := ⟨none, fun _ => none, .head⟩

theorem reached_refines_pops : (fifoPop (fifoPop (fifoPush (fifoPush empty 0) 1)).1).2 = some 1 :=
  (reached_refines (.pop (.push (.push (.init empty) not_mem_nil) (by decide)))).2.1

/-- A node that is pushed after the last one was erased is lost. -/
theorem fifoErase_loses : (fifoErase 2 (fifoPush empty 0) 0).bind
    (fun q => fifoLen 2 (fifoPush q 1)) = some 0 := by
  decide

end Fifo
