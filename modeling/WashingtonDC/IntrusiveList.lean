import Mathlib.Data.List.Nodup

/-!
# Intrusive lists with pointer-to-pointer back links

A node stores its successor and the *address* of the forward link that points at
it. Such an address is either the list head or the successor field of another
node. The operations below are the pointer writes themselves; the lemmas say how
they act on the list of nodes that the links spell out. Nothing is assumed about
nodes outside that list.
-/
namespace IntrusiveList

open List Function

universe u

/-- The address of a forward link. -/
inductive Link (α : Type u) where
  | head
  | next (a : α)
  deriving DecidableEq

structure Links (α : Type u) where
  head : Option α
  next : α → Option α
  pprev : α → Option (Link α)

variable {α : Type u}

def Links.empty : Links α where
  head := none
  next := fun _ => none
  pprev := fun _ => none

def Links.get (s : Links α) : Link α → Option α
  | .head => s.head
  | .next a => s.next a

/-- `Path s p xs q` follows the links from the address `p` through the nodes `xs`
to the address `q`, checking every back link on the way. -/
def Path (s : Links α) : Link α → List α → Link α → Prop
  | p, [], q => p = q
  | p, a :: rest, q => s.get p = some a ∧ s.pprev a = some p ∧ Path s (.next a) rest q

/-- The links spell out exactly the nodes `xs`, each once. -/
structure Spells (s : Links α) (xs : List α) : Prop where
  nodup : xs.Nodup
  path : ∃ q, Path s .head xs q ∧ s.get q = none

theorem spells_empty : Spells (Links.empty : Links α) [] :=
  ⟨nodup_nil, .head, rfl, rfl⟩

variable {s t : Links α} {p q : Link α} {xs ys : List α}

theorem path_append : Path s p (xs ++ ys) q ↔ ∃ r, Path s p xs r ∧ Path s r ys q := by
  induction xs generalizing p with
  | nil => simp [Path]
  | cons a rest ih =>
    simp only [cons_append, Path, ih]
    constructor
    · rintro ⟨hget, hback, r, hr, hq⟩
      exact ⟨r, ⟨hget, hback, hr⟩, hq⟩
    · rintro ⟨r, ⟨hget, hback, hr⟩, hq⟩
      exact ⟨hget, hback, r, hr, hq⟩

theorem path_end (h : Path s p xs q) : q = p ∨ ∃ a ∈ xs, q = .next a := by
  induction xs generalizing p with
  | nil => exact .inl h.symm
  | cons a rest ih =>
    rcases ih h.2.2 with rfl | ⟨b, hb, rfl⟩
    · exact .inr ⟨a, by simp, rfl⟩
    · exact .inr ⟨b, by simp [hb], rfl⟩

theorem path_end_unique {s' : Links α} {q' : Link α} (h : Path s p xs q) (h' : Path s' p xs q') :
    q = q' := by
  induction xs generalizing p with
  | nil => exact h.symm.trans h'
  | cons a rest ih => exact ih h.2.2 h'.2.2

theorem path_get (h : Path s p xs q) (last : s.get q = none) : s.get p = xs.head? := by
  cases xs with
  | nil => cases h; exact last
  | cons a rest => exact h.1

theorem path_congr (fresh : ∀ a ∈ xs, p ≠ .next a) (nodup : xs.Nodup)
    (sameNext : ∀ r, r ≠ q → (r = p ∨ ∃ a ∈ xs, r = .next a) → t.get r = s.get r)
    (samePprev : ∀ a ∈ xs, t.pprev a = s.pprev a) (h : Path s p xs q) : Path t p xs q := by
  induction xs generalizing p with
  | nil => exact h
  | cons a rest ih =>
    obtain ⟨hget, hback, hrest⟩ := h
    have ha : a ∉ rest := (nodup_cons.mp nodup).1
    have hpq : p ≠ q := by
      rcases path_end hrest with rfl | ⟨b, hb, rfl⟩
      · exact fresh a (by simp)
      · exact fresh b (by simp [hb])
    refine ⟨(sameNext p hpq (.inl rfl)).trans hget, (samePprev a (by simp)).trans hback, ?_⟩
    refine ih ?_ (nodup_cons.mp nodup).2 ?_ (fun b hb => samePprev b (by simp [hb])) hrest
    · intro b hb heq
      cases heq
      exact ha hb
    · rintro r hr (rfl | ⟨b, hb, rfl⟩)
      · exact sameNext _ hr (.inr ⟨a, by simp, rfl⟩)
      · exact sameNext _ hr (.inr ⟨b, by simp [hb], rfl⟩)

theorem spells_nil_iff : Spells s [] ↔ s.head = none := by
  constructor
  · rintro ⟨-, q, rfl, hq⟩
    exact hq
  · intro h
    exact ⟨nodup_nil, .head, rfl, h⟩

theorem Spells.head_eq (h : Spells s xs) : s.head = xs.head? := by
  obtain ⟨q, hpath, hq⟩ := h.path
  exact path_get hpath hq

theorem Spells.split (h : Spells s (xs ++ ys)) :
    ∃ p q, Path s .head xs p ∧ Path s p ys q ∧ s.get q = none ∧ s.get p = ys.head? := by
  obtain ⟨q, hpath, hq⟩ := h.path
  obtain ⟨p, hxs, hys⟩ := path_append.mp hpath
  exact ⟨p, q, hxs, hys, hq, path_get hys hq⟩

variable [DecidableEq α]

section
variable (s)

def Links.set (p : Link α) (x : Option α) : Links α :=
  match p with
  | .head => { s with head := x }
  | .next a => { s with next := update s.next a x }

def Links.setPprev (a : α) (p : Option (Link α)) : Links α :=
  { s with pprev := update s.pprev a p }

@[simp] theorem get_set (p q : Link α) (x : Option α) :
    (s.set p x).get q = if q = p then x else s.get q := by
  cases p <;> cases q <;> simp [Links.set, Links.get, update_apply]

@[simp] theorem get_setPprev (a : α) (p : Option (Link α)) (q : Link α) :
    (s.setPprev a p).get q = s.get q := by
  cases q <;> rfl

@[simp] theorem pprev_set (p : Link α) (x : Option α) :
    (s.set p x).pprev = s.pprev := by
  cases p <;> rfl

@[simp] theorem pprev_setPprev (a b : α) (p : Option (Link α)) :
    (s.setPprev a p).pprev b = if b = a then p else s.pprev b := by
  simp [Links.setPprev, update_apply]

def Links.setPprevOf (x : Option α) (p : Option (Link α)) : Links α :=
  match x with
  | some b => s.setPprev b p
  | none => s

@[simp] theorem get_setPprevOf (x : Option α) (p : Option (Link α)) (q : Link α) :
    (s.setPprevOf x p).get q = s.get q := by
  cases x <;> simp [Links.setPprevOf]

@[simp] theorem pprev_setPprevOf (x : Option α) (p : Option (Link α)) (b : α) :
    (s.setPprevOf x p).pprev b = if x = some b then p else s.pprev b := by
  cases x with
  | none => simp [Links.setPprevOf]
  | some c => simp [Links.setPprevOf, eq_comm]

theorem set_setPprevOf (x y : Option α) (p : Option (Link α)) (q : Link α) :
    (s.setPprevOf x p).set q y = (s.set q y).setPprevOf x p := by
  cases x <;> cases q <;> rfl

/-- Link `a` in at the address `p`, in front of the node `after` that `p` points at. -/
def Links.insertAt (p : Link α) (after : Option α) (a : α) : Links α :=
  let s := s.set p (some a)
  let s := s.setPprevOf after (some (.next a))
  (s.set (.next a) after).setPprev a (some p)

/-- Take `a` out and clear its fields. The back link is dereferenced, so a node
that is in no list is an error. -/
def Links.unlink (a : α) : Option (Links α) :=
  let s := s.setPprevOf (s.next a) (s.pprev a)
  match s.pprev a with
  | none => none
  | some p => some (((s.set p (s.next a)).set (.next a) none).setPprev a none)

theorem get_insertAt (p q : Link α) (after : Option α) (a : α) :
    (s.insertAt p after a).get q =
      if q = .next a then after else if q = p then some a else s.get q := by
  simp [Links.insertAt]

theorem pprev_insertAt (p : Link α) (after : Option α) (a b : α) :
    (s.insertAt p after a).pprev b =
      if b = a then some p else if after = some b then some (.next a) else s.pprev b := by
  simp [Links.insertAt]
end

/-- The nodes `xs` and `ys` have the same fields in `t` as in `s`, except for the forward
link at `p` and the back link of the first node of `ys`. -/
structure Edited (s t : Links α) (p : Link α) (xs ys : List α) : Prop where
  next : ∀ r, r ≠ p → (r = .head ∨ ∃ b ∈ xs ++ ys, r = .next b) → t.get r = s.get r
  pprev : ∀ b ∈ xs ++ ys, ys.head? ≠ some b → t.pprev b = s.pprev b

section Splice

variable {a : α}

omit [DecidableEq α] in
theorem path_head_ne (h : Path s .head xs p) (fresh : a ∉ xs) : p ≠ .next a := by
  rintro rfl
  rcases path_end h with hp | ⟨b, hb, hp⟩
  · cases hp
  · cases hp
    exact fresh hb

omit [DecidableEq α] in
theorem Edited.before (h : Edited s t p xs ys) (nodup : (xs ++ ys).Nodup)
    (hxs : Path s .head xs p) : Path t .head xs p := by
  obtain ⟨nodupXs, -, disjoint⟩ := nodup_append.mp nodup
  refine path_congr (by simp) nodupXs ?_ ?_ hxs
  · rintro r hr (rfl | ⟨b, hb, rfl⟩)
    · exact h.next _ hr (.inl rfl)
    · exact h.next _ hr (.inr ⟨b, mem_append_left ys hb, rfl⟩)
  · intro b hb
    refine h.pprev b (mem_append_left ys hb) fun heq => ?_
    exact disjoint b hb b (mem_of_mem_head? heq) rfl

omit [DecidableEq α] in
theorem Edited.behind (h : Edited s t p xs ys) (nodup : (xs ++ ys).Nodup)
    (hxs : Path s .head xs p) {r l : Link α} (hys : Path s r ys q)
    (hq : s.get q = none) (forward : t.get l = ys.head?)
    (backward : ∀ b, ys.head? = some b → t.pprev b = some l) :
    ∃ q', Path t l ys q' ∧ t.get q' = none := by
  obtain ⟨-, nodupYs, disjoint⟩ := nodup_append.mp nodup
  cases ys with
  | nil => exact ⟨l, rfl, forward⟩
  | cons b rest =>
    have hbrest : b ∉ rest := (nodup_cons.mp nodupYs).1
    have untouched : ∀ m, (m = .next b ∨ ∃ c ∈ rest, m = .next c) → t.get m = s.get m := by
      intro m hm
      obtain ⟨c, hc, rfl⟩ : ∃ c ∈ b :: rest, m = .next c := by
        rcases hm with rfl | ⟨c, hc, rfl⟩
        · exact ⟨b, by simp, rfl⟩
        · exact ⟨c, by simp [hc], rfl⟩
      refine h.next _ (fun heq => ?_) (.inr ⟨c, mem_append_right xs hc, rfl⟩)
      exact path_head_ne hxs (fun hcx => disjoint c hcx c hc rfl) heq.symm
    refine ⟨q, ⟨forward, backward b rfl, ?_⟩, (untouched q (path_end hys.2.2)).trans hq⟩
    refine path_congr ?_ (nodup_cons.mp nodupYs).2 (fun m _ => untouched m) ?_ hys.2.2
    · rintro c hc ⟨rfl⟩
      exact hbrest hc
    · intro c hc
      refine h.pprev c (mem_append_right xs (mem_cons_of_mem b hc)) ?_
      rintro ⟨rfl⟩
      exact hbrest hc

omit [DecidableEq α] in
theorem spells_splice {ms ns : List α} {l : Link α} (h : Spells s (xs ++ ms ++ ys))
    (edited : Edited s t p xs ys) (reached : Path s .head xs p)
    (nodup : (xs ++ ns ++ ys).Nodup) (middle : Path t p ns l) (forward : t.get l = ys.head?)
    (backward : ∀ b, ys.head? = some b → t.pprev b = some l) : Spells t (xs ++ ns ++ ys) := by
  obtain ⟨p', q, -, hys, hq, -⟩ := h.split
  have nodup' : (xs ++ ys).Nodup := by
    refine nodup.sublist ?_
    rw [append_assoc]
    exact (sublist_append_right ns ys).append_left xs
  obtain ⟨q', hbehind, hq'⟩ := edited.behind nodup' reached hys hq forward backward
  refine ⟨nodup, q', path_append.mpr ⟨l, path_append.mpr ⟨p, ?_, middle⟩, hbehind⟩, hq'⟩
  exact edited.before nodup' reached

end Splice

theorem spells_insertAt {a : α}
    (h : Spells s (xs ++ ys)) (fresh : a ∉ xs ++ ys) (reached : Path s .head xs p) :
    Spells (s.insertAt p ys.head? a) (xs ++ a :: ys) := by
  have hne : ∀ b ∈ xs ++ ys, b ≠ a := fun b hb heq => fresh (heq ▸ hb)
  have hpa : p ≠ .next a := path_head_ne reached (fun ha => fresh (mem_append_left ys ha))
  have edited : Edited s (s.insertAt p ys.head? a) p xs ys := by
    refine ⟨?_, fun b hb hhead => by simp [pprev_insertAt, hne b hb, hhead]⟩
    rintro r hr (rfl | ⟨b, hb, rfl⟩)
    · simp [get_insertAt, hr]
    · simp [get_insertAt, hr, hne b hb]
  have hspells : Spells s (xs ++ [] ++ ys) := by simpa using h
  have middle : Path (s.insertAt p ys.head? a) p [a] (.next a) :=
    ⟨by simp [get_insertAt, hpa], by simp [pprev_insertAt], rfl⟩
  have hresult := spells_splice hspells edited reached ?_ middle ?_ ?_
  · simpa using hresult
  · rw [append_assoc, singleton_append, nodup_middle, nodup_cons]
    exact ⟨fresh, h.nodup⟩
  · simp [get_insertAt]
  · intro b hb
    simp [pprev_insertAt, hne b (mem_append_right xs (mem_of_mem_head? hb)), hb]

theorem spells_unlink {a : α} (h : Spells s (xs ++ a :: ys)) :
    ∃ t, s.unlink a = some t ∧ Spells t (xs ++ ys) := by
  obtain ⟨p, q, hxs, ⟨-, hback, hys⟩, hq, -⟩ := h.split
  obtain ⟨fresh, nodup⟩ := nodup_cons.mp (nodup_middle.mp h.nodup)
  have hne : ∀ b ∈ xs ++ ys, b ≠ a := fun b hb heq => fresh (heq ▸ hb)
  have hnext : s.next a = ys.head? := path_get hys hq
  have hhead : ys.head? ≠ some a := fun heq =>
    fresh (mem_append_right xs (mem_of_mem_head? heq))
  have hpa : p ≠ .next a := path_head_ne hxs (fun ha => fresh (mem_append_left ys ha))
  let s₁ := s.setPprevOf (s.next a) (s.pprev a)
  let t := ((s₁.set p (s₁.next a)).set (.next a) none).setPprev a none
  have hs₁ : s₁.next a = ys.head? := (get_setPprevOf s _ _ (.next a)).trans hnext
  have hunlink : s.unlink a = some t := by
    have hpprev : s₁.pprev a = some p := by simp [s₁, hnext, hhead, hback]
    simp only [Links.unlink, t]
    rw [show (s.setPprevOf (s.next a) (s.pprev a)).pprev a = some p from hpprev]
  have edited : Edited s t p xs ys := by
    refine ⟨?_, fun b hb hys => by simp [t, s₁, hne b hb, hnext, hys]⟩
    rintro r hr (rfl | ⟨b, hb, rfl⟩)
    · simp [t, s₁, hr]
    · simp [t, s₁, hr, hne b hb]
  have hspells : Spells s (xs ++ [a] ++ ys) := by simpa using h
  have middle : Path t p [] p := rfl
  have hresult := spells_splice hspells edited hxs ?_ middle (by simp [t, hpa, hs₁]) ?_
  · exact ⟨t, hunlink, by simpa using hresult⟩
  · simpa using nodup
  · intro b hb
    simp [t, s₁, hne b (mem_append_right xs (mem_of_mem_head? hb)), hnext, hb, hback]

end IntrusiveList
