import Mathlib.Data.Tree.Basic
import Mathlib.Data.List.Nodup
import Mathlib.Algebra.Order.Group.Int

/-!
# Binary trees seen from one of their nodes

A position in a binary tree is a subtree together with the frames above it. Left and
right are treated alike: `join side a near far` is the node `a` whose subtree on `side`
is `near`. Balance factors are a function of the node labels, so that a rotation changes
the shape alone.
-/
namespace TreeZipper

open List

universe u

variable {α : Type u}

inductive Side where
  | left
  | right
  deriving DecidableEq

def Side.other : Side → Side
  | .left => .right
  | .right => .left

/-- The sign of the balance factor of a node that is higher on this side. -/
def Side.sign : Side → Int
  | .left => -1
  | .right => 1

theorem Side.sign_ne_zero (side : Side) : side.sign ≠ 0 := by
  cases side <;> decide

theorem Side.sign_ne_neg (side : Side) : side.sign ≠ -side.sign := by
  cases side <;> decide

theorem Side.other_ne (side : Side) : side.other ≠ side := by
  cases side <;> nofun

def join (side : Side) (a : α) (near far : BinaryTree α) : BinaryTree α :=
  match side with
  | .left => .node a near far
  | .right => .node a far near

theorem join_other (side : Side) (a : α) (near far : BinaryTree α) :
    join side.other a near far = join side a far near := by
  cases side <;> rfl

def top : BinaryTree α → Option α
  | .nil => none
  | .node a _ _ => some a

@[simp] theorem top_join (side : Side) (a : α) (near far : BinaryTree α) :
    top (join side a near far) = some a := by
  cases side <;> rfl

variable {t : BinaryTree α}

variable {a x : α} {side : Side} {bal : α → Int}

theorem eq_join (side : Side) (h : top t = some a) : ∃ near far, t = join side a near far := by
  cases t with
  | nil => cases h
  | node b l r =>
    cases h
    cases side with
    | left => exact ⟨l, r, rfl⟩
    | right => exact ⟨r, l, rfl⟩

@[simp] theorem height_join (side : Side) (a : α) (near far : BinaryTree α) :
    (join side a near far).height = max near.height far.height + 1 := by
  cases side with
  | left => rfl
  | right => simp [join, max_comm]

def inorder : BinaryTree α → List α
  | .nil => []
  | .node a l r => inorder l ++ a :: inorder r

@[simp] theorem mem_inorder_join (side : Side) (a : α) (near far : BinaryTree α) :
    x ∈ inorder (join side a near far) ↔ x = a ∨ x ∈ inorder near ∨ x ∈ inorder far := by
  cases side <;> simp [join, inorder, or_left_comm, or_comm, or_assoc]

theorem inorder_rotate (side : Side) (p q : α) (a b c : BinaryTree α) :
    inorder (join side q a (join side p b c)) = inorder (join side p (join side q a b) c) := by
  cases side <;> simp [join, inorder]

theorem inorder_rotateTwice (side : Side) (p q r : α) (a b b' c : BinaryTree α) :
    inorder (join side r (join side q a b) (join side p b' c)) =
      inorder (join side p (join side q a (join side r b b')) c) := by
  cases side <;> simp [join, inorder]

theorem nodup_join {near far : BinaryTree α} (h : (inorder (join side a near far)).Nodup) :
    a ∉ inorder near ∧ a ∉ inorder far ∧ (inorder near).Nodup ∧ (inorder far).Nodup ∧
      ∀ x ∈ inorder near, x ∉ inorder far := by
  cases side <;> simp only [join, inorder, nodup_append, nodup_cons] at h <;> grind

theorem top_mem (h : top t = some a) : a ∈ inorder t := by
  cases t with
  | nil => cases h
  | node b l r =>
    cases h
    simp [inorder]

/-- An ancestor, the side on which the position lies, and the subtree on the other. -/
structure Frame (α : Type u) where
  side : Side
  value : α
  sibling : BinaryTree α

def plug : BinaryTree α → List (Frame α) → BinaryTree α
  | t, [] => t
  | t, f :: rest => plug (join f.side f.value t f.sibling) rest

def before : List (Frame α) → List α
  | [] => []
  | ⟨.left, _, _⟩ :: rest => before rest
  | ⟨.right, a, s⟩ :: rest => before rest ++ inorder s ++ [a]

def after : List (Frame α) → List α
  | [] => []
  | ⟨.left, a, s⟩ :: rest => a :: inorder s ++ after rest
  | ⟨.right, _, _⟩ :: rest => after rest

theorem inorder_plug (t : BinaryTree α) (ctx : List (Frame α)) :
    inorder (plug t ctx) = before ctx ++ inorder t ++ after ctx := by
  induction ctx generalizing t with
  | nil => simp [plug, before, after]
  | cons f rest ih =>
    obtain ⟨side, a, s⟩ := f
    cases side <;> simp [plug, ih, before, after, join, inorder]

theorem inorder_plug_congr {t' : BinaryTree α} (same : inorder t = inorder t')
    (ctx : List (Frame α)) : inorder (plug t ctx) = inorder (plug t' ctx) := by
  rw [inorder_plug, inorder_plug, same]

theorem inorder_plug_nil (ctx : List (Frame α)) :
    inorder (plug .nil ctx) = before ctx ++ after ctx := by
  simp [inorder_plug, inorder]

theorem inorder_plug_leaf (a : α) (ctx : List (Frame α)) :
    inorder (plug (.node a .nil .nil) ctx) = before ctx ++ a :: after ctx := by
  simp [inorder_plug, inorder]

def around (ctx : List (Frame α)) : List α := before ctx ++ after ctx

theorem mem_around_cons (f : Frame α) (rest : List (Frame α)) :
    x ∈ around (f :: rest) ↔ x = f.value ∨ x ∈ inorder f.sibling ∨ x ∈ around rest := by
  obtain ⟨side, a, s⟩ := f
  cases side <;> simp [around, before, after] <;> grind

variable {ctx : List (Frame α)}

theorem mem_inorder_plug : x ∈ inorder (plug t ctx) ↔ x ∈ inorder t ∨ x ∈ around ctx := by
  simp only [inorder_plug, around, mem_append]
  tauto

theorem nodup_plug (h : (inorder (plug t ctx)).Nodup) :
    (inorder t).Nodup ∧ (around ctx).Nodup ∧ ∀ x ∈ inorder t, x ∉ around ctx := by
  rw [inorder_plug] at h
  simp only [around, nodup_append, mem_append] at h ⊢
  grind

theorem height_le_length (t : BinaryTree α) : t.height ≤ (inorder t).length := by
  induction t with
  | nil => simp [inorder]
  | node a l r ihl ihr =>
    simp only [BinaryTree.height, inorder, length_append, length_cons]
    omega

theorem length_le_around (ctx : List (Frame α)) : ctx.length ≤ (around ctx).length := by
  induction ctx with
  | nil => simp
  | cons f rest ih =>
    obtain ⟨side, a, s⟩ := f
    simp only [around, length_append] at ih
    cases side <;> simp [around, before, after] <;> omega

/-! ## Balance -/

/-- Every label's balance is the right height minus the left one, and at most one apart. -/
def Balanced (bal : α → Int) : BinaryTree α → Prop
  | .nil => True
  | .node a l r => Balanced bal l ∧ Balanced bal r ∧ bal a = r.height - l.height ∧
      -1 ≤ bal a ∧ bal a ≤ 1

/-- The frames are balanced around a subtree of height `h`. -/
def BalancedAround (bal : α → Int) : Nat → List (Frame α) → Prop
  | _, [] => True
  | h, f :: rest => Balanced bal f.sibling ∧
      bal f.value = f.side.sign * (h - f.sibling.height) ∧ -1 ≤ bal f.value ∧ bal f.value ≤ 1 ∧
      BalancedAround bal (max h f.sibling.height + 1) rest

theorem balanced_join {near far : BinaryTree α} :
    Balanced bal (join side a near far) ↔ Balanced bal near ∧ Balanced bal far ∧
      bal a = side.sign * (near.height - far.height) ∧ -1 ≤ bal a ∧ bal a ≤ 1 := by
  cases side with
  | left | right => simp only [join, Balanced, Side.sign]; grind

theorem balanced_plug :
    Balanced bal (plug t ctx) ↔ Balanced bal t ∧ BalancedAround bal t.height ctx := by
  induction ctx generalizing t with
  | nil => simp [plug, BalancedAround]
  | cons f rest ih =>
    simp only [plug, ih, balanced_join, BalancedAround, height_join]
    grind

theorem Balanced.congr {bal' : α → Int} (h : Balanced bal t)
    (same : ∀ x ∈ inorder t, bal' x = bal x) : Balanced bal' t := by
  induction t with
  | nil => trivial
  | node a l r ihl ihr =>
    obtain ⟨hl, hr, hbal⟩ := h
    simp only [inorder, mem_append, mem_cons] at same
    refine ⟨ihl hl fun x hx => same x (.inl hx),
      ihr hr fun x hx => same x (.inr (.inr hx)), ?_⟩
    rwa [same a (.inr (.inl rfl))]

theorem BalancedAround.congr {bal' : α → Int} {h : Nat} (balanced : BalancedAround bal h ctx)
    (same : ∀ x ∈ around ctx, bal' x = bal x) :
    BalancedAround bal' h ctx := by
  induction ctx generalizing h with
  | nil => trivial
  | cons f rest ih =>
    simp only [mem_around_cons] at same
    obtain ⟨hsib, hbal, hlo, hhi, hrest⟩ := balanced
    refine ⟨hsib.congr fun x hx => same x (.inr (.inl hx)), ?_, ?_, ?_,
      ih hrest fun x hx => same x (.inr (.inr hx))⟩
    all_goals rwa [same f.value (.inl rfl)]

/-- A subtree that has just grown from height `h`. Only a new leaf can be even at its
root, since a subtree that grows higher does so on one side. -/
structure Grown (bal : α → Int) (h : Nat) (a : α) (t : BinaryTree α) : Prop where
  top : top t = some a
  balanced : Balanced bal t
  height : t.height = h + 1
  uneven : h = 0 ∨ bal a ≠ 0

section Rotation

variable {bal' : α → Int} {p q r : α} {a b b' c : BinaryTree α} {h : Nat}

theorem Grown.heights (grown : Grown bal h q (join side q a b))
    (high : bal p = side.sign * (h - c.height)) (heavy : bal p = side.sign) :
    h = c.height + 1 ∧ bal q ≠ 0 ∧ max a.height b.height = h := by
  have hheight := grown.height
  rw [height_join] at hheight
  have huneven := grown.uneven
  cases side <;> simp only [Side.sign] at high heavy <;> omega

theorem Grown.rotate (grown : Grown bal h q (join side q a b)) (sibling : Balanced bal c)
    (high : bal p = side.sign * (h - c.height)) (heavy : bal p = side.sign)
    (outer : 0 ≤ side.sign * bal q) (zero : bal' p = 0 ∧ bal' q = 0)
    (same : ∀ x, x ∈ inorder a ∨ x ∈ inorder b ∨ x ∈ inorder c → bal' x = bal x) :
    Balanced bal' (join side q a (join side p b c)) ∧
      (join side q a (join side p b c)).height = max h c.height + 1 := by
  obtain ⟨hh, hq, hmax⟩ := grown.heights high heavy
  obtain ⟨ha, hb, hbal, hlo, hhi⟩ := balanced_join.mp grown.balanced
  have hside : a.height = h ∧ b.height = c.height := by
    cases side <;> simp only [Side.sign] at hbal outer heavy <;> omega
  refine ⟨balanced_join.mpr ⟨ha.congr fun x hx => same x (by simp [hx]), balanced_join.mpr
    ⟨hb.congr fun x hx => same x (by simp [hx]),
      sibling.congr fun x hx => same x (by simp [hx]), ?_, ?_, ?_⟩, ?_, ?_, ?_⟩, ?_⟩
  all_goals simp [zero, hside, hh]

/-- The balances a double rotation has to store, from that of the node it lifts. -/
structure Rebalances (bal bal' : α → Int) (side : Side) (p q r : α) : Prop where
  lifted : bal' r = 0
  outer : 0 < side.sign * bal r → bal' q = 0 ∧ bal' p = -side.sign
  inner : side.sign * bal r < 0 → bal' q = side.sign ∧ bal' p = 0
  even : bal r = 0 → bal' q = 0 ∧ bal' p = 0

theorem Grown.rotateTwice (grown : Grown bal h q (join side q a (join side r b b')))
    (sibling : Balanced bal c) (high : bal p = side.sign * (h - c.height))
    (heavy : bal p = side.sign) (inner : side.sign * bal q < 0)
    (stored : Rebalances bal bal' side p q r)
    (same : ∀ x, x ∈ inorder a ∨ x ∈ inorder b ∨ x ∈ inorder b' ∨ x ∈ inorder c →
      bal' x = bal x) :
    Balanced bal' (join side r (join side q a b) (join side p b' c)) ∧
      (join side r (join side q a b) (join side p b' c)).height = max h c.height + 1 := by
  obtain ⟨hh, -, hmax⟩ := grown.heights high heavy
  obtain ⟨ha, hr, hbalq, hloq, hhiq⟩ := balanced_join.mp grown.balanced
  obtain ⟨hb, hb', hbalr, hlor, hhir⟩ := balanced_join.mp hr
  rw [height_join] at hmax hbalq
  have ha' := ha.congr fun x hx => same x (by simp [hx])
  have hb₁ := hb.congr fun x hx => same x (by simp [hx])
  have hb₂ := hb'.congr fun x hx => same x (by simp [hx])
  have hc' := sibling.congr fun x hx => same x (by simp [hx])
  have hlow : a.height = c.height ∧ max b.height b'.height = c.height := by
    cases side <;> simp only [Side.sign] at hbalq inner heavy <;> omega
  obtain ⟨hlifted, houter, hinner, heven⟩ := stored
  have hbals : bal' q = side.sign * (a.height - b.height) ∧
      bal' p = side.sign * (b'.height - c.height) ∧ b.height ≤ c.height ∧ b'.height ≤ c.height ∧
      c.height ≤ b.height + 1 ∧ c.height ≤ b'.height + 1 := by
    cases side <;> simp only [Side.sign] at hbalr houter hinner ⊢ <;> omega
  obtain ⟨hq, hp, h₁, h₂, h₃, h₄⟩ := hbals
  refine ⟨balanced_join.mpr ⟨balanced_join.mpr ⟨ha', hb₁, hq, ?_⟩,
    balanced_join.mpr ⟨hb₂, hc', hp, ?_⟩, ?_, ?_⟩, ?_⟩
  · cases side <;> simp only [Side.sign] at hq <;> omega
  · cases side <;> simp only [Side.sign] at hp <;> omega
  · simp only [height_join, hlifted]
    cases side <;> simp only [Side.sign] <;> omega
  · omega
  · simp only [height_join]
    omega

end Rotation

/-! ## Search -/

section Search

variable {κ : Type*} [LinearOrder κ] {key : α → κ} {k : κ}

def Sorted (key : α → κ) (xs : List α) : Prop := xs.Pairwise fun a b => key a < key b

/-- The position is where the key `k` belongs. -/
structure Between (key : α → κ) (k : κ) (ctx : List (Frame α)) : Prop where
  lower : ∀ x ∈ before ctx, key x < k
  upper : ∀ x ∈ after ctx, k < key x

section
variable (between : Between key k ctx)
include between

theorem Between.left {l r : BinaryTree α}
    (sorted : Sorted key (inorder (plug (.node a l r) ctx))) (less : k < key a) :
    Between key k (⟨.left, a, r⟩ :: ctx) := by
  rw [inorder_plug] at sorted
  refine ⟨between.lower, ?_⟩
  intro x hx
  simp only [after, cons_append, mem_cons, mem_append] at hx
  rcases hx with rfl | hx | hx
  · exact less
  · refine less.trans ?_
    simp only [Sorted, inorder, pairwise_append, pairwise_cons] at sorted
    exact sorted.1.2.1.2.1.1 x hx
  · exact between.upper x hx

theorem Between.right {l r : BinaryTree α}
    (sorted : Sorted key (inorder (plug (.node a l r) ctx))) (greater : key a < k) :
    Between key k (⟨.right, a, l⟩ :: ctx) := by
  rw [inorder_plug] at sorted
  refine ⟨?_, between.upper⟩
  intro x hx
  simp only [before, mem_append, mem_singleton] at hx
  rcases hx with (hx | hx) | rfl
  · exact between.lower x hx
  · refine lt_trans ?_ greater
    simp only [Sorted, inorder, pairwise_append, pairwise_cons] at sorted
    exact sorted.1.2.1.2.2 x hx a (by simp)
  · exact greater

theorem Between.absent : ∀ x ∈ inorder (plug .nil ctx), key x ≠ k := by
  intro x hx
  simp only [inorder_plug, inorder, append_nil, mem_append] at hx
  rcases hx with hx | hx
  · exact (between.lower x hx).ne
  · exact (between.upper x hx).ne'

theorem Between.insert {key' : α → κ} {new : α} (sorted : Sorted key (inorder (plug .nil ctx)))
    (newKey : key' new = k) (same : ∀ x ∈ around ctx, key' x = key x) :
    Sorted key' (inorder (plug (.node new .nil .nil) ctx)) := by
  simp only [around, mem_append] at same
  have lower : ∀ x ∈ before ctx, key' x = key x := fun x hx => same x (.inl hx)
  have upper : ∀ x ∈ after ctx, key' x = key x := fun x hx => same x (.inr hx)
  simp only [Sorted, inorder_plug, inorder, nil_append, append_nil,
    append_assoc, cons_append, pairwise_append, pairwise_cons] at sorted ⊢
  obtain ⟨hbefore, hafter, hcross⟩ := sorted
  refine ⟨hbefore.imp_of_mem ?_, ⟨?_, hafter.imp_of_mem ?_⟩, ?_⟩
  · intro x y hx hy hxy
    rwa [lower x hx, lower y hy]
  · intro x hx
    rw [newKey, upper x hx]
    exact between.upper x hx
  · intro x y hx hy hxy
    rwa [upper x hx, upper y hy]
  · intro x hx y hy
    rw [lower x hx]
    rcases mem_cons.mp hy with rfl | hy
    · rw [newKey]
      exact between.lower x hx
    · rw [upper y hy]
      exact hcross x hx y hy

end

theorem Sorted.unique {xs : List α} (sorted : Sorted key xs) {y : α} (hx : x ∈ xs)
    (hy : y ∈ xs) (same : key x = key y) : x = y := by
  induction xs with
  | nil => cases hx
  | cons a rest ih =>
    obtain ⟨hhead, htail⟩ := pairwise_cons.mp sorted
    rcases mem_cons.mp hx with rfl | inX <;> rcases mem_cons.mp hy with rfl | inY
    · rfl
    · exact absurd same (hhead y inY).ne
    · exact absurd same (hhead x inX).ne'
    · exact ih htail inX inY

end Search

end TreeZipper
