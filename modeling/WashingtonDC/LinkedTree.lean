import WashingtonDC.TreeZipper

/-!
# Binary trees made of nodes with parent pointers

`Links` holds the root pointer and the child and parent fields of every node. `Linked`
relates them to a tree of nodes. A pointer write near a position leaves the frames and
the subtrees it does not touch as they were, and a rotation is read off from there.
-/
namespace LinkedTree

open TreeZipper

universe u

structure Links (α : Type u) where
  root : Option α
  child : Side → α → Option α
  parent : α → Option α

variable {α : Type u}

def Linked (s : Links α) : Option α → BinaryTree α → Prop
  | _, .nil => True
  | up, .node a l r => s.parent a = up ∧ s.child .left a = top l ∧ s.child .right a = top r ∧
      Linked s (some a) l ∧ Linked s (some a) r

def above (ctx : List (Frame α)) : Option α := ctx.head?.map Frame.value

/-- The frames are linked around a position filled by the node `hole`. -/
def LinkedAround (s : Links α) : Option α → List (Frame α) → Prop
  | hole, [] => s.root = hole
  | hole, f :: rest => s.parent f.value = above rest ∧ s.child f.side f.value = hole ∧
      s.child f.side.other f.value = top f.sibling ∧ Linked s (some f.value) f.sibling ∧
      LinkedAround s (some f.value) rest

/-- The links represent the tree `t`. -/
structure Represents (s : Links α) (t : BinaryTree α) : Prop where
  root : s.root = top t
  linked : Linked s none t
  nodup : (inorder t).Nodup

variable {s s' : Links α} {t t' : BinaryTree α} {ctx rest : List (Frame α)} {f : Frame α}
  {hole : Option α} {side : Side} {a : α}

theorem Linked.unique {up up' : Option α} (h : Linked s up t) (h' : Linked s up' t')
    (same : top t = top t') : t = t' := by
  induction t generalizing up up' t' with
  | nil =>
    cases t' with
    | nil => rfl
    | node a l r => cases same
  | node a l r ihl ihr =>
    cases t' with
    | nil => cases same
    | node a' l' r' =>
      cases same
      obtain ⟨-, hleft, hright, hl, hr⟩ := h
      obtain ⟨-, hleft', hright', hl', hr'⟩ := h'
      rw [ihl hl hl' (hleft.symm.trans hleft'), ihr hr hr' (hright.symm.trans hright')]

theorem Represents.unique (h : Represents s t) (h' : Represents s t') : t = t' :=
  h.linked.unique h'.linked (h.root.symm.trans h'.root)

/-- The fields of nodes outside `xs` are the same. -/
def Outside (xs : List α) (s s' : Links α) : Prop :=
  ∀ x ∉ xs, s'.parent x = s.parent x ∧ ∀ side, s'.child side x = s.child side x

theorem Outside.trans {xs : List α} {s'' : Links α} (h : Outside xs s s') (h' : Outside xs s' s'') :
    Outside xs s s'' := by
  intro x hx
  obtain ⟨hparent, hchild⟩ := h x hx
  obtain ⟨hparent', hchild'⟩ := h' x hx
  exact ⟨hparent'.trans hparent, fun side => (hchild' side).trans (hchild side)⟩

theorem linked_join {up : Option α} {near far : BinaryTree α} :
    Linked s up (join side a near far) ↔ s.parent a = up ∧ s.child side a = top near ∧
      s.child side.other a = top far ∧ Linked s (some a) near ∧ Linked s (some a) far := by
  cases side with
  | left => exact Iff.rfl
  | right =>
    simp only [join, Linked, Side.other]
    grind

theorem linked_plug :
    s.root = top (plug t ctx) ∧ Linked s none (plug t ctx) ↔
      Linked s (above ctx) t ∧ LinkedAround s (top t) ctx := by
  induction ctx generalizing t with
  | nil => simp [plug, above, LinkedAround, and_comm]
  | cons f rest ih =>
    simp only [plug, ih, linked_join, LinkedAround, above, top_join, List.head?_cons,
      Option.map_some]
    grind

theorem Linked.congr {up : Option α} (h : Linked s up t)
    (same : ∀ x ∈ inorder t, s'.parent x = s.parent x ∧ ∀ side, s'.child side x = s.child side x) :
    Linked s' up t := by
  induction t generalizing up with
  | nil => trivial
  | node a l r ihl ihr =>
    simp only [inorder, List.mem_append, List.mem_cons] at same
    obtain ⟨hparent, hleft, hright, hl, hr⟩ := h
    obtain ⟨samea, childa⟩ := same a (.inr (.inl rfl))
    exact ⟨samea.trans hparent, (childa _).trans hleft, (childa _).trans hright,
      ihl hl fun x hx => same x (.inl hx), ihr hr fun x hx => same x (.inr (.inr hx))⟩

theorem Linked.reparent {up up' : Option α} (h : Linked s up t) (nodup : (inorder t).Nodup)
    (moved : ∀ a, top t = some a → s'.parent a = up')
    (sameParent : ∀ x ∈ inorder t, top t ≠ some x → s'.parent x = s.parent x)
    (sameChild : ∀ x ∈ inorder t, ∀ side, s'.child side x = s.child side x) :
    Linked s' up' t := by
  cases t with
  | nil => trivial
  | node a l r =>
    obtain ⟨-, hleft, hright, hl, hr⟩ := h
    have hjoin : (inorder (join .left a l r)).Nodup := nodup
    obtain ⟨hal, har, -, -, -⟩ := nodup_join hjoin
    simp only [inorder, List.mem_append, List.mem_cons, top, ne_eq, Option.some.injEq]
      at moved sameParent sameChild
    refine ⟨moved a rfl, (sameChild a (by simp) _).trans hleft,
      (sameChild a (by simp) _).trans hright, hl.congr fun x hx => ⟨?_, ?_⟩,
      hr.congr fun x hx => ⟨?_, ?_⟩⟩
    · exact sameParent x (by simp [hx]) fun heq => hal (heq ▸ hx)
    · exact sameChild x (by simp [hx])
    · exact sameParent x (by simp [hx]) fun heq => har (heq ▸ hx)
    · exact sameChild x (by simp [hx])

theorem LinkedAround.congr (h : LinkedAround s hole ctx) (sameRoot : s'.root = s.root)
    (same : ∀ x ∈ around ctx, s'.parent x = s.parent x ∧ ∀ side, s'.child side x = s.child side x) :
    LinkedAround s' hole ctx := by
  induction ctx generalizing hole with
  | nil => exact sameRoot.trans h
  | cons f rest ih =>
    simp only [mem_around_cons] at same
    obtain ⟨hparent, hnear, hfar, hsib, hrest⟩ := h
    obtain ⟨samef, childf⟩ := same f.value (.inl rfl)
    exact ⟨samef.trans hparent, (childf _).trans hnear, (childf _).trans hfar,
      hsib.congr fun x hx => same x (.inr (.inl hx)),
      ih hrest fun x hx => same x (.inr (.inr hx))⟩

theorem nodup_around_cons (h : (around (f :: rest)).Nodup) :
    f.value ∉ inorder f.sibling ∧ f.value ∉ around rest ∧
      (inorder f.sibling).Nodup ∧ (around rest).Nodup ∧
      ∀ x ∈ inorder f.sibling, x ∉ around rest := by
  obtain ⟨side, a, t⟩ := f
  cases side <;>
    simp only [around, before, after, List.nodup_append, List.nodup_cons, List.mem_append] at h ⊢ <;>
    grind

theorem Linked.up (linked : Linked s (above (f :: rest)) t)
    (surround : LinkedAround s (top t) (f :: rest)) :
    Linked s (above rest) (join f.side f.value t f.sibling) ∧
      LinkedAround s (some f.value) rest := by
  obtain ⟨hparent, hnear, hfar, hsib, hrest⟩ := surround
  exact ⟨linked_join.mpr ⟨hparent, hnear, hfar, linked, hsib⟩, hrest⟩

/-- The link through which a position is reached. -/
inductive Slot (α : Type u) where
  | root
  | child (side : Side) (a : α)
  deriving DecidableEq

def Links.get (s : Links α) : Slot α → Option α
  | .root => s.root
  | .child side a => s.child side a

def slot : List (Frame α) → Slot α
  | [] => .root
  | f :: _ => .child f.side f.value

theorem LinkedAround.refill {hole' : Option α} (h : LinkedAround s hole ctx)
    (nodup : (around ctx).Nodup) (filled : s'.get (slot ctx) = hole')
    (sameRoot : slot ctx ≠ .root → s'.root = s.root)
    (sameParent : ∀ x ∈ around ctx, s'.parent x = s.parent x)
    (sameChild : ∀ x ∈ around ctx, ∀ side, slot ctx ≠ .child side x → s'.child side x = s.child side x) :
    LinkedAround s' hole' ctx := by
  cases ctx with
  | nil => exact filled
  | cons f rest =>
    simp only [mem_around_cons] at sameParent sameChild
    obtain ⟨hparent, -, hfar, hsib, hrest⟩ := h
    obtain ⟨hfs, hfr, -, -, -⟩ := nodup_around_cons nodup
    have untouched : ∀ x, x ≠ f.value → ∀ side, slot (f :: rest) ≠ .child side x := by
      rintro x hx side ⟨⟩
      exact hx rfl
    refine ⟨(sameParent _ (.inl rfl)).trans hparent, filled, ?_, hsib.congr fun x hx => ?_,
      hrest.congr (sameRoot nofun) fun x hx => ?_⟩
    · refine (sameChild _ (.inl rfl) _ ?_).trans hfar
      intro heq
      exact f.side.other_ne (Slot.child.inj heq).1.symm
    · have hne : x ≠ f.value := fun heq => hfs (heq ▸ hx)
      exact ⟨sameParent x (.inr (.inl hx)),
        fun side => sameChild x (.inr (.inl hx)) side (untouched x hne side)⟩
    · have hne : x ≠ f.value := fun heq => hfr (heq ▸ hx)
      exact ⟨sameParent x (.inr (.inr hx)),
        fun side => sameChild x (.inr (.inr hx)) side (untouched x hne side)⟩

theorem above_of_slot {x : α} (h : slot ctx = .child side x) : above ctx = some x := by
  cases ctx with
  | nil => cases h
  | cons f rest =>
    cases h
    rfl

theorem slot_mem {x : α} (h : slot ctx = .child side x) : x ∈ around ctx := by
  cases ctx with
  | nil => cases h
  | cons f rest =>
    cases h
    exact (mem_around_cons f rest).mpr (.inl rfl)

theorem Linked.parent_top {up : Option α} (h : Linked s up t) (htop : top t = some a) :
    s.parent a = up := by
  cases t with
  | nil => cases htop
  | node b l r =>
    cases htop
    exact h.1

theorem LinkedAround.left_iff (h : LinkedAround s (some a) (f :: rest))
    (fresh : a ∉ around (f :: rest)) :
    s.child .left f.value = some a ↔ f.side = .left := by
  obtain ⟨side, b, t⟩ := f
  obtain ⟨-, hhere, hthere, -, -⟩ := h
  cases side with
  | left => exact ⟨fun _ => rfl, fun _ => hhere⟩
  | right =>
    have hsib : s.child .left b = top t := hthere
    rw [hsib]
    refine ⟨fun htop => absurd ?_ fresh, nofun⟩
    exact (mem_around_cons _ _).mpr (.inr (.inl (top_mem htop)))

theorem LinkedAround.root_mem (h : LinkedAround s hole ctx) (inside : ctx ≠ []) :
    ∃ x ∈ around ctx, s.root = some x := by
  induction ctx generalizing hole with
  | nil => exact absurd rfl inside
  | cons f rest ih =>
    simp only [mem_around_cons]
    obtain ⟨-, -, -, -, hrest⟩ := h
    cases rest with
    | nil => exact ⟨f.value, .inl rfl, hrest⟩
    | cons g more =>
      obtain ⟨x, hx, hroot⟩ := ih hrest (List.cons_ne_nil g more)
      exact ⟨x, .inr (.inr hx), hroot⟩

/-! ## Pointer writes -/

variable [DecidableEq α]

def Links.setRoot (s : Links α) (x : Option α) : Links α := { s with root := x }

def Links.setChild (s : Links α) (side : Side) (a : α) (x : Option α) : Links α :=
  { s with child := fun side' b => if side' = side ∧ b = a then x else s.child side' b }

def Links.setParent (s : Links α) (a : α) (x : Option α) : Links α :=
  { s with parent := Function.update s.parent a x }

def Links.set (s : Links α) (link : Slot α) (x : Option α) : Links α :=
  match link with
  | .root => s.setRoot x
  | .child side a => s.setChild side a x

section Fields

variable (s : Links α) (link : Slot α) (side side' : Side) (a b : α) (x : Option α)

@[simp] theorem root_setChild : (s.setChild side a x).root = s.root := rfl

@[simp] theorem parent_setChild : (s.setChild side a x).parent = s.parent := rfl

@[simp] theorem child_setChild : (s.setChild side a x).child side' b =
    if side' = side ∧ b = a then x else s.child side' b := rfl

@[simp] theorem root_setParent : (s.setParent a x).root = s.root := rfl

@[simp] theorem child_setParent : (s.setParent a x).child = s.child := rfl

@[simp] theorem parent_setParent :
    (s.setParent a x).parent b = if b = a then x else s.parent b := by
  simp [Links.setParent, Function.update_apply]

@[simp] theorem parent_set : (s.set link x).parent = s.parent := by
  cases link <;> rfl

@[simp] theorem child_set : (s.set link x).child side b =
    if link = .child side b then x else s.child side b := by
  cases link with
  | root => rfl
  | child side' a => simp [Links.set, eq_comm]

@[simp] theorem root_set : (s.set link x).root = if link = .root then x else s.root := by
  cases link <;> rfl

end Fields

end LinkedTree
