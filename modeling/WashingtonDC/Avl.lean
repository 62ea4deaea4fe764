import WashingtonDC.LinkedTree
import Mathlib.Data.Finset.Card

/-!
# The AVL tree of `avl.h`

A tree is its root pointer and the fields of its nodes. The two rotations are mirror
images, and so are the two halves of the retracing loop: each is written once, for the
side on which the lower node hangs. `RAISE_ERROR` and the dereference of a null pointer
both end in `none`. The consistency check compiled in by `INVARIANTS` is left out.
-/
namespace Avl

open TreeZipper LinkedTree Function List

set_option linter.unusedSectionVars false

abbrev AvlKeyType := UInt32

structure AvlTree (Node : Type) where
  links : Links Node
  key : Node → AvlKeyType
  bal : Node → Int

variable {Node Memory : Type} [DecidableEq Node]

/-- `avl_init`. The fields of nodes that are in no tree are left as they are. -/
def avlInit (tree : AvlTree Node) : AvlTree Node :=
  { tree with links := tree.links.setRoot none }

/-- What `avl_rot_right` (for `.left`) and `avl_rot_left` (for `.right`) do: the child on
the side `up` becomes the root of the subtree. -/
def avlRot (up : Side) (tree : Links Node) (oldRoot : Node) : Option (Links Node) := do
  let parent := tree.parent oldRoot
  let newRoot ← tree.child up oldRoot
  let newSubtree := tree.child up.other newRoot
  if some oldRoot ≠ tree.root ∧ parent = none then none
  let tree :=
    match parent with
    | some parent =>
      if tree.child .left parent = some oldRoot then tree.setChild .left parent newRoot
      else tree.setChild .right parent newRoot
    | none => tree
  let tree := tree.setParent newRoot parent
  let tree := tree.setParent oldRoot newRoot
  let tree :=
    match newSubtree with
    | some subtree => tree.setParent subtree oldRoot
    | none => tree
  let tree := tree.setChild up oldRoot newSubtree
  let tree := tree.setChild up.other newRoot oldRoot
  return if tree.root = some oldRoot then tree.setRoot newRoot else tree

def avlRotRight : Links Node → Node → Option (Links Node) := avlRot .left

def avlRotLeft : Links Node → Node → Option (Links Node) := avlRot .right

def AvlTree.setBal (tree : AvlTree Node) (node : Node) (bal : Int) : AvlTree Node :=
  { tree with bal := update tree.bal node bal }

def AvlTree.rot (tree : AvlTree Node) (up : Side) (node : Node) : Option (AvlTree Node) := do
  let links ←
    match up with
    | .left => avlRotRight tree.links node
    | .right => avlRotLeft tree.links node
  return { tree with links }

def AvlTree.setBalTwice (tree : AvlTree Node) (side : Side) (childBal : Int)
    (parent curNode : Node) : AvlTree Node :=
  if 0 < side.sign * childBal then (tree.setBal curNode 0).setBal parent (-side.sign)
  else if side.sign * childBal < 0 then (tree.setBal curNode side.sign).setBal parent 0
  else (tree.setBal curNode 0).setBal parent 0

/-- One pass of the retracing loop for a `curNode` on the given side of its parent, and
whether it ends with `goto the_end`. The balances of the right half are those of the left
half with the opposite sign. -/
def avlRetraceStep (side : Side) (tree : AvlTree Node) (parent curNode : Node) :
    Option (AvlTree Node × Bool) :=
  if tree.bal parent = -side.sign then some (tree.setBal parent 0, true)
  else if tree.bal parent = 0 then some (tree.setBal parent side.sign, false)
  else if tree.bal parent = side.sign then
    if 0 ≤ side.sign * tree.bal curNode then do
      let tree ← tree.rot side parent
      return ((tree.setBal parent 0).setBal curNode 0, true)
    else do
      let child ← tree.links.child side.other curNode
      let childBal := tree.bal child
      let tree ← tree.rot side.other curNode
      let tree ← tree.rot side parent
      let tree := tree.setBalTwice side childBal parent curNode
      let above ← tree.links.parent curNode
      return (tree.setBal above 0, true)
  else none

def avlRetrace : Nat → AvlTree Node → Node → Option (AvlTree Node)
  | 0, _, _ => none
  | fuel + 1, tree, curNode =>
    if tree.links.root = some curNode then some tree
    else do
      let parent ← tree.links.parent curNode
      let side : Side := if tree.links.child .left parent = some curNode then .left else .right
      let (tree, theEnd) ← avlRetraceStep side tree parent curNode
      if theEnd then some tree else avlRetrace fuel tree parent

/-- A constructor works on memory of its own; `none` when it returns no node. -/
abbrev AvlNodeCtor (Node Memory : Type) := Memory → Option (Node × Memory)

/-- The fields of a node from a constructor, which is zeroed memory. -/
def AvlTree.zeroed (tree : AvlTree Node) (node : Node) : AvlTree Node where
  links := ((tree.links.setChild .left node none).setChild .right node none).setParent node none
  key := update tree.key node 0
  bal := update tree.bal node 0

/-- `nodeP` is the link to store the new node in. -/
def avlBasicInsert (fuel : Nat) (ctor : AvlNodeCtor Node Memory) (memory : Memory)
    (tree : AvlTree Node) (nodeP : Slot Node) (parent : Option Node) (key : AvlKeyType) :
    Option (AvlTree Node × Node × Memory) := do
  let (newNode, memory) ← ctor memory
  let tree := tree.zeroed newNode
  let tree := { tree with links := tree.links.set nodeP newNode }
  if nodeP ≠ .root ∧ parent = none then none
  let tree := { tree with
    links := tree.links.setParent newNode parent
    key := update tree.key newNode key }
  let tree ← avlRetrace fuel tree newNode
  return (tree, newNode, memory)

/-- The search loop of `avl_find`; it ends at a node or at the empty link of one. -/
def avlSearch (tree : AvlTree Node) (key : AvlKeyType) : Nat → Node → Option (Node × Option Side)
  | 0, _ => none
  | fuel + 1, node =>
    if key < tree.key node then
      match tree.links.child .left node with
      | some left => avlSearch tree key fuel left
      | none => some (node, some .left)
    else if key > tree.key node then
      match tree.links.child .right node with
      | some right => avlSearch tree key fuel right
      | none => some (node, some .right)
    else some (node, none)

def avlFind (fuel : Nat) (ctor : AvlNodeCtor Node Memory) (memory : Memory)
    (tree : AvlTree Node) (key : AvlKeyType) : Option (AvlTree Node × Node × Memory) :=
  match tree.links.root with
  | some root => do
    match ← avlSearch tree key fuel root with
    | (node, some side) =>
      avlBasicInsert fuel ctor memory tree (.child side node) (some node) key
    | (node, none) => return (tree, node, memory)
  | none => avlBasicInsert fuel ctor memory tree .root none key

def avlFindNoinsert (fuel : Nat) (tree : AvlTree Node) (key : AvlKeyType) :
    Option (Option Node) :=
  match tree.links.root with
  | some root => do
    match ← avlSearch tree key fuel root with
    | (_, some _) => return none
    | (node, none) => return some node
  | none => some none

/-- `avl_clear_node`: the destructor is called on every node, children first. -/
def avlClearNode (dtor : Node → Memory → Option Memory) (links : Links Node) :
    Nat → Node → Memory → Option Memory
  | 0, _, _ => none
  | fuel + 1, node, memory => do
    let memory ←
      match links.child .left node with
      | some left => avlClearNode dtor links fuel left memory
      | none => some memory
    let memory ←
      match links.child .right node with
      | some right => avlClearNode dtor links fuel right memory
      | none => some memory
    dtor node memory

/-- `avl_cleanup` of the tree with the given root. -/
def avlCleanup (dtor : Node → Memory → Option Memory) (links : Links Node) (fuel : Nat)
    (root : Option Node) (memory : Memory) : Option Memory :=
  match root with
  | some root => avlClearNode dtor links fuel root memory
  | none => some memory

theorem avlClearNode_succ (dtor : Node → Memory → Option Memory) (links : Links Node)
    (fuel : Nat) (node : Node) (memory : Memory) :
    avlClearNode dtor links (fuel + 1) node memory =
      ((avlCleanup dtor links fuel (links.child .left node) memory).bind fun memory =>
        (avlCleanup dtor links fuel (links.child .right node) memory).bind (dtor node)) := by
  cases hleft : links.child .left node <;> cases hright : links.child .right node <;>
    simp [avlClearNode, avlCleanup, hleft, hright]

/-! ## Rotations -/

/-- The writes of a rotation, with the link from above named by the position. -/
def rotated (up : Side) (s : Links Node) (ctx : List (Frame Node)) (p q : Node)
    (b : Option Node) : Links Node :=
  let s := (s.set (slot ctx) (some q)).setParent q (above ctx)
  let s := s.setParent p (some q)
  let s :=
    match b with
    | some r => s.setParent r (some p)
    | none => s
  (s.setChild up p b).setChild up.other q (some p)

variable {side : Side}

section Rotated

variable {up : Side} {s : Links Node} {ctx : List (Frame Node)} {p q x : Node} {b : Option Node}

theorem rotated_parent : (rotated up s ctx p q b).parent x =
    if b = some x then some p else if x = p then some q else if x = q then above ctx
    else s.parent x := by
  cases b <;> simp [rotated, eq_comm]

theorem rotated_child : (rotated up s ctx p q b).child side x =
    if side = up.other ∧ x = q then some p else if side = up ∧ x = p then b
    else if slot ctx = .child side x then some q else s.child side x := by
  cases b <;> simp [rotated]

theorem rotated_root : (rotated up s ctx p q b).root =
    if slot ctx = .root then some q else s.root := by
  cases b <;> simp [rotated]

theorem rotated_other (notP : x ≠ p) (notQ : x ≠ q) :
    (b ≠ some x → (rotated up s ctx p q b).parent x = s.parent x) ∧
    (∀ side, slot ctx ≠ .child side x →
      (rotated up s ctx p q b).child side x = s.child side x) := by
  refine ⟨fun notB => ?_, fun side notSlot => ?_⟩
  · simp [rotated_parent, notP, notQ, notB]
  · simp [rotated_child, notP, notQ, notSlot]

theorem rotated_get_slot (freshP : p ∉ around ctx) (freshQ : q ∉ around ctx) :
    (rotated up s ctx p q b).get (slot ctx) = some q := by
  cases hslot : slot ctx with
  | root => simp [Links.get, rotated_root, hslot]
  | child side x =>
    have hx := slot_mem hslot
    have hxp : x ≠ p := fun heq => freshP (heq ▸ hx)
    have hxq : x ≠ q := fun heq => freshQ (heq ▸ hx)
    simp [Links.get, rotated_child, hslot, hxp, hxq]

end Rotated

variable {ctx : List (Frame Node)} {up : Side} {s : Links Node} {t : BinaryTree Node} {fuel : Nat}

theorem avlRot_eq {p q : Node} (fresh : p ∉ around ctx) (parent : s.parent p = above ctx)
    (child : s.child up p = some q) (surround : LinkedAround s (some p) ctx) :
    avlRot up s p = some (rotated up s ctx p q (s.child up.other q)) := by
  cases ctx with
  | nil =>
    have hroot : s.root = some p := surround
    simp only [above, head?_nil, Option.map_none] at parent
    cases hb : s.child up.other q <;>
      simp [avlRot, rotated, parent, child, hb, hroot, slot, above, Links.set, Links.setRoot,
        Links.setParent, Links.setChild]
  | cons f rest =>
    obtain ⟨x, hx, hroot⟩ := surround.root_mem (cons_ne_nil f rest)
    have hne : x ≠ p := fun heq => fresh (heq ▸ hx)
    have hpar : s.parent p = some f.value := parent
    have hside : (if s.child .left f.value = some p then s.setChild .left f.value (some q)
        else s.setChild .right f.value (some q)) = s.setChild f.side f.value (some q) := by
      have hleft := surround.left_iff fresh
      cases hf : f.side <;> simp [hleft, hf]
    cases hb : s.child up.other q <;>
      simp [avlRot, rotated, hpar, child, hb, hroot, hne, hside, slot, above, Links.set]

theorem avlRot_spec {p q : Node} {a b c : BinaryTree Node}
    (nodup : (inorder (plug (join up p (join up q a b) c) ctx)).Nodup)
    (linked : Linked s (above ctx) (join up p (join up q a b) c))
    (surround : LinkedAround s (some p) ctx) :
    ∃ s', avlRot up s p = some s' ∧ Linked s' (above ctx) (join up q a (join up p b c)) ∧
      LinkedAround s' (some q) ctx ∧
      Outside (inorder (plug (join up p (join up q a b) c) ctx)) s s' := by
  obtain ⟨hnodup, hctx, houter⟩ := nodup_plug nodup
  obtain ⟨hpsub, hpc, hsub, -, hsubc⟩ := nodup_join hnodup
  obtain ⟨hqa, hqb, hna, hnb, hab⟩ := nodup_join hsub
  simp only [mem_inorder_join, not_or] at hpsub houter hsubc
  obtain ⟨hparent, hchild, hfar, hlow, hc⟩ := linked_join.mp linked
  obtain ⟨-, hqnear, hqfar, ha, hb⟩ := linked_join.mp hlow
  rw [top_join] at hchild
  have hpq : p ≠ q := hpsub.1
  have hp : p ∉ around ctx := houter p (.inl rfl)
  have hq : q ∉ around ctx := houter q (.inr (.inl (.inl rfl)))
  have notSlot : ∀ x side, x ∉ around ctx → slot ctx ≠ .child side x :=
    fun x side hx heq => hx (slot_mem heq)
  have notTop : ∀ x, x ∉ inorder b → top b ≠ some x := fun x hx htop => hx (top_mem htop)
  have hother : up ≠ up.other := up.other_ne.symm
  refine ⟨rotated up s ctx p q (top b), hqfar ▸ avlRot_eq hp hparent hchild surround, ?_, ?_, ?_⟩
  · refine linked_join.mpr ⟨?_, ?_, ?_, ?_, linked_join.mpr ⟨?_, ?_, ?_, ?_, ?_⟩⟩
    · simp [rotated_parent, notTop q hqb, hpq.symm]
    · simp [rotated_child, hother, hpq.symm, notSlot q up hq, hqnear]
    · simp [rotated_child]
    · refine ha.congr fun x hx => ?_
      have hxp : x ≠ p := fun heq => hpsub.2.1 (heq ▸ hx)
      have hxq : x ≠ q := fun heq => hqa (heq ▸ hx)
      exact ⟨(rotated_other hxp hxq).1 (notTop x (hab x hx)), fun side =>
        (rotated_other hxp hxq).2 side
          (notSlot x side (houter x (.inr (.inl (.inr (.inl hx))))))⟩
    · simp [rotated_parent, notTop p hpsub.2.2]
    · simp [rotated_child, hother]
    · simp [rotated_child, hpq, hother.symm, notSlot p up.other hp, hfar]
    · have hother : ∀ x ∈ inorder b, x ≠ p ∧ x ≠ q := fun x hx =>
        ⟨fun heq => hpsub.2.2 (heq ▸ hx), fun heq => hqb (heq ▸ hx)⟩
      refine hb.reparent hnb (fun x htop => ?_) (fun x hx htop => ?_) (fun x hx side => ?_)
      · simp [rotated_parent, htop]
      · exact (rotated_other (hother x hx).1 (hother x hx).2).1 htop
      · exact (rotated_other (hother x hx).1 (hother x hx).2).2 side
          (notSlot x side (houter x (.inr (.inl (.inr (.inr hx))))))
    · refine hc.congr fun x hx => ?_
      have hxp : x ≠ p := fun heq => hpc (heq ▸ hx)
      have hxq : x ≠ q := fun heq => hsubc q (.inl rfl) (heq ▸ hx)
      have hxb : x ∉ inorder b := fun hxb => hsubc x (.inr (.inr hxb)) hx
      exact ⟨(rotated_other hxp hxq).1 (notTop x hxb), fun side =>
        (rotated_other hxp hxq).2 side (notSlot x side (houter x (.inr (.inr hx))))⟩
  · have hother : ∀ x ∈ around ctx, x ≠ p ∧ x ≠ q := fun x hx =>
      ⟨fun heq => hp (heq ▸ hx), fun heq => hq (heq ▸ hx)⟩
    refine surround.refill hctx (rotated_get_slot hp hq) (fun hroot => ?_) (fun x hx => ?_)
      (fun x hx side hslot => ?_)
    · simp [rotated_root, hroot]
    · refine (rotated_other (hother x hx).1 (hother x hx).2).1 (notTop x fun hxb => ?_)
      exact houter x (.inr (.inl (.inr (.inr hxb)))) hx
    · exact (rotated_other (hother x hx).1 (hother x hx).2).2 side hslot
  · intro x hx
    simp only [mem_inorder_plug, mem_inorder_join, not_or] at hx
    obtain ⟨⟨hxp, ⟨hxq, -, hxb⟩, -⟩, hxctx⟩ := hx
    exact ⟨(rotated_other hxp hxq).1 (notTop x hxb),
      fun side => (rotated_other hxp hxq).2 side (notSlot x side hxctx)⟩

/-! ## Retracing -/

section
variable (tree : AvlTree Node)
include tree

@[simp] theorem setBal_bal (node x : Node) (bal : Int) :
    (tree.setBal node bal).bal x = if x = node then bal else tree.bal x := by
  simp [AvlTree.setBal, update_apply]

theorem setBalTwice_links (side : Side) (childBal : Int) (parent curNode : Node) :
    (tree.setBalTwice side childBal parent curNode).links = tree.links := by
  unfold AvlTree.setBalTwice
  split_ifs <;> rfl

theorem setBalTwice_key (side : Side) (childBal : Int) (parent curNode : Node) :
    (tree.setBalTwice side childBal parent curNode).key = tree.key := by
  unfold AvlTree.setBalTwice
  split_ifs <;> rfl

theorem setBalTwice_bal (side : Side) (childBal : Int) {parent curNode x : Node} (notP : x ≠ parent)
    (notQ : x ≠ curNode) :
    (tree.setBalTwice side childBal parent curNode).bal x = tree.bal x := by
  unfold AvlTree.setBalTwice
  split_ifs <;> simp [notP, notQ]

theorem setBalTwice_rebalances (side : Side) {p q r : Node} (hpq : p ≠ q) (hrp : r ≠ p)
    (hrq : r ≠ q) (links : Links Node) :
    Rebalances tree.bal (({ tree with links }.setBalTwice side (tree.bal r) p q).setBal r 0).bal
      side p q r := by
  refine ⟨by simp, fun houter => ?_, fun hinner => ?_, fun heven => ?_⟩
  · simp [AvlTree.setBalTwice, houter, hrp.symm, hrq.symm, hpq.symm]
  · simp [AvlTree.setBalTwice, hinner, hinner.le.not_gt, hrp.symm, hrq.symm, hpq.symm]
  · simp [AvlTree.setBalTwice, heven, hrp.symm, hrq.symm, hpq.symm]

end

variable {tree : AvlTree Node}

theorem rot_eq {node : Node} {links : Links Node}
    (h : avlRot up tree.links node = some links) : tree.rot up node = some { tree with links } := by
  cases up <;> simp [AvlTree.rot, avlRotRight, avlRotLeft, h]

/-- The tree is balanced, and `xs` are its nodes in order. -/
def Settled (tree : AvlTree Node) (xs : List Node) : Prop :=
  ∃ t, Represents tree.links t ∧ Balanced tree.bal t ∧ inorder t = xs

/-- From `tree` to the balanced `tree'` on the nodes `xs`, whose fields alone may change. -/
structure Settles (tree tree' : AvlTree Node) (xs : List Node) : Prop where
  settled : Settled tree' xs
  key : tree'.key = tree.key
  outside : Outside xs tree.links tree'.links

theorem settled_plug (nodup : (inorder (plug t ctx)).Nodup)
    (linked : Linked tree.links (above ctx) t) (surround : LinkedAround tree.links (top t) ctx)
    (balanced : Balanced tree.bal t) (frames : BalancedAround tree.bal t.height ctx) :
    Settled tree (inorder (plug t ctx)) := by
  obtain ⟨hroot, hlinked⟩ := linked_plug.mpr ⟨linked, surround⟩
  exact ⟨plug t ctx, ⟨hroot, hlinked, nodup⟩, balanced_plug.mpr ⟨balanced, frames⟩, rfl⟩

/-- The retracing loop has reached `curNode`, whose subtree `t` has just grown. -/
structure Retracing (tree : AvlTree Node) (h : Nat) (curNode : Node) (t : BinaryTree Node)
    (ctx : List (Frame Node)) : Prop where
  grown : Grown tree.bal h curNode t
  frames : BalancedAround tree.bal h ctx
  linked : Linked tree.links (above ctx) t
  surround : LinkedAround tree.links (top t) ctx
  nodup : (inorder (plug t ctx)).Nodup

section Retrace

variable {h : Nat} {curNode : Node} {f : Frame Node}
  {rest : List (Frame Node)}

theorem Retracing.rotate (state : Retracing tree h curNode t (f :: rest))
    (heavy : tree.bal f.value = f.side.sign) (outer : 0 ≤ f.side.sign * tree.bal curNode) :
    ∃ tree', avlRetraceStep f.side tree f.value curNode = some (tree', true) ∧
      Settles tree tree' (inorder (plug t (f :: rest))) := by
  obtain ⟨side, p, c⟩ := f
  obtain ⟨a, b, rfl⟩ := eq_join side state.grown.top
  obtain ⟨hlinked, hsurround⟩ := state.linked.up state.surround
  obtain ⟨hsib, hhigh, -, -, hrest⟩ := state.frames
  obtain ⟨links, hrot, hlinked', hsurround', houtside⟩ :=
    avlRot_spec state.nodup hlinked hsurround
  have hplug : (inorder (plug (join side p (join side curNode a b) c) rest)).Nodup := state.nodup
  obtain ⟨hnodup, -, hrestNodup⟩ := nodup_plug hplug
  obtain ⟨hpsub, hpc, hsub, -, hsubc⟩ := nodup_join hnodup
  obtain ⟨hqa, hqb, -, -, -⟩ := nodup_join hsub
  simp only [mem_inorder_join, not_or] at hpsub hrestNodup hsubc
  let tree' := ({ tree with links }.setBal p 0).setBal curNode 0
  have hsame : ∀ x, x ≠ p → x ≠ curNode → tree'.bal x = tree.bal x := by
    intro x hxp hxq
    simp [tree', hxp, hxq]
  have hzero : tree'.bal p = 0 ∧ tree'.bal curNode = 0 := by simp [tree']
  obtain ⟨hbalanced, hheight⟩ := state.grown.rotate hsib hhigh heavy outer hzero
    (fun x hx => hsame x (by grind) (by grind))
  have horder := inorder_plug_congr (inorder_rotate side p curNode a b c) rest
  refine ⟨tree', ?_, ?_, rfl, houtside⟩
  · have hrot' := rot_eq hrot
    simp only at heavy
    simp [avlRetraceStep, heavy, outer, side.sign_ne_zero, side.sign_ne_neg, hrot', tree']
  · rw [show inorder (plug (join side curNode a b) (⟨side, p, c⟩ :: rest)) = _ from horder.symm]
    refine settled_plug (horder ▸ state.nodup) hlinked' (by rwa [top_join]) hbalanced ?_
    rw [hheight]
    refine hrest.congr fun x hx => hsame x ?_ ?_
    · exact fun heq => hrestNodup p (.inl rfl) (heq ▸ hx)
    · exact fun heq => hrestNodup curNode (.inr (.inl (.inl rfl))) (heq ▸ hx)

theorem avlRot_twice {p q r : Node} {a b b' c : BinaryTree Node}
    (nodup : (inorder (plug (join side p (join side q a (join side r b b')) c) rest)).Nodup)
    (linked : Linked s (above rest) (join side p (join side q a (join side r b b')) c))
    (surround : LinkedAround s (some p) rest) :
    ∃ s₁ s₂, avlRot side.other s q = some s₁ ∧ avlRot side s₁ p = some s₂ ∧
      Linked s₂ (above rest) (join side r (join side q a b) (join side p b' c)) ∧
      LinkedAround s₂ (some r) rest ∧
      Outside (inorder (plug (join side p (join side q a (join side r b b')) c) rest)) s s₂ := by
  obtain ⟨hparent, hnear, hfar, hlow, hc⟩ := linked_join.mp linked
  rw [top_join] at hnear
  -- the lower rotation is one towards the other side
  have hlower : LinkedAround s (some q) (⟨side, p, c⟩ :: rest) :=
    ⟨hparent, hnear, hfar, hc, surround⟩
  have hnodup : (inorder (plug (join side q a (join side r b b'))
      (⟨side, p, c⟩ :: rest))).Nodup := nodup
  rw [← join_other side q, ← join_other side r] at hlow hnodup
  obtain ⟨s₁, hrot₁, hlinked₁, hsurround₁, houtside₁⟩ := avlRot_spec hnodup hlow hlower
  rw [join_other, join_other] at hlinked₁ houtside₁
  obtain ⟨hlinked, hsurround⟩ := hlinked₁.up (by rwa [top_join])
  have horder : inorder (join side p (join side r (join side q a b) b') c) =
      inorder (join side p (join side q a (join side r b b')) c) := by
    rw [← inorder_rotate, inorder_rotateTwice]
  have hplug := inorder_plug_congr horder rest
  obtain ⟨s₂, hrot₂, hlinked₂, hsurround₂, houtside₂⟩ :=
    avlRot_spec (hplug ▸ nodup) hlinked hsurround
  rw [hplug] at houtside₂
  exact ⟨s₁, s₂, hrot₁, hrot₂, hlinked₂, hsurround₂, houtside₁.trans houtside₂⟩

section
variable (state : Retracing tree h curNode t (f :: rest))
include state

theorem Retracing.rotateTwice (heavy : tree.bal f.value = f.side.sign)
    (inner : f.side.sign * tree.bal curNode < 0) :
    ∃ tree', avlRetraceStep f.side tree f.value curNode = some (tree', true) ∧
      Settles tree tree' (inorder (plug t (f :: rest))) := by
  obtain ⟨side, p, c⟩ := f
  obtain ⟨a, low, rfl⟩ := eq_join side state.grown.top
  obtain ⟨-, -, hbalq, -, -⟩ := balanced_join.mp state.grown.balanced
  obtain ⟨r, hr⟩ : ∃ r, top low = some r := by
    cases low with
    | nil => cases side <;> simp only [Side.sign, BinaryTree.height] at hbalq inner <;> omega
    | node r l l' => exact ⟨r, rfl⟩
  obtain ⟨b, b', rfl⟩ := eq_join side hr
  obtain ⟨-, -, hchild, -, -⟩ := linked_join.mp state.linked
  obtain ⟨hlinked, hsurround⟩ := state.linked.up state.surround
  obtain ⟨hsib, hhigh, -, -, hrest⟩ := state.frames
  obtain ⟨links₁, links₂, hrot₁, hrot₂, hlinked₂, hsurround₂, houtside⟩ :=
    avlRot_twice state.nodup hlinked hsurround
  have hplug : (inorder (plug (join side p (join side curNode a (join side r b b')) c) rest)).Nodup :=
    state.nodup
  obtain ⟨hnodup, -, hrestNodup⟩ := nodup_plug hplug
  obtain ⟨hpsub, hpc, hsub, -, hsubc⟩ := nodup_join hnodup
  obtain ⟨hqa, hqlow, hna, hnlow, hqd⟩ := nodup_join hsub
  obtain ⟨hrb, hrb', -, -, -⟩ := nodup_join hnlow
  simp only [mem_inorder_join, not_or] at hpsub hrestNodup hsubc hqlow hqd
  let tree' := ({ tree with links := links₂ }.setBalTwice side (tree.bal r) p curNode).setBal r 0
  have hsame : ∀ x, x ≠ p → x ≠ curNode → x ≠ r → tree'.bal x = tree.bal x := by
    intro x hxp hxq hxr
    simp [tree', hxr, setBalTwice_bal _ _ _ hxp hxq]
  have hstored : Rebalances tree.bal tree'.bal side p curNode r :=
    setBalTwice_rebalances tree side hpsub.1 (Ne.symm hpsub.2.2.1) (Ne.symm hqlow.1) links₂
  obtain ⟨hbalanced, hheight⟩ := state.grown.rotateTwice hsib hhigh heavy inner hstored
    (fun x hx => hsame x (by grind) (by grind) (by grind))
  have horder := inorder_plug_congr (inorder_rotateTwice side p curNode r a b b' c) rest
  have hlinks : tree'.links = links₂ := setBalTwice_links _ _ _ _ _
  have habove : links₂.parent curNode = some r :=
    (linked_join.mp (linked_join.mp hlinked₂).2.2.2.1).1
  refine ⟨tree', ?_, ?_, setBalTwice_key _ _ _ _ _, hlinks ▸ houtside⟩
  · have hrot₁' := rot_eq hrot₁
    have hrot₂' : ({ tree with links := links₁ } : AvlTree Node).rot side p =
        some { tree with links := links₂ } := rot_eq hrot₂
    simp only at heavy
    rw [top_join] at hchild
    simp [avlRetraceStep, heavy, inner.not_ge, side.sign_ne_zero, side.sign_ne_neg, hchild, hrot₁',
      hrot₂', setBalTwice_links, habove, tree']
  · rw [show inorder (plug (join side curNode a (join side r b b')) (⟨side, p, c⟩ :: rest)) = _ from
      horder.symm]
    refine settled_plug (horder ▸ state.nodup) (hlinks ▸ hlinked₂)
      (by rwa [top_join, hlinks]) hbalanced ?_
    rw [hheight]
    refine hrest.congr fun x hx => hsame x ?_ ?_ ?_
    · exact fun heq => hrestNodup p (.inl rfl) (heq ▸ hx)
    · exact fun heq => hrestNodup curNode (.inr (.inl (.inl rfl))) (heq ▸ hx)
    · exact fun heq => hrestNodup r (by simp) (heq ▸ hx)

theorem Retracing.store {b : Int} (right : b = f.side.sign * (t.height - f.sibling.height))
    (low : -1 ≤ b) (high : b ≤ 1) :
    Balanced (tree.setBal f.value b).bal (join f.side f.value t f.sibling) ∧
      ∀ n, BalancedAround tree.bal n rest →
        BalancedAround (tree.setBal f.value b).bal n rest := by
  have hplug : (inorder (plug (join f.side f.value t f.sibling) rest)).Nodup := state.nodup
  obtain ⟨hnodup, -, houter⟩ := nodup_plug hplug
  obtain ⟨hpt, hps, -, -, -⟩ := nodup_join hnodup
  have hfresh : f.value ∉ around rest := houter _ (by simp)
  have hsame : ∀ x, x ≠ f.value → (tree.setBal f.value b).bal x = tree.bal x := by
    intro x hx
    simp [hx]
  refine ⟨balanced_join.mpr ⟨?_, ?_, by simpa using right, by simpa using low,
    by simpa using high⟩, fun n hn => hn.congr fun x hx => hsame x fun heq => hfresh (heq ▸ hx)⟩
  · exact state.grown.balanced.congr fun x hx => hsame x fun heq => hpt (heq ▸ hx)
  · exact state.frames.1.congr fun x hx => hsame x fun heq => hps (heq ▸ hx)

theorem Retracing.step :
    ∃ tree' theEnd, avlRetraceStep f.side tree f.value curNode = some (tree', theEnd) ∧
      (theEnd = true → Settles tree tree' (inorder (plug t (f :: rest)))) ∧
      (theEnd = false → tree'.key = tree.key ∧ tree'.links = tree.links ∧
        Retracing tree' (h + 1) f.value (join f.side f.value t f.sibling) rest) := by
  obtain ⟨-, hbal, hlo, hhi, hrest⟩ := state.frames
  obtain ⟨hlinked, hsurround⟩ := state.linked.up state.surround
  have hplug : (inorder (plug (join f.side f.value t f.sibling) rest)).Nodup := state.nodup
  have hheight := state.grown.height
  have hthree : tree.bal f.value = -f.side.sign ∨ tree.bal f.value = 0 ∨
      tree.bal f.value = f.side.sign := by
    cases f.side <;> simp only [Side.sign] <;> omega
  rcases hthree with hlow | heven | hover
  · have hup : f.sibling.height = h + 1 := by
      rw [hlow] at hbal
      cases hf : f.side <;> simp only [hf, Side.sign] at hbal <;> omega
    obtain ⟨hbalanced, haround⟩ := state.store (b := 0) (by simp [hheight, hup]) (by omega)
      (by omega)
    have hsettled : Settled (tree.setBal f.value 0)
        (inorder (plug (join f.side f.value t f.sibling) rest)) := by
      refine settled_plug hplug hlinked (by rwa [top_join]) hbalanced (haround _ ?_)
      rw [height_join, hheight]
      rwa [show max (h + 1) f.sibling.height = max h f.sibling.height by omega]
    exact ⟨tree.setBal f.value 0, true, by simp [avlRetraceStep, hlow],
      fun _ => ⟨hsettled, rfl, fun _ _ => ⟨rfl, fun _ => rfl⟩⟩, Bool.noConfusion⟩
  · have hsib : f.sibling.height = h := by
      rw [heven] at hbal
      cases hf : f.side <;> simp only [hf, Side.sign] at hbal <;> omega
    obtain ⟨hbalanced, haround⟩ := state.store (b := f.side.sign)
      (by cases f.side <;> simp only [Side.sign] <;> omega) (by cases f.side <;> decide)
      (by cases f.side <;> decide)
    refine ⟨tree.setBal f.value f.side.sign, false, ?_, Bool.noConfusion, fun _ => ⟨rfl, rfl, ?_⟩⟩
    · have hne : (0 : Int) ≠ -f.side.sign := by
        cases f.side <;> decide
      simp [avlRetraceStep, heven, hne]
    · refine ⟨⟨top_join _ _ _ _, hbalanced, ?_, .inr ?_⟩, haround _ ?_, hlinked, ?_, hplug⟩
      · rw [height_join]
        omega
      · simpa using f.side.sign_ne_zero
      · rwa [hsib, max_self] at hrest
      · rwa [top_join]
  · by_cases outer : 0 ≤ f.side.sign * tree.bal curNode
    · obtain ⟨tree', hstep, hsettles⟩ := state.rotate hover outer
      exact ⟨tree', true, hstep, fun _ => hsettles, Bool.noConfusion⟩
    · obtain ⟨tree', hstep, hsettles⟩ := state.rotateTwice hover (not_le.mp outer)
      exact ⟨tree', true, hstep, fun _ => hsettles, Bool.noConfusion⟩

end

end Retrace

theorem avlRetrace_settles {h : Nat} {curNode : Node}
    (state : Retracing tree h curNode t ctx) (enough : ctx.length < fuel) :
    ∃ tree', avlRetrace fuel tree curNode = some tree' ∧
      Settles tree tree' (inorder (plug t ctx)) := by
  induction ctx generalizing tree h fuel curNode t with
  | nil =>
    obtain ⟨fuel, rfl⟩ : ∃ n, fuel = n + 1 := ⟨fuel - 1, by omega⟩
    have hroot : tree.links.root = some curNode := state.surround.trans state.grown.top
    refine ⟨tree, by simp [avlRetrace, hroot], ?_, rfl, fun _ _ => ⟨rfl, fun _ => rfl⟩⟩
    exact settled_plug state.nodup state.linked state.surround state.grown.balanced trivial
  | cons f rest ih =>
    obtain ⟨fuel, rfl⟩ : ∃ n, fuel = n + 1 := ⟨fuel - 1, by omega⟩
    have hfresh : curNode ∉ around (f :: rest) :=
      (nodup_plug state.nodup).2.2 curNode (top_mem state.grown.top)
    obtain ⟨x, hx, hroot⟩ := state.surround.root_mem (cons_ne_nil f rest)
    have hnotRoot : tree.links.root ≠ some curNode := by
      rw [hroot]
      rintro ⟨rfl⟩
      exact hfresh hx
    have hparent : tree.links.parent curNode = some f.value :=
      state.linked.parent_top state.grown.top
    have hside : (if tree.links.child .left f.value = some curNode then Side.left else .right) =
        f.side := by
      have hleft := (state.grown.top ▸ state.surround).left_iff hfresh
      cases hf : f.side <;> simp [hleft, hf]
    obtain ⟨tree', theEnd, hstep, hend, hmore⟩ := state.step
    cases theEnd with
    | true =>
      refine ⟨tree', ?_, hend rfl⟩
      simp [avlRetrace, hnotRoot, hparent, hside, hstep]
    | false =>
      obtain ⟨hkey, hlinks, state'⟩ := hmore rfl
      obtain ⟨tree'', hloop, hsettled, hkey', houtside⟩ :=
        ih state' (Nat.lt_of_succ_lt_succ enough)
      refine ⟨tree'', ?_, hsettled, hkey'.trans hkey, hlinks ▸ houtside⟩
      simp [avlRetrace, hnotRoot, hparent, hside, hstep, hloop]

/-! ## Insertion and search -/

def AvlTree.keyOf (tree : AvlTree Node) (node : Node) : Nat := (tree.key node).toNat

/-- The nodes `xs`, in the order of their keys, form a balanced tree. -/
structure Valid (tree : AvlTree Node) (xs : List Node) : Prop where
  settled : Settled tree xs
  sorted : Sorted tree.keyOf xs

theorem Valid.unique {xs ys : List Node} (h : Valid tree xs)
    (h' : Valid tree ys) : xs = ys := by
  obtain ⟨t, represents, -, rfl⟩ := h.settled
  obtain ⟨t', represents', -, rfl⟩ := h'.settled
  rw [represents.unique represents']

variable {new : Node} {ctor : AvlNodeCtor Node Memory} {memory memory' : Memory}

theorem avlBasicInsert_valid (represents : Represents tree.links t) (balanced : Balanced tree.bal t)
    (sorted : Sorted tree.keyOf (inorder t)) (made : ctor memory = some (new, memory'))
    (fresh : new ∉ inorder t) (enough : (inorder t).length < fuel) (key : AvlKeyType)
    (ctx : List (Frame Node)) (here : plug .nil ctx = t)
    (between : Between tree.keyOf key.toNat ctx) :
    ∃ tree', avlBasicInsert fuel ctor memory tree (slot ctx) (above ctx) key =
        some (tree', new, memory') ∧
      tree'.key = update tree.key new key ∧
      Valid tree' (before ctx ++ new :: after ctx) ∧
      Outside (before ctx ++ new :: after ctx) tree.links tree'.links := by
  subst here
  have hfresh : new ∉ around ctx := fun hmem => fresh (mem_inorder_plug.mpr (.inr hmem))
  obtain ⟨-, hctx, -⟩ := nodup_plug represents.nodup
  obtain ⟨-, hsurround⟩ := linked_plug.mp ⟨represents.root, represents.linked⟩
  let start : AvlTree Node :=
    { tree.zeroed new with
      links := ((tree.zeroed new).links.set (slot ctx) (some new)).setParent new (above ctx)
      key := update (tree.zeroed new).key new key }
  have hne : ∀ x ∈ around ctx, x ≠ new := fun x hx heq => hfresh (heq ▸ hx)
  have hbal : ∀ x ∈ around ctx, start.bal x = tree.bal x := by
    intro x hx
    simp [start, AvlTree.zeroed, hne x hx]
  have state : Retracing start 0 new (.node new .nil .nil) ctx := by
    have hslot : ∀ side, slot ctx ≠ .child side new := fun side heq => hfresh (slot_mem heq)
    refine ⟨⟨rfl, ⟨trivial, trivial, ?_⟩, rfl, .inl rfl⟩, ?_, ?_, ?_, ?_⟩
    · simp [start, AvlTree.zeroed]
    · exact (balanced_plug.mp balanced).2.congr hbal
    · refine ⟨by simp [start], ?_, ?_, trivial, trivial⟩
      · simp [start, AvlTree.zeroed, hslot, top]
      · simp [start, AvlTree.zeroed, hslot, top]
    · refine hsurround.refill hctx ?_ (fun hroot => ?_) (fun x hx => ?_) (fun x hx side hx' => ?_)
      · cases hs : slot ctx with
        | root | child _ _ => simp [start, Links.get, top, hs]
      · simp [start, AvlTree.zeroed, hroot]
      · simp [start, AvlTree.zeroed, hne x hx]
      · simp [start, AvlTree.zeroed, hne x hx, hx']
    · rw [inorder_plug_leaf, nodup_middle, nodup_cons, ← inorder_plug_nil]
      exact ⟨fresh, represents.nodup⟩
  have hlength : ctx.length < fuel := by
    rw [inorder_plug_nil] at enough
    exact (length_le_around ctx).trans_lt enough
  obtain ⟨tree', hretrace, hsettled, hkey, houtside⟩ := avlRetrace_settles state hlength
  have hstart : start.key = update tree.key new key := by
    simp [start, AvlTree.zeroed]
  rw [hstart] at hkey
  rw [inorder_plug_leaf] at hsettled houtside
  refine ⟨tree', ?_, hkey, ⟨hsettled, ?_⟩, Outside.trans ?_ houtside⟩
  · have hlinked : ¬(slot ctx ≠ .root ∧ above ctx = none) := by
      cases ctx <;> simp [slot, above]
    simp only [start] at hretrace
    simp [avlBasicInsert, made, hlinked, hretrace]
  · rw [← inorder_plug_leaf]
    refine between.insert sorted ?_ fun x hx => ?_
    · simp [AvlTree.keyOf, hkey]
    · simp [AvlTree.keyOf, hkey, hne x hx]
  · intro x hx
    rw [← inorder_plug_leaf, mem_inorder_plug] at hx
    simp only [inorder, nil_append, mem_singleton, not_or] at hx
    have hslot : ∀ side, slot ctx ≠ .child side x := fun side heq => hx.2 (slot_mem heq)
    simp [start, AvlTree.zeroed, hx.1, hslot]

/-- The search of the subtree `t` ends at the key, or at the empty link where it belongs. -/
def SearchEnds (tree : AvlTree Node) (key : AvlKeyType) (fuel : Nat) (node : Node)
    (t : BinaryTree Node) (ctx : List (Frame Node)) : Prop :=
  (∃ found ∈ inorder t, tree.key found = key ∧
    avlSearch tree key fuel node = some (found, none)) ∨
  (∃ ctx' found side, plug .nil ctx' = plug t ctx ∧ slot ctx' = .child side found ∧
    Between tree.keyOf key.toNat ctx' ∧ avlSearch tree key fuel node = some (found, some side))

section Search

variable {key : AvlKeyType}

theorem SearchEnds.descend {a : Node} {near far : BinaryTree Node}
    (child : tree.links.child side a = top near)
    (between : Between tree.keyOf key.toNat (⟨side, a, far⟩ :: ctx))
    (onward : ∀ next, top near = some next →
      avlSearch tree key (fuel + 1) a = avlSearch tree key fuel next)
    (stop : top near = none → avlSearch tree key (fuel + 1) a = some (a, some side))
    (below : ∀ next, top near = some next →
      SearchEnds tree key fuel next near (⟨side, a, far⟩ :: ctx)) :
    SearchEnds tree key (fuel + 1) a (join side a near far) ctx := by
  cases htop : top near with
  | none =>
    cases near with
    | nil => exact .inr ⟨⟨side, a, far⟩ :: ctx, a, side, rfl, rfl, between, stop htop⟩
    | node b l r => cases htop
  | some next =>
    have hsearch := onward next htop
    rcases below next htop with ⟨found, hmem, hkey, hfound⟩ | ⟨ctx', found, side', hplug, hrest⟩
    · exact .inl ⟨found, by simp [hmem], hkey, hsearch.trans hfound⟩
    · obtain ⟨hslot, hbetween, hempty⟩ := hrest
      exact .inr ⟨ctx', found, side', hplug, hslot, hbetween, hsearch.trans hempty⟩

theorem avlSearch_ends {a : Node}
    (linked : Linked tree.links (above ctx) t) (htop : top t = some a)
    (sorted : Sorted tree.keyOf (inorder (plug t ctx)))
    (between : Between tree.keyOf key.toNat ctx) (enough : t.height ≤ fuel) :
    SearchEnds tree key fuel a t ctx := by
  induction t generalizing ctx fuel a with
  | nil => cases htop
  | node b l r ihl ihr =>
    obtain rfl : b = a := Option.some.inj htop
    simp only [BinaryTree.height] at enough
    obtain ⟨fuel, rfl⟩ : ∃ n, fuel = n + 1 := ⟨fuel - 1, by omega⟩
    obtain ⟨-, hleft, hright, hl, hr⟩ := linked
    by_cases less : key < tree.key b
    · have hbetween := between.left sorted (UInt32.lt_iff_toNat_lt.mp less)
      refine SearchEnds.descend hleft hbetween (fun next htop => ?_) (fun htop => ?_)
        (fun next htop => ihl hl htop sorted hbetween (by omega))
      · simp [avlSearch, less, hleft, htop]
      · simp [avlSearch, less, hleft, htop]
    · by_cases greater : key > tree.key b
      · have hbetween := between.right sorted (UInt32.lt_iff_toNat_lt.mp greater)
        refine SearchEnds.descend hright hbetween (fun next htop => ?_) (fun htop => ?_)
          (fun next htop => ihr hr htop sorted hbetween (by omega))
        · simp [avlSearch, less, greater, hright, htop]
        · simp [avlSearch, less, greater, hright, htop]
      · have hkey : tree.key b = key :=
          UInt32.le_antisymm (UInt32.not_lt.mp less) (UInt32.not_lt.mp greater)
        exact .inl ⟨b, by simp [inorder], hkey, by simp [avlSearch, hkey]⟩

end Search

section Find

variable {xs : List Node} {key : AvlKeyType}

theorem between_nil (key : Node → Nat) (k : Nat) : Between key k [] := ⟨nofun, nofun⟩

theorem SearchEnds.root (key : AvlKeyType) (represents : Represents tree.links t)
    (sorted : Sorted tree.keyOf (inorder t)) (enough : (inorder t).length < fuel) {root : Node}
    (htop : top t = some root) :
    tree.links.root = some root ∧ SearchEnds tree key fuel root t [] :=
  ⟨represents.root.trans htop, avlSearch_ends represents.linked htop sorted (between_nil _ _)
    ((height_le_length t).trans enough.le)⟩

theorem avlFind_present (valid : Valid tree xs) {node : Node} (here : node ∈ xs)
    (hkey : tree.key node = key) (enough : xs.length < fuel) (ctor : AvlNodeCtor Node Memory)
    (memory : Memory) : avlFind fuel ctor memory tree key = some (tree, node, memory) ∧
      avlFindNoinsert fuel tree key = some (some node) := by
  obtain ⟨t, represents, -, rfl⟩ := valid.settled
  cases htop : top t with
  | none =>
    cases t with
    | nil => cases here
    | node b l r => cases htop
  | some root =>
    obtain ⟨hroot, hends⟩ := SearchEnds.root key represents valid.sorted enough htop
    rcases hends with ⟨found, hmem, hfound, hsearch⟩ | ⟨ctx', found, side, hplug, -, hbetween, -⟩
    · have hsame : found = node :=
        valid.sorted.unique hmem here (by simp [AvlTree.keyOf, hfound, hkey])
      simp [avlFind, avlFindNoinsert, hroot, hsearch, hsame]
    · refine absurd (congrArg UInt32.toNat hkey) (hbetween.absent node ?_)
      rw [hplug]
      exact here

theorem avlFind_absent (valid : Valid tree xs) (made : ctor memory = some (new, memory'))
    (fresh : new ∉ xs)
    (absent : ∀ node ∈ xs, tree.key node ≠ key) (enough : xs.length < fuel) :
    avlFindNoinsert fuel tree key = some none ∧
      ∃ tree' front back, avlFind fuel ctor memory tree key = some (tree', new, memory') ∧
        xs = front ++ back ∧ tree'.key = update tree.key new key ∧
        Valid tree' (front ++ new :: back) ∧
        Outside (front ++ new :: back) tree.links tree'.links := by
  obtain ⟨t, represents, balanced, rfl⟩ := valid.settled
  have insert := avlBasicInsert_valid represents balanced valid.sorted made fresh enough key
  cases htop : top t with
  | none =>
    have hroot : tree.links.root = none := represents.root.trans htop
    cases t with
    | node b l r => cases htop
    | nil =>
      obtain ⟨tree', hinsert, hkey, hvalid⟩ := insert [] rfl (between_nil _ _)
      refine ⟨by simp [avlFindNoinsert, hroot], tree', [], [], ?_, rfl, hkey, hvalid⟩
      simp only [avlFind, hroot]
      exact hinsert
  | some root =>
    obtain ⟨hroot, hends⟩ := SearchEnds.root key represents valid.sorted enough htop
    rcases hends with ⟨found, hmem, hfound, -⟩ | ⟨ctx, found, side, hplug, hslot, hbetween, hsearch⟩
    · exact absurd hfound (absent found hmem)
    · obtain ⟨tree', hinsert, hkey, hvalid⟩ := insert ctx hplug hbetween
      rw [hslot, above_of_slot hslot] at hinsert
      refine ⟨by simp [avlFindNoinsert, hroot, hsearch], tree', before ctx, after ctx, ?_, ?_,
        hkey, hvalid⟩
      · simp [avlFind, hroot, hsearch, hinsert]
      · rw [← inorder_plug_nil, hplug]
        rfl

theorem avlFind_full {memory : Memory}
    (absent : avlFindNoinsert fuel tree key = some none) (full : ctor memory = none) :
    avlFind fuel ctor memory tree key = none := by
  cases hroot : tree.links.root with
  | none => simp [avlFind, hroot, avlBasicInsert, full]
  | some root =>
    cases hsearch : avlSearch tree key fuel root with
    | none => simp [avlFind, hroot, hsearch]
    | some found =>
      obtain ⟨node, _ | side⟩ := found
      · simp [avlFindNoinsert, hroot, hsearch] at absent
      · simp [avlFind, hroot, hsearch, avlBasicInsert, full]

end Find

/-! ## Whole runs -/

/-- A tree with the keys that were searched and the nodes that were returned. -/
abbrev State (Node : Type) := AvlTree Node × Finset AvlKeyType × Finset Node

/-- A constructor that has the node `new` to return. -/
def oneNode (new : Node) : AvlNodeCtor Node Unit := fun _ => some (new, ())

/-- One call of `avl_find`. The constructor returns a node that is not in the tree yet. -/
inductive Step : State Node → State Node → Prop
  | avlFind {tree tree' keys nodes new key node fuel} (fresh : new ∉ nodes)
      (enough : nodes.card < fuel)
      (returned : avlFind fuel (oneNode new) () tree key = some (tree', node, ())) :
      Step (tree, keys, nodes) (tree', insert key keys, insert node nodes)

/-- The nodes are exactly those of a valid tree, and their keys are those searched. -/
structure Holds (tree : AvlTree Node) (keys : Finset AvlKeyType) (nodes : Finset Node) :
    Prop where
  valid : ∃ xs, Valid tree xs ∧ xs.toFinset = nodes
  keys : nodes.image tree.key = keys

theorem Valid.length_eq {xs : List Node} (valid : Valid tree xs) :
    xs.length = xs.toFinset.card := by
  obtain ⟨t, represents, -, rfl⟩ := valid.settled
  exact (toFinset_card_of_nodup represents.nodup).symm

theorem holds_init (tree : AvlTree Node) : Holds (avlInit tree) ∅ ∅ where
  valid := ⟨[], ⟨⟨.nil, ⟨rfl, trivial, nodup_nil⟩, trivial, rfl⟩, List.Pairwise.nil⟩, rfl⟩
  keys := rfl

theorem avlFind_holds {keys : Finset AvlKeyType} {nodes : Finset Node}
    (holds : Holds tree keys nodes) (fresh : new ∉ nodes) (key : AvlKeyType)
    (enough : nodes.card < fuel) :
    ∃ tree' node, avlFind fuel (oneNode new) () tree key = some (tree', node, ()) ∧
      tree'.key node = key ∧ (∀ n ∈ nodes, tree'.key n = tree.key n) ∧
      Holds tree' (insert key keys) (insert node nodes) ∧
      (key ∈ keys → tree' = tree ∧ node ∈ nodes ∧
        avlFindNoinsert fuel tree key = some (some node)) ∧
      (key ∉ keys → node = new ∧ avlFindNoinsert fuel tree key = some none) := by
  obtain ⟨⟨xs, valid, rfl⟩, rfl⟩ := holds
  rw [← valid.length_eq] at enough
  by_cases present : ∃ node ∈ xs, tree.key node = key
  · obtain ⟨node, here, hkey⟩ := present
    obtain ⟨hfind, hnoinsert⟩ := avlFind_present valid here hkey enough (oneNode new) ()
    have hmem : key ∈ (xs.toFinset.image tree.key) :=
      Finset.mem_image.mpr ⟨node, mem_toFinset.mpr here, hkey⟩
    refine ⟨tree, node, hfind, hkey, fun _ _ => rfl, ?_,
      fun _ => ⟨rfl, mem_toFinset.mpr here, hnoinsert⟩, fun habsent => absurd hmem habsent⟩
    rw [Finset.insert_eq_of_mem hmem, Finset.insert_eq_of_mem (mem_toFinset.mpr here)]
    exact ⟨⟨xs, valid, rfl⟩, rfl⟩
  · have absent : ∀ node ∈ xs, tree.key node ≠ key :=
      fun node here hkey => present ⟨node, here, hkey⟩
    have hfresh : new ∉ xs := fun hmem => fresh (mem_toFinset.mpr hmem)
    obtain ⟨hnoinsert, tree', front, back, hfind, rfl, hkey, hvalid, -⟩ :=
      avlFind_absent valid (rfl : oneNode new () = some (new, ())) hfresh absent enough
    have hmissing : key ∉ ((front ++ back).toFinset.image tree.key) := by
      simp only [Finset.mem_image, mem_toFinset, not_exists, not_and]
      exact absent
    have hold : ∀ n ∈ (front ++ back).toFinset, tree'.key n = tree.key n := by
      intro n hn
      have hne : n ≠ new := fun heq => fresh (heq ▸ hn)
      simp [hkey, hne]
    have hnew : tree'.key new = key := by simp [hkey]
    refine ⟨tree', new, hfind, hnew, hold, ?_, fun hmem => absurd hmem hmissing,
      fun _ => ⟨rfl, hnoinsert⟩⟩
    refine ⟨⟨front ++ new :: back, hvalid, ?_⟩, ?_⟩
    · ext n
      simp
    · rw [Finset.image_insert, hnew, Finset.image_congr (fun n hn => hold n hn)]

variable {before after : State Node}

theorem step_holds (step : Step before after)
    (holds : Holds before.1 before.2.1 before.2.2) :
    Holds after.1 after.2.1 after.2.2 ∧ before.2.2 ⊆ after.2.2 ∧
      ∀ n ∈ before.2.2, after.1.key n = before.1.key n := by
  cases step with
  | @avlFind tree tree' keys nodes new key node fuel fresh enough returned =>
    obtain ⟨tree₁, node₁, hfind, -, hold, hholds, -⟩ := avlFind_holds holds fresh key enough
    cases returned.symm.trans hfind
    exact ⟨hholds, Finset.subset_insert _ _, hold⟩

theorem run_holds (run : Relation.ReflTransGen Step before after)
    (holds : Holds before.1 before.2.1 before.2.2) :
    Holds after.1 after.2.1 after.2.2 ∧ before.2.2 ⊆ after.2.2 ∧
      ∀ n ∈ before.2.2, after.1.key n = before.1.key n := by
  induction run with
  | refl => exact ⟨holds, Finset.Subset.refl _, fun _ _ => rfl⟩
  | tail _ step ih =>
    obtain ⟨hholds, hsub, hkey⟩ := ih
    obtain ⟨hholds', hsub', hkey'⟩ := step_holds step hholds
    exact ⟨hholds', hsub.trans hsub', fun n hn => (hkey' n (hsub hn)).trans (hkey n hn)⟩

/-- After any searches the links, parent pointers included, represent a balanced search
tree on exactly the keys searched. A further search returns; it does not change the tree
when the key is present, and then agrees with `avl_find_noinsert`; and the node it returns
is returned for that key ever after. -/
theorem avlFind_runs {start tree : AvlTree Node} {keys : Finset AvlKeyType} {nodes : Finset Node}
    (run : Relation.ReflTransGen Step (avlInit start, ∅, ∅) (tree, keys, nodes)) :
    (∃ t, Represents tree.links t ∧ (inorder t).Pairwise (fun a b => tree.key a < tree.key b) ∧
      Balanced tree.bal t ∧ (inorder t).toFinset = nodes ∧ nodes.image tree.key = keys) ∧
    (∀ new ∉ nodes, ∀ key fuel, nodes.card < fuel →
      ∃ tree' node, avlFind fuel (oneNode new) () tree key = some (tree', node, ()) ∧
        tree'.key node = key ∧
        (key ∈ keys → tree' = tree ∧ avlFindNoinsert fuel tree key = some (some node)) ∧
        ∀ later, Relation.ReflTransGen Step (tree', insert key keys, insert node nodes) later →
          ∀ new' fuel', later.2.2.card < fuel' →
            avlFind fuel' (oneNode new') () later.1 key = some (later.1, node, ())) := by
  have holds : Holds tree keys nodes := (run_holds run (holds_init start)).1
  refine ⟨?_, ?_⟩
  · obtain ⟨⟨xs, valid, rfl⟩, rfl⟩ := holds
    obtain ⟨t, represents, balanced, rfl⟩ := valid.settled
    exact ⟨t, represents, valid.sorted.imp UInt32.lt_iff_toNat_lt.mpr, balanced, rfl, rfl⟩
  · intro new fresh key fuel enough
    obtain ⟨tree', node, hfind, hkey, -, holds', hpresent, -⟩ :=
      avlFind_holds holds fresh key enough
    refine ⟨tree', node, hfind, hkey, fun hmem => ?_, fun later hrun new' fuel' enough' => ?_⟩
    · obtain ⟨hsame, -, hnoinsert⟩ := hpresent hmem
      exact ⟨hsame, hnoinsert⟩
    · obtain ⟨⟨⟨xs, valid, hxs⟩, -⟩, hsub, hold⟩ := run_holds hrun holds'
      have hmem : node ∈ insert node nodes := Finset.mem_insert_self _ _
      rw [← hxs, ← valid.length_eq] at enough'
      exact (avlFind_present valid (mem_toFinset.mp (hxs ▸ hsub hmem))
        ((hold node hmem).trans hkey) enough' (oneNode new') ()).1

/-- Three ascending keys, the third of which rotates the tree. -/
theorem avlFind_runs_three : ∃ tree : AvlTree (Fin 3), tree.links.root = some 1 ∧
    ∃ t, Represents tree.links t ∧ Balanced tree.bal t := by
  let start : AvlTree (Fin 3) := ⟨⟨none, fun _ _ => none, fun _ => none⟩, fun _ => 0, fun _ => 0⟩
  have first := Relation.ReflTransGen.single
    (@Step.avlFind _ _ (avlInit start) _ ∅ ∅ 0 10 _ 1 (by decide) (by decide) rfl)
  have second := first.tail (@Step.avlFind _ _ _ _ _ _ 1 20 _ 2 (by decide) (by decide) rfl)
  have run := second.tail (@Step.avlFind _ _ _ _ _ _ 2 30 _ 3 (by decide) (by decide) rfl)
  obtain ⟨⟨t, represents, -, balanced, -⟩, -⟩ := avlFind_runs run
  exact ⟨_, rfl, t, represents, balanced⟩

end Avl
