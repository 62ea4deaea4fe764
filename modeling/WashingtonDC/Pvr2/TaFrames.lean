import WashingtonDC.Pvr2.Ta

/-!
# Frames of the tile accelerator

A frame submits display lists of polygon groups. What it should draw is one set of triangles for
each group of a list that is not a modifier volume, with the parameters of the header of the group.

The vertices of a modifier volume are put into the same buffer, and the start of the current group
is not moved when a list is opened. The last group of a modifier volume is therefore drawn with the
first group of the next list. The frame is drawn as it should be exactly if no list is drawn while
such vertices are left over.
-/
namespace Pvr2

open DeviceEvents (DisplayList)

/-! ## What a frame consists of -/

section
variable {ϕ κ : Type}

def triangles : List (Vert ϕ) → List (Vert ϕ)
  | a :: b :: c :: verts => a :: b :: c :: triangles (b :: c :: verts)
  | _ => []

structure TriStrip (ϕ : Type) where
  verts : List (PktVtx ϕ)
  long : 3 ≤ verts.length

def stripPackets : List (PktVtx ϕ) → List (Pkt ϕ)
  | [] => []
  | [v] => [.vtx { v with endOfStrip := true }]
  | v :: w :: vs => .vtx { v with endOfStrip := false } :: stripPackets (w :: vs)

/-- A header of triangle strips, and the strips. -/
structure Group (ϕ : Type) where
  hdr : PktHdr ϕ
  strips : List (TriStrip ϕ)
  tp : hdr.tp = .triangleStrip
  src : hdr.srcBlendFactor < 8
  dst : hdr.dstBlendFactor < 8

def Group.packets (g : Group ϕ) : List (Pkt ϕ) :=
  .hdr g.hdr :: g.strips.flatMap fun s => stripPackets s.verts

def Group.verts (ops : FloatOps ϕ) (g : Group ϕ) : List (Vert ϕ) :=
  g.strips.flatMap fun s => triangles (s.verts.map ops.toVert)

/-- A display list and its groups. -/
structure Submission (ϕ : Type) where
  list : DisplayList
  groups : List (Group ϕ)
  valid : list ∈ Ta.dispLists
  same : ∀ g ∈ groups, g.hdr.list = list

def Submission.packets (s : Submission ϕ) : List (Pkt ϕ) :=
  s.groups.flatMap Group.packets ++ [.endOfList]

def Submission.verts (ops : FloatOps ϕ) (s : Submission ϕ) : List (Vert ϕ) :=
  s.groups.flatMap (Group.verts ops)

def Submission.instCount (s : Submission ϕ) : Nat :=
  if isModifier s.list then 0 else 3 * s.groups.length

/-- The lists of a frame are different, and they fit into the buffers. -/
structure Frame (ops : FloatOps ϕ) where
  lists : List (Submission ϕ)
  distinct : (lists.map Submission.list).Nodup
  vertRoom : (lists.flatMap (Submission.verts ops)).length ≤ vertBufLen
  instRoom : (lists.map Submission.instCount).foldr (· + ·) 0 ≤ gfxIlInstBufLen

def Frame.packets {ops : FloatOps ϕ} (f : Frame ops) : List (Pkt ϕ) :=
  f.lists.flatMap Submission.packets

/-! ## What it should draw -/

structure Draw (ϕ : Type) where
  param : RendParam
  blend : Bool
  verts : List (Vert ϕ)

def Draw.cmds (d : Draw ϕ) : List (RendCmd ϕ) :=
  [.setRendParam d.param, .setBlendEnable d.blend, .drawArray d.verts]

def PktHdr.rendParam (h : PktHdr ϕ) (tex : Option Nat) : RendParam :=
  ⟨tex, h.texInst, h.texFilter, h.texWrapMode, h.srcBlendFactor, h.dstBlendFactor,
    h.enableDepthWrites, h.depthFunc⟩

/-- The parameters with the texture that the cache has for the header, if there is one. -/
def resolve (textures : Textures κ) (k : κ) (h : PktHdr ϕ) : Option (κ × RendParam) :=
  if h.texEnable then (textures.lookup k h.tex).map fun r => (r.1, h.rendParam r.2)
  else some (k, h.rendParam none)

variable (ops : FloatOps ϕ) (textures : Textures κ)

def drawGroups (list : DisplayList) : κ → List (Group ϕ) → Option (κ × List (Draw ϕ))
  | k, [] => some (k, [])
  | k, g :: gs => do
    let (k, param) ← resolve textures k g.hdr
    let (k, ds) ← drawGroups list k gs
    return (k, ⟨param, list = .transList, g.verts ops⟩ :: ds)

def drawLists : κ → List (Submission ϕ) → Option (κ × (DisplayList → List (Draw ϕ)))
  | k, [] => some (k, fun _ => [])
  | k, s :: ss => do
    let (k, ds) ← drawGroups ops textures s.list k s.groups
    let (k, rest) ← drawLists k ss
    return (k, Function.update rest s.list (if isModifier s.list then [] else ds))

/-- The texture cache after a frame, and its drawing commands, list by list. -/
def Frame.expected {ops : FloatOps ϕ} (f : Frame ops) (textures : Textures κ) (k : κ) :
    Option (κ × List (RendCmd ϕ)) :=
  (drawLists ops textures k f.lists).map fun r =>
    (r.1, Ta.dispLists.flatMap fun list => (r.2 list).flatMap Draw.cmds)

end

/-! ## What is left over -/

section
variable {ϕ : Type} (ops : FloatOps ϕ)

/-- The vertices of the last group, together with those from before if it is the only one. -/
def leftover (left : List (Vert ϕ)) : List (List (Vert ϕ)) → List (Vert ϕ)
  | [] => left
  | verts :: groups => groups.getLastD (left ++ verts)

def Submission.leftover (left : List (Vert ϕ)) (s : Submission ϕ) : List (Vert ϕ) :=
  if isModifier s.list then Pvr2.leftover left (s.groups.map (Group.verts ops))
  else if s.groups.isEmpty then left else []

def Submission.drawn (s : Submission ϕ) : Bool := !isModifier s.list && !s.groups.isEmpty

def Clean : List (Vert ϕ) → List (Submission ϕ) → Prop
  | _, [] => True
  | left, s :: ss => (s.drawn = true → left = []) ∧ Clean (s.leftover ops left) ss

end

def RendCmd.isDrawing {ϕ : Type} : RendCmd ϕ → Bool
  | .setRendParam _ | .setBlendEnable _ | .drawArray _ => true
  | _ => false

def Frame.run {ϕ κ : Type} {ops : FloatOps ϕ} (f : Frame ops) (textures : Textures κ)
    (env : RendEnv ϕ κ) (ta : Ta ϕ κ) : Option (List (RendCmd ϕ) × Ta ϕ κ) := do
  let ta ← f.packets.foldlM (Ta.handlePacket ops textures) ta
  ta.startrender ops env

end Pvr2
