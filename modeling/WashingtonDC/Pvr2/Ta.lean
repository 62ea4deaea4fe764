import WashingtonDC.DeviceEvents

/-!
# The tile accelerator

The part of `pvr2_ta.c` after a packet has been decoded: polygon headers, vertices and the end of a
list, the vertex buffer, the chains of drawing commands of the display lists and their execution.
The type of the floating-point numbers and their operations are parameters, and so are the texture
cache and the render target. The interrupts at the end of a list or a frame are in the module of
the device events, and the statistics are left out.
-/
namespace Pvr2

open DeviceEvents (DisplayList)

/-- The operations on floating-point numbers; `recip` is the quotient of `1.0`. -/
structure FloatOps (ϕ : Type) where
  minusOne : ϕ
  one : ϕ
  add : ϕ → ϕ → ϕ
  sub : ϕ → ϕ → ϕ
  mul : ϕ → ϕ → ϕ
  div : ϕ → ϕ → ϕ
  neg : ϕ → ϕ
  recip : ϕ → ϕ
  lt : ϕ → ϕ → Bool
  isZero : ϕ → Bool

abbrev Rgba (ϕ : Type) := ϕ × ϕ × ϕ × ϕ

abbrev Point (ϕ : Type) := ϕ × ϕ × ϕ

/-- `struct pvr2_ta_vert`. -/
structure Vert (ϕ : Type) where
  pos : Point ϕ
  baseColor : Rgba ϕ
  offsColor : Rgba ϕ
  texCoord : ϕ × ϕ
deriving DecidableEq

/-- The words of a vertex packet when it belongs to a sprite. -/
structure Quad (ϕ : Type) where
  p1 : Point ϕ
  p2 : Point ϕ
  p3 : Point ϕ
  p4 : ϕ × ϕ
  uv0 : ϕ × ϕ
  uv1 : ϕ × ϕ
  uv2 : ϕ × ϕ

/-- `struct pvr2_pkt_vtx`, with the words of the packet itself. -/
structure PktVtx (ϕ : Type) where
  baseColor : Rgba ϕ
  offsColor : Rgba ϕ
  uv : ϕ × ϕ
  pos : Point ϕ
  endOfStrip : Bool
  quad : Quad ϕ

inductive HdrTp
  | triangleStrip
  | quad
deriving DecidableEq

inductive TexWrapMode
  | texWrapRepeat
  | texWrapFlip
  | texWrapClamp
deriving DecidableEq

/-- The texture of a header, as the texture cache looks for it. -/
structure TexParams where
  texAddr : UInt32
  texPaletteStart : UInt32
  texWidthShift : Nat
  texHeightShift : Nat
  pixFmt : Fin 8
  texTwiddle : Bool
  texVqCompression : Bool
  texMipmap : Bool
  strideSel : Bool

/-- `struct pvr2_pkt_hdr`, as far as it is used after decoding. -/
structure PktHdr (ϕ : Type) where
  tp : HdrTp
  list : DisplayList
  texEnable : Bool
  tex : TexParams
  texInst : Fin 4
  texFilter : Fin 4
  texWrapMode : TexWrapMode × TexWrapMode
  srcBlendFactor : Nat
  dstBlendFactor : Nat
  enableDepthWrites : Bool
  depthFunc : Fin 8
  spriteBaseColor : Rgba ϕ
  spriteOffsColor : Rgba ϕ

inductive Pkt (ϕ : Type)
  | hdr (h : PktHdr ϕ)
  | vtx (v : PktVtx ϕ)
  | endOfList
  | inputList
  | userClip

/-- `struct gfx_rend_param`; there is a texture if it is enabled. -/
structure RendParam where
  tex : Option Nat
  texInst : Fin 4
  texFilter : Fin 4
  texWrapMode : TexWrapMode × TexWrapMode
  srcBlendFactor : Nat
  dstBlendFactor : Nat
  enableDepthWrites : Bool
  depthFunc : Fin 8
deriving DecidableEq

/-- A command in the chain of a display list. The vertices are a part of the vertex buffer. -/
inductive GfxIlInst
  | setRendParam (param : RendParam)
  | setBlendEnable (doEnable : Bool)
  | drawArray (first nVerts : Nat)

/-- What the renderer is given to execute. -/
inductive RendCmd (ϕ : Type)
  | beginRend (width height : Nat) (tgt : Int)
  | setClipRange (clip : ϕ × ϕ)
  | clear (bgcolor : Rgba ϕ)
  | beginDepthSort
  | endDepthSort
  | endRend (tgt : Int)
  | setRendParam (param : RendParam)
  | setBlendEnable (doEnable : Bool)
  | drawArray (verts : List (Vert ϕ))
deriving DecidableEq

/-- `pvr2_tex_cache_find` and, if that fails, `pvr2_tex_cache_add`. The cache may have no place for
the texture, or raise an error. -/
structure Textures (κ : Type) where
  lookup : κ → TexParams → Option (κ × Option Nat)

/-- What a frame is rendered with. The cache may raise an error when it sends its textures, and so
may the choice of the target. -/
structure RendEnv (ϕ κ : Type) where
  width : Nat
  height : Nat
  bgcolor : Rgba ϕ
  depthSort : Bool
  xmit : κ → Option κ
  setRenderTarget : Option Int

structure Strip (ϕ : Type) where
  len : Nat
  vert1 : Vert ϕ
  vert2 : Vert ϕ

/-- `struct pvr2_ta`. -/
structure Ta (ϕ κ : Type) where
  hdr : PktHdr ϕ
  texIdx : Nat
  curList : Option DisplayList
  openGroup : Bool
  listSubmitted : DisplayList → Bool
  strip : Strip ϕ
  clip : ϕ × ϕ
  spriteBaseColor : Rgba ϕ
  spriteOffsColor : Rgba ϕ
  vertBuf : List (Vert ϕ)
  vertCurGroup : Nat
  dispList : DisplayList → List GfxIlInst
  instCount : Nat
  texCache : κ

/-- `PVR2_TA_VERT_BUF_LEN`. -/
def vertBufLen : Nat := 1024 * 1024

/-- `PVR2_GFX_IL_INST_BUF_LEN`. -/
def gfxIlInstBufLen : Nat := 1024 * 256

def isModifier : DisplayList → Bool
  | .opaqueModList | .transModList => true
  | _ => false

namespace FloatOps

variable {ϕ : Type} (ops : FloatOps ϕ)

def widen (clip : ϕ × ϕ) (z : ϕ) : ϕ × ϕ :=
  (if ops.lt z clip.1 then z else clip.1, if ops.lt clip.2 z then z else clip.2)

def toVert (v : PktVtx ϕ) : Vert ϕ :=
  ⟨(v.pos.1, v.pos.2.1, ops.recip v.pos.2.2), v.baseColor, v.offsColor, v.uv⟩

def recipPoint (p : Point ϕ) : Point ϕ := (p.1, p.2.1, ops.recip p.2.2)

def subPoint (p q : Point ϕ) : Point ϕ := (ops.sub p.1 q.1, ops.sub p.2.1 q.2.1, ops.sub p.2.2 q.2.2)

def quadNorm (p1 p2 p3 : Point ϕ) : Point ϕ :=
  let v1 := ops.subPoint p2 p1
  let v2 := ops.subPoint p3 p1
  (ops.sub (ops.mul v1.2.1 v2.2.2) (ops.mul v1.2.2 v2.2.1),
    ops.sub (ops.mul v1.2.2 v2.1) (ops.mul v1.1 v2.2.2),
    ops.sub (ops.mul v1.1 v2.2.1) (ops.mul v1.2.1 v2.1))

def quadHidden (norm : Point ϕ) : Bool :=
  ops.isZero norm.2.2 ||
    ops.isZero (ops.add (ops.add (ops.mul norm.1 norm.1) (ops.mul norm.2.1 norm.2.1))
      (ops.mul norm.2.2 norm.2.2))

def quadDepth (norm p1 : Point ϕ) (p4 : ϕ × ϕ) : ϕ :=
  let dist := ops.sub (ops.sub (ops.mul (ops.neg norm.1) p1.1) (ops.mul norm.2.1 p1.2.1))
    (ops.mul norm.2.2 p1.2.2)
  ops.div (ops.mul ops.minusOne
    (ops.add (ops.add dist (ops.mul norm.1 p4.1)) (ops.mul norm.2.1 p4.2))) norm.2.2

/-- The fourth texture coordinate is the second plus the two sides. -/
def quadUv (uv0 uv1 uv2 : ϕ) : ϕ :=
  ops.add (ops.add uv1 (ops.sub uv0 uv1)) (ops.sub uv2 uv1)

end FloatOps

namespace Ta

variable {ϕ κ : Type}

/-! ## The buffers -/

def pushVert (ta : Ta ϕ κ) (vert : Vert ϕ) : Ta ϕ κ :=
  if vertBufLen ≤ ta.vertBuf.length then ta else { ta with vertBuf := ta.vertBuf ++ [vert] }

def pushVerts (ta : Ta ϕ κ) (verts : List (Vert ϕ)) : Ta ϕ κ := verts.foldl pushVert ta

def pushGfxIl (ta : Ta ϕ κ) (list : DisplayList) (inst : GfxIlInst) : Option (Ta ϕ κ) :=
  if gfxIlInstBufLen ≤ ta.instCount then none
  else some { ta with
    instCount := ta.instCount + 1
    dispList := Function.update ta.dispList list (ta.dispList list ++ [inst]) }

/-! ## Groups -/

def rendParam (ta : Ta ϕ κ) : RendParam where
  tex := if ta.hdr.texEnable then some ta.texIdx else none
  texInst := ta.hdr.texInst
  texFilter := ta.hdr.texFilter
  texWrapMode := ta.hdr.texWrapMode
  srcBlendFactor := ta.hdr.srcBlendFactor
  dstBlendFactor := ta.hdr.dstBlendFactor
  enableDepthWrites := ta.hdr.enableDepthWrites
  depthFunc := ta.hdr.depthFunc

/-- `finish_poly_group` for a group that is drawn. -/
def drawPolyGroup (ta : Ta ϕ κ) (list : DisplayList) : Option (Ta ϕ κ) := do
  let nVerts := ta.vertBuf.length - ta.vertCurGroup
  let ta ← ta.pushGfxIl list (.setRendParam ta.rendParam)
  if 8 ≤ ta.hdr.srcBlendFactor ∨ 8 ≤ ta.hdr.dstBlendFactor then none
  else
    let ta ← ta.pushGfxIl list (.setBlendEnable (list = .transList))
    let ta ← ta.pushGfxIl list (.drawArray ta.vertCurGroup nVerts)
    return { ta with vertCurGroup := ta.vertBuf.length, openGroup := false }

def finishPolyGroup (ta : Ta ϕ κ) (list : DisplayList) : Option (Ta ϕ κ) :=
  if isModifier list then some ta
  else if ta.openGroup then ta.drawPolyGroup list
  else some ta

def nextPolyGroup (ta : Ta ϕ κ) (list : DisplayList) : Option (Ta ϕ κ) := do
  let ta ← if ta.openGroup then ta.finishPolyGroup list else some ta
  return { ta with openGroup := true, vertCurGroup := ta.vertBuf.length }

/-! ## Packets -/

/-- A header opens its list if there is none, and starts a group in the open list otherwise. -/
def enterGroup (ta : Ta ϕ κ) (list : DisplayList) : Option (Ta ϕ κ) :=
  match ta.curList with
  | none =>
    if ta.listSubmitted list then none
    else some { ta with curList := some list, openGroup := true }
  | some cur => do
    let ta ← ta.nextPolyGroup cur
    if cur ≠ list ∧ ta.listSubmitted cur then none else return ta

/-- The texture of the current header; it is disabled if there is no place for it. -/
def selectTexture (textures : Textures κ) (ta : Ta ϕ κ) : Option (Ta ϕ κ) :=
  if ta.hdr.texEnable then
    match textures.lookup ta.texCache ta.hdr.tex with
    | none => none
    | some (texCache, none) =>
      some { ta with texCache, hdr := { ta.hdr with texEnable := false } }
    | some (texCache, some texIdx) => some { ta with texCache, texIdx }
  else some ta

def latchColors (ta : Ta ϕ κ) (hdr : PktHdr ϕ) : Ta ϕ κ :=
  match hdr.tp with
  | .quad => { ta with spriteBaseColor := hdr.spriteBaseColor, spriteOffsColor := hdr.spriteOffsColor }
  | .triangleStrip => ta

def onPktHdrReceived (textures : Textures κ) (ta : Ta ϕ κ) (hdr : PktHdr ϕ) : Option (Ta ϕ κ) := do
  let ta ← (ta.latchColors hdr).enterGroup hdr.list
  { ta with hdr, strip := { ta.strip with len := 0 } }.selectTexture textures

/-- The five lists have an interrupt for their end; for the others there is an error. -/
def onPktEndOfListReceived (ta : Ta ϕ κ) : Option (Ta ϕ κ) :=
  match ta.curList with
  | none => some ta
  | some .list5 | some .list6 | some .list7 => none
  | some list => do
    let ta ← ta.finishPolyGroup list
    return { ta with listSubmitted := Function.update ta.listSubmitted list true, curList := none }

def onQuadReceived (ops : FloatOps ϕ) (ta : Ta ϕ κ) (quad : Quad ϕ) : Ta ϕ κ :=
  let p1 := ops.recipPoint quad.p1
  let p2 := ops.recipPoint quad.p2
  let p3 := ops.recipPoint quad.p3
  let norm := ops.quadNorm p1 p2 p3
  if ops.quadHidden norm then ta
  else
    let p4 : Point ϕ := (quad.p4.1, quad.p4.2, ops.quadDepth norm p1 quad.p4)
    let uv3 := (ops.quadUv quad.uv0.1 quad.uv1.1 quad.uv2.1,
      ops.quadUv quad.uv0.2 quad.uv1.2 quad.uv2.2)
    let vert pos uv : Vert ϕ := ⟨pos, ta.spriteBaseColor, ta.spriteOffsColor, uv⟩
    let vert1 := vert p1 quad.uv0
    let vert3 := vert p3 quad.uv2
    let ta := ta.pushVerts [vert1, vert p2 quad.uv1, vert3, vert1, vert3, vert p4 uv3]
    { ta with clip := [p1, p2, p3, p4].foldl (fun clip p => ops.widen clip p.2.2) ta.clip }

def unstrip (strip : Strip ϕ) (vert : Vert ϕ) : List (Vert ϕ) :=
  if 3 ≤ strip.len then [strip.vert1, strip.vert2, vert] else [vert]

def shiftStrip (strip : Strip ϕ) (vert : Vert ϕ) (endOfStrip : Bool) : Strip ϕ :=
  if endOfStrip then { strip with len := 0 } else ⟨strip.len + 1, strip.vert2, vert⟩

def onPktVtxReceived (ops : FloatOps ϕ) (ta : Ta ϕ κ) (vtx : PktVtx ϕ) : Ta ϕ κ :=
  match ta.hdr.tp with
  | .quad => ta.onQuadReceived ops vtx.quad
  | .triangleStrip =>
    let vert := ops.toVert vtx
    let ta := ta.pushVerts (unstrip ta.strip vert)
    { ta with
      openGroup := true
      clip := ops.widen ta.clip vert.pos.2.2
      strip := shiftStrip ta.strip vert vtx.endOfStrip }

def handlePacket (ops : FloatOps ϕ) (textures : Textures κ) (ta : Ta ϕ κ) :
    Pkt ϕ → Option (Ta ϕ κ)
  | .hdr hdr => ta.onPktHdrReceived textures hdr
  | .vtx vtx => some (ta.onPktVtxReceived ops vtx)
  | .endOfList => ta.onPktEndOfListReceived
  | .inputList | .userClip => some ta

/-! ## Rendering -/

def renderFrameInit (ops : FloatOps ϕ) (ta : Ta ϕ κ) : Ta ϕ κ :=
  { ta with
    vertBuf := []
    vertCurGroup := 0
    openGroup := false
    instCount := 0
    dispList := fun _ => []
    clip := (ops.minusOne, ops.one)
    listSubmitted := fun _ => false
    curList := none }

def fetch (vertBuf : List (Vert ϕ)) : GfxIlInst → RendCmd ϕ
  | .setRendParam param => .setRendParam param
  | .setBlendEnable doEnable => .setBlendEnable doEnable
  | .drawArray first nVerts => .drawArray ((vertBuf.drop first).take nVerts)

def dispLists : List DisplayList :=
  [.opaqueList, .opaqueModList, .transList, .transModList, .punchThroughList]

def execList (ta : Ta ϕ κ) (depthSort : Bool) (list : DisplayList) : List (RendCmd ϕ) :=
  let cmds := (ta.dispList list).map (fetch ta.vertBuf)
  if depthSort = true ∧ list = .transList then .beginDepthSort :: cmds ++ [.endDepthSort] else cmds

/-- The commands of a frame, from setting up the context to tearing it down. -/
def executed (env : RendEnv ϕ κ) (ta : Ta ϕ κ) (tgt : Int) : List (RendCmd ϕ) :=
  [.beginRend env.width env.height tgt, .setClipRange ta.clip, .clear env.bgcolor] ++
    dispLists.flatMap (ta.execList env.depthSort) ++ [.endRend tgt]

/-- `pvr2_ta_startrender`: what is executed, and the state after it. -/
def startrender (ops : FloatOps ϕ) (env : RendEnv ϕ κ) (ta : Ta ϕ κ) :
    Option (List (RendCmd ϕ) × Ta ϕ κ) := do
  let texCache ← env.xmit ta.texCache
  if ta.curList.isSome then none
  else
    let tgt ← env.setRenderTarget
    return (ta.executed env tgt, { ta with texCache }.renderFrameInit ops)

end Ta

end Pvr2
