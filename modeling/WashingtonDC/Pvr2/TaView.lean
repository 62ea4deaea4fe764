import WashingtonDC.Pvr2.TaFrames

/-!
# Packets of the tile accelerator

The accelerator refines a view of its state in which the vertices since the start of the current
group are a list and the chains of the display lists are lists of draws. This is what the strips,
the headers and the end of a list do to the view.
-/
namespace Pvr2

open List Function Option
open DeviceEvents (DisplayList)

variable {ϕ κ : Type} {ops : FloatOps ϕ} {textures : Textures κ}

/-! ## Strips -/

namespace Ta

variable {ta : Ta ϕ κ}

theorem pushVerts_eq {verts : List (Vert ϕ)}
    (room : ta.vertBuf.length + verts.length ≤ vertBufLen) :
    ta.pushVerts verts = { ta with vertBuf := ta.vertBuf ++ verts } := by
  induction verts generalizing ta with
  | nil => rw [append_nil]; rfl
  | cons v verts ih =>
    rw [length_cons] at room
    have hpush : ta.pushVert v = { ta with vertBuf := ta.vertBuf ++ [v] } :=
      if_neg (by omega)
    have hroom : (ta.vertBuf ++ [v]).length + verts.length ≤ vertBufLen := by
      rw [length_append, length_singleton]
      omega
    rw [pushVerts, foldl_cons, hpush]
    refine (ih hroom).trans ?_
    rw [append_assoc, singleton_append]

end Ta

def unstripped (ops : FloatOps ϕ) : Strip ϕ → List (PktVtx ϕ) → List (Vert ϕ)
  | _, [] => []
  | strip, v :: vs =>
    Ta.unstrip strip (ops.toVert v) ++ unstripped ops (Ta.shiftStrip strip (ops.toVert v) false) vs

theorem unstripped_of_long {strip : Strip ϕ} (long : 3 ≤ strip.len) (vs : List (PktVtx ϕ)) :
    unstripped ops strip vs = triangles (strip.vert1 :: strip.vert2 :: vs.map ops.toVert) := by
  induction vs generalizing strip with
  | nil => rfl
  | cons v vs ih =>
    have hshift : 3 ≤ (Ta.shiftStrip strip (ops.toVert v) false).len := Nat.le_succ_of_le long
    rw [unstripped, ih hshift, Ta.unstrip, if_pos long]
    rfl

theorem unstripped_triStrip {strip : Strip ϕ} (start : strip.len = 0) (s : TriStrip ϕ) :
    unstripped ops strip s.verts = triangles (s.verts.map ops.toVert) := by
  obtain ⟨verts, long⟩ := s
  match verts, long with
  | a :: b :: c :: vs, _ =>
    have hthree : 3 ≤ (Ta.shiftStrip (Ta.shiftStrip (Ta.shiftStrip strip (ops.toVert a) false)
        (ops.toVert b) false) (ops.toVert c) false).len := by
      simp [Ta.shiftStrip, start]
    simp only [unstripped]
    rw [unstripped_of_long hthree]
    simp [Ta.unstrip, Ta.shiftStrip, start, triangles]

namespace Ta

variable {ta : Ta ϕ κ}

def added (ops : FloatOps ϕ) (ta : Ta ϕ κ) (v : PktVtx ϕ) (endOfStrip : Bool) : Ta ϕ κ :=
  { ta with
    vertBuf := ta.vertBuf ++ unstrip ta.strip (ops.toVert v)
    openGroup := true
    clip := ops.widen ta.clip (ops.toVert v).pos.2.2
    strip := shiftStrip ta.strip (ops.toVert v) endOfStrip }

theorem handlePacket_vtx {v : PktVtx ϕ} {endOfStrip : Bool} (tp : ta.hdr.tp = .triangleStrip)
    (room : ta.vertBuf.length + (unstrip ta.strip (ops.toVert v)).length ≤ vertBufLen) :
    ta.handlePacket ops textures (.vtx { v with endOfStrip }) =
      some (ta.added ops v endOfStrip) := by
  rw [handlePacket, onPktVtxReceived, tp]
  exact congrArg (fun pushed : Ta ϕ κ => some { pushed with
    openGroup := true
    clip := ops.widen pushed.clip (ops.toVert v).pos.2.2
    strip := shiftStrip pushed.strip (ops.toVert v) endOfStrip }) (pushVerts_eq room)

theorem run_stripPackets (textures : Textures κ) {vs : List (PktVtx ϕ)} (tp : ta.hdr.tp = .triangleStrip) (ne : vs ≠ [])
    (room : ta.vertBuf.length + (unstripped ops ta.strip vs).length ≤ vertBufLen) :
    ∃ strip clip, strip.len = 0 ∧
      (stripPackets vs).foldlM (handlePacket ops textures) ta = some { ta with
        vertBuf := ta.vertBuf ++ unstripped ops ta.strip vs
        openGroup := true
        strip
        clip } := by
  induction vs generalizing ta with
  | nil => exact absurd rfl ne
  | cons v vs ih =>
    rw [unstripped, length_append] at room
    have hfirst : ta.vertBuf.length + (unstrip ta.strip (ops.toVert v)).length ≤ vertBufLen := by
      omega
    cases vs with
    | nil =>
      refine ⟨{ ta.strip with len := 0 }, ops.widen ta.clip (ops.toVert v).pos.2.2, rfl, ?_⟩
      rw [stripPackets, foldlM_cons, handlePacket_vtx tp hfirst, unstripped, unstripped,
        append_nil]
      rfl
    | cons w vs =>
      have hrest : (ta.added ops v false).vertBuf.length +
          (unstripped ops (ta.added ops v false).strip (w :: vs)).length ≤ vertBufLen := by
        simp only [added, length_append]
        omega
      obtain ⟨strip, clip, hlen, hrun⟩ :=
        @ih (ta.added ops v false) tp (cons_ne_nil _ _) hrest
      refine ⟨strip, clip, hlen, ?_⟩
      rw [stripPackets, foldlM_cons, handlePacket_vtx tp hfirst]
      refine hrun.trans ?_
      simp only [added, unstripped, append_assoc]

end Ta

/-! ## The view -/

/-- What has been submitted of a frame. The vertices since the start of the current group are
pending. -/
structure View (ϕ : Type) where
  vertCount : Nat
  instCount : Nat
  submitted : DisplayList → Bool
  pending : List (Vert ϕ)
  draws : DisplayList → List (Draw ϕ)

namespace View

def push (v : View ϕ) (verts : List (Vert ϕ)) : View ϕ :=
  { v with vertCount := v.vertCount + verts.length, pending := v.pending ++ verts }

@[simp] theorem push_vertCount (v : View ϕ) (verts : List (Vert ϕ)) :
    (v.push verts).vertCount = v.vertCount + verts.length := rfl

theorem push_push (v : View ϕ) (verts more : List (Vert ϕ)) :
    (v.push verts).push more = v.push (verts ++ more) := by
  simp only [push, length_append, append_assoc, add_assoc]

/-- The pending vertices are drawn, unless the list is a modifier volume. -/
def finish (v : View ϕ) (list : DisplayList) (param : RendParam) : View ϕ :=
  if isModifier list then v
  else { v with
    instCount := v.instCount + 3
    pending := []
    draws := update v.draws list
      (v.draws list ++ [⟨param, list = .transList, v.pending⟩]) }

theorem finish_submitted (v : View ϕ) (list : DisplayList) (param : RendParam) :
    (v.finish list param).submitted = v.submitted := by
  rw [finish]
  split <;> rfl

def next (v : View ϕ) (list : DisplayList) (param : RendParam) : View ϕ :=
  { v.finish list param with pending := [] }

def close (v : View ϕ) (list : DisplayList) (param : RendParam) : View ϕ :=
  { v.finish list param with submitted := update v.submitted list true }

def InstRoom (v : View ϕ) (list : DisplayList) (groups : Nat) : Prop :=
  isModifier list = false → v.instCount + 3 * groups ≤ gfxIlInstBufLen

end View

namespace Ta

variable {ta : Ta ϕ κ} {v : View ϕ} {k k' : κ} {list : DisplayList} {param param' : RendParam}

/-- The state has this view. The commands of the lists stay what they are when more vertices are
added. -/
structure Shows (ta : Ta ϕ κ) (v : View ϕ) : Prop where
  vertCount : ta.vertBuf.length = v.vertCount
  instCount : ta.instCount = v.instCount
  submitted : ta.listSubmitted = v.submitted
  bound : ta.vertCurGroup ≤ ta.vertBuf.length
  pending : ta.vertBuf.drop ta.vertCurGroup = v.pending
  chains : ∀ l more, (ta.dispList l).map (fetch (ta.vertBuf ++ more)) =
    (v.draws l).flatMap Draw.cmds

/-- No list is open. -/
structure Outside (ta : Ta ϕ κ) (v : View ϕ) (k : κ) : Prop where
  shows : ta.Shows v
  texCache : ta.texCache = k
  curList : ta.curList = none

/-- A group of a list is open. -/
structure Inside (ta : Ta ϕ κ) (v : View ϕ) (k : κ) (list : DisplayList) (param : RendParam) :
    Prop where
  shows : ta.Shows v
  texCache : ta.texCache = k
  curList : ta.curList = some list
  openGroup : ta.openGroup = true
  tp : ta.hdr.tp = .triangleStrip
  src : ta.hdr.srcBlendFactor < 8
  dst : ta.hdr.dstBlendFactor < 8
  param : ta.rendParam = param
  strip : ta.strip.len = 0

theorem Shows.pushVerts (shows : ta.Shows v) (verts : List (Vert ϕ)) :
    { ta with vertBuf := ta.vertBuf ++ verts }.Shows (v.push verts) where
  vertCount := by rw [length_append, shows.vertCount]; rfl
  instCount := shows.instCount
  submitted := shows.submitted
  bound := by
    rw [length_append]
    exact Nat.le_add_right_of_le shows.bound
  pending := by
    rw [drop_append_of_le_length shows.bound, shows.pending]
    rfl
  chains l more := by
    rw [append_assoc]
    exact shows.chains l (verts ++ more)

theorem Inside.strip_packets (inside : ta.Inside v k list param) (ops : FloatOps ϕ)
    (textures : Textures κ) (s : TriStrip ϕ)
    (room : v.vertCount + (triangles (s.verts.map ops.toVert)).length ≤ vertBufLen) :
    ∃ ta', (stripPackets s.verts).foldlM (handlePacket ops textures) ta = some ta' ∧
      ta'.Inside (v.push (triangles (s.verts.map ops.toVert))) k list param := by
  have hne : s.verts ≠ [] := by
    intro h
    have hlong := s.long
    rw [h, length_nil] at hlong
    omega
  rw [← unstripped_triStrip inside.strip, ← inside.shows.vertCount] at room
  obtain ⟨strip, clip, hlen, hrun⟩ := run_stripPackets textures inside.tp hne room
  refine ⟨_, hrun, ?_⟩
  rw [← unstripped_triStrip inside.strip]
  exact ⟨{ inside.shows.pushVerts _ with }, inside.texCache, inside.curList, rfl, inside.tp, inside.src, inside.dst,
    inside.param, hlen⟩

theorem Inside.strips (inside : ta.Inside v k list param) (ops : FloatOps ϕ)
    (textures : Textures κ) (strips : List (TriStrip ϕ))
    (room : v.vertCount +
      (strips.flatMap fun s => triangles (s.verts.map ops.toVert)).length ≤ vertBufLen) :
    ∃ ta', (strips.flatMap fun s => stripPackets s.verts).foldlM (handlePacket ops textures) ta =
        some ta' ∧
      ta'.Inside (v.push (strips.flatMap fun s => triangles (s.verts.map ops.toVert))) k list
        param := by
  induction strips generalizing ta v with
  | nil =>
    refine ⟨ta, rfl, ?_⟩
    rw [flatMap_nil, View.push, append_nil]
    exact inside
  | cons s strips ih =>
    rw [flatMap_cons, length_append] at room
    obtain ⟨ta₁, hrun₁, inside₁⟩ := inside.strip_packets ops textures s (by omega)
    have hroom : (v.push (triangles (s.verts.map ops.toVert))).vertCount +
        (strips.flatMap fun s => triangles (s.verts.map ops.toVert)).length ≤ vertBufLen := by
      rw [View.push_vertCount]
      omega
    obtain ⟨ta₂, hrun₂, inside₂⟩ := ih inside₁ hroom
    refine ⟨ta₂, ?_, ?_⟩
    · rw [flatMap_cons, foldlM_append, hrun₁]
      exact hrun₂
    · rw [View.push_push] at inside₂
      exact inside₂

/-! ## Headers and the end of a list -/

theorem pushGfxIl_eq (inst : GfxIlInst) (room : ta.instCount < gfxIlInstBufLen) :
    ta.pushGfxIl list inst = some { ta with
      instCount := ta.instCount + 1
      dispList := update ta.dispList list (ta.dispList list ++ [inst]) } :=
  if_neg (by omega)

def groupInsts (ta : Ta ϕ κ) (list : DisplayList) : List GfxIlInst :=
  [.setRendParam ta.rendParam, .setBlendEnable (list = .transList),
    .drawArray ta.vertCurGroup (ta.vertBuf.length - ta.vertCurGroup)]

theorem drawPolyGroup_eq (src : ta.hdr.srcBlendFactor < 8) (dst : ta.hdr.dstBlendFactor < 8)
    (room : ta.instCount + 3 ≤ gfxIlInstBufLen) :
    ta.drawPolyGroup list = some { ta with
      instCount := ta.instCount + 3
      dispList := update ta.dispList list (ta.dispList list ++ ta.groupInsts list)
      vertCurGroup := ta.vertBuf.length
      openGroup := false } := by
  have hblend : ¬(8 ≤ ta.hdr.srcBlendFactor ∨ 8 ≤ ta.hdr.dstBlendFactor) := by omega
  rw [drawPolyGroup, pushGfxIl_eq _ (by omega)]
  simp only [bind_eq_bind, bind_some, if_neg hblend]
  rw [pushGfxIl_eq _ (by dsimp only; omega)]
  simp only [bind_some]
  rw [pushGfxIl_eq _ (by dsimp only; omega)]
  simp [groupInsts]

theorem Shows.fetch_groupInsts (shows : ta.Shows v) (hparam : ta.rendParam = param)
    (more : List (Vert ϕ)) :
    (ta.groupInsts list).map (fetch (ta.vertBuf ++ more)) =
      Draw.cmds ⟨param, list = .transList, v.pending⟩ := by
  have hverts : ((ta.vertBuf ++ more).drop ta.vertCurGroup).take
      (ta.vertBuf.length - ta.vertCurGroup) = v.pending := by
    rw [drop_append_of_le_length shows.bound, ← shows.pending, ← length_drop,
      take_left]
  simp only [groupInsts, map_cons, map_nil, fetch, hverts, hparam]
  rfl

theorem Inside.finish (inside : ta.Inside v k list param) (room : v.InstRoom list 1) :
    ∃ ta', ta.finishPolyGroup list = some ta' ∧ ta'.Shows (v.finish list param) ∧
      ta'.texCache = k ∧ ta'.curList = some list := by
  rw [finishPolyGroup, View.finish]
  by_cases hmod : isModifier list = true
  · rw [if_pos hmod, if_pos hmod]
    exact ⟨ta, rfl, inside.shows, inside.texCache, inside.curList⟩
  · rw [if_neg hmod, if_neg hmod, if_pos inside.openGroup]
    have hroom := room (Bool.eq_false_iff.mpr hmod)
    rw [← inside.shows.instCount] at hroom
    refine ⟨_, drawPolyGroup_eq inside.src inside.dst hroom, ?_, inside.texCache, inside.curList⟩
    refine { inside.shows with
      instCount := congrArg (· + 3) inside.shows.instCount
      bound := le_rfl
      pending := drop_length
      chains := ?_ }
    intro l more
    by_cases hl : l = list
    · subst hl
      simp only [update_self, map_append, flatMap_append, flatMap_singleton]
      rw [inside.shows.chains, inside.shows.fetch_groupInsts inside.param]
    · simp only [update_of_ne hl]
      exact inside.shows.chains l more

theorem selectTexture_eq (ta : Ta ϕ κ) (res : resolve textures ta.texCache ta.hdr = some (k, param)) :
    ∃ texIdx texEnable, ta.selectTexture textures =
        some { ta with texCache := k, texIdx, hdr := { ta.hdr with texEnable } } ∧
      rendParam { ta with texCache := k, texIdx, hdr := { ta.hdr with texEnable } } = param := by
  rw [resolve] at res
  rw [selectTexture]
  by_cases hen : ta.hdr.texEnable = true
  · rw [if_pos hen] at res ⊢
    obtain ⟨⟨k', tex⟩, hlookup, hres⟩ := map_eq_some_iff.mp res
    cases hres
    rw [hlookup]
    cases tex with
    | none => exact ⟨ta.texIdx, false, rfl, rfl⟩
    | some texIdx =>
      refine ⟨texIdx, true, ?_, rfl⟩
      simp only [← hen]
  · rw [if_neg hen] at res ⊢
    cases res
    refine ⟨ta.texIdx, false, ?_, rfl⟩
    simp only [← Bool.eq_false_iff.mpr hen]

theorem Shows.header (shows : ta.Shows v) (curList : ta.curList = some list)
    (openGroup : ta.openGroup = true) (g : Group ϕ)
    (res : resolve textures ta.texCache g.hdr = some (k, param)) :
    ∃ ta', selectTexture textures { ta with hdr := g.hdr, strip := { ta.strip with len := 0 } } =
        some ta' ∧
      ta'.Inside v k list param := by
  obtain ⟨texIdx, texEnable, hselect, hparam⟩ :=
    selectTexture_eq { ta with hdr := g.hdr, strip := { ta.strip with len := 0 } } res
  exact ⟨_, hselect, { shows with }, rfl, curList, openGroup, g.tp, g.src, g.dst, hparam, rfl⟩

theorem onPktHdrReceived_eq (g : Group ϕ) :
    ta.onPktHdrReceived textures g.hdr = (ta.enterGroup g.hdr.list).bind fun ta =>
      selectTexture textures { ta with hdr := g.hdr, strip := { ta.strip with len := 0 } } := by
  rw [onPktHdrReceived, latchColors, g.tp]
  rfl

theorem Outside.header (outside : ta.Outside v k) (ops : FloatOps ϕ) (fresh : v.submitted list = false) (g : Group ϕ)
    (same : g.hdr.list = list) (res : resolve textures k g.hdr = some (k', param)) :
    ∃ ta', ta.handlePacket ops textures (.hdr g.hdr) = some ta' ∧ ta'.Inside v k' list param := by
  have henter : ta.enterGroup list = some { ta with curList := some list, openGroup := true } := by
    rw [enterGroup, outside.curList]
    dsimp only
    rw [outside.shows.submitted, fresh]
    rfl
  have hshows : Shows { ta with curList := some list, openGroup := true } v :=
    { outside.shows with }
  rw [handlePacket, onPktHdrReceived_eq, same, henter]
  rw [← outside.texCache] at res
  exact hshows.header rfl rfl g res

theorem Inside.header (inside : ta.Inside v k list param) (ops : FloatOps ϕ)
    (room : v.InstRoom list 1) (g : Group ϕ) (same : g.hdr.list = list) (res : resolve textures k g.hdr = some (k', param')) :
    ∃ ta', ta.handlePacket ops textures (.hdr g.hdr) = some ta' ∧
      ta'.Inside (v.next list param) k' list param' := by
  obtain ⟨ta₁, hfinish, shows, htex, hcur⟩ := inside.finish room
  have henter : ta.enterGroup list = some { ta₁ with
      openGroup := true, vertCurGroup := ta₁.vertBuf.length } := by
    rw [enterGroup, inside.curList]
    simp [nextPolyGroup, inside.openGroup, hfinish]
  have hshows : Shows { ta₁ with openGroup := true, vertCurGroup := ta₁.vertBuf.length }
      (v.next list param) :=
    { shows with bound := le_rfl, pending := drop_length }
  rw [handlePacket, onPktHdrReceived_eq, same, henter]
  rw [← htex] at res
  exact hshows.header hcur rfl g res

theorem Inside.endOfList (inside : ta.Inside v k list param) (ops : FloatOps ϕ)
    (textures : Textures κ) (room : v.InstRoom list 1) (valid : list ∈ dispLists) :
    ∃ ta', ta.handlePacket ops textures .endOfList = some ta' ∧
      ta'.Outside (v.close list param) k := by
  obtain ⟨ta₁, hfinish, shows, htex, -⟩ := inside.finish room
  have hend : ta.onPktEndOfListReceived = (ta.finishPolyGroup list).bind fun ta => some { ta with
      listSubmitted := update ta.listSubmitted list true, curList := none } := by
    rw [onPktEndOfListReceived, inside.curList]
    simp only [dispLists, mem_cons, not_mem_nil, or_false] at valid
    rcases valid with rfl | rfl | rfl | rfl | rfl <;> rfl
  rw [handlePacket, hend, hfinish]
  refine ⟨_, rfl, { shows with submitted := ?_ }, htex, rfl⟩
  rw [shows.submitted]
  exact congrArg (fun f => update f list true) (View.finish_submitted v list param)

end Ta

end Pvr2
