import WashingtonDC.Pvr2.TaView

/-!
# Runs of the tile accelerator over a frame

The packets of a frame are followed group by group and list by list, in the view of the state. What
is drawn is then what should be drawn, with the vertices that were left over before the first draw
of each list.
-/
namespace Pvr2

open Function List Option RendCmd
open DeviceEvents (DisplayList)

variable {ϕ κ : Type} {ops : FloatOps ϕ} {textures : Textures κ}

/-! ## Groups and lists -/

namespace View

variable {v : View ϕ} {list : DisplayList} {param : RendParam}

/-- The view after the group that is open, the groups that follow and the end of the list. -/
def groups (v : View ϕ) (list : DisplayList) (param : RendParam) : List (Draw ϕ) → View ϕ
  | [] => v.close list param
  | d :: ds => ((v.next list param).push d.verts).groups list d.param ds

def submit (v : View ϕ) (list : DisplayList) : List (Draw ϕ) → View ϕ
  | [] => v
  | d :: ds => (v.push d.verts).groups list d.param ds

theorem finish_vertCount (v : View ϕ) (list : DisplayList) (param : RendParam) :
    (v.finish list param).vertCount = v.vertCount := by
  rw [finish]
  split <;> rfl

theorem InstRoom.next {n : Nat} (room : v.InstRoom list (n + 1)) :
    (v.next list param).InstRoom list n := by
  intro hmod
  have hroom := room hmod
  rw [View.next, finish, hmod]
  dsimp only [Bool.false_eq_true, if_false]
  rw [if_neg Bool.false_ne_true]
  dsimp only
  omega

theorem InstRoom.one {n : Nat} (room : v.InstRoom list (n + 1)) : v.InstRoom list 1 := by
  intro hmod
  have hroom := room hmod
  omega

end View

/-! ### What the groups of a list draw, and what they leave -/

variable {l : DisplayList}

namespace View

variable (v : View ϕ) (list : DisplayList) (param : RendParam)

theorem groups_draws_of_ne (ds : List (Draw ϕ)) (ne : l ≠ list) :
    (v.groups list param ds).draws l = v.draws l := by
  have hfinish : ∀ (v : View ϕ) param, (v.finish list param).draws l = v.draws l := by
    intro v param
    rw [finish]
    split
    · rfl
    · exact update_of_ne ne _ _
  induction ds generalizing v param with
  | nil => exact hfinish v param
  | cons d ds ih =>
    rw [groups, ih]
    exact hfinish v param

theorem groups_submitted_of_ne (ds : List (Draw ϕ)) (ne : l ≠ list) :
    (v.groups list param ds).submitted l = v.submitted l := by
  induction ds generalizing v param with
  | nil => exact update_of_ne ne _ _
  | cons d ds ih =>
    rw [groups, ih]
    exact congrFun (v.finish_submitted list param) l

theorem groups_counts (ds : List (Draw ϕ)) :
    (v.groups list param ds).vertCount = v.vertCount + (ds.flatMap Draw.verts).length ∧
      (v.groups list param ds).instCount =
        v.instCount + if isModifier list then 0 else 3 * (ds.length + 1) := by
  have hfinish : ∀ (v : View ϕ) param, (v.finish list param).instCount =
      v.instCount + if isModifier list then 0 else 3 := by
    intro v param
    rw [finish]
    split <;> rfl
  induction ds generalizing v param with
  | nil => exact ⟨v.finish_vertCount list param, hfinish v param⟩
  | cons d ds ih =>
    obtain ⟨hverts, hinsts⟩ := ih ((v.next list param).push d.verts) d.param
    have hverts' : ((v.next list param).push d.verts).vertCount = v.vertCount + d.verts.length :=
      congrArg (· + d.verts.length) (v.finish_vertCount list param)
    have hinsts' : ((v.next list param).push d.verts).instCount =
        v.instCount + if isModifier list then 0 else 3 := hfinish v param
    rw [groups, hverts, hinsts, hverts', hinsts', flatMap_cons, length_append,
      length_cons]
    constructor
    · omega
    · split <;> omega

theorem groups_of_modifier (modifier : isModifier list = true) (ds : List (Draw ϕ)) :
    (v.groups list param ds).draws = v.draws ∧
      (v.groups list param ds).pending = (ds.map Draw.verts).getLastD v.pending := by
  have hfinish : ∀ (v : View ϕ) param, v.finish list param = v := fun v param => if_pos modifier
  induction ds generalizing v param with
  | nil =>
    rw [groups, close, hfinish]
    exact ⟨rfl, rfl⟩
  | cons d ds ih =>
    obtain ⟨hdraws, hpending⟩ := ih ((v.next list param).push d.verts) d.param
    rw [groups, hdraws, hpending, push, next, hfinish, map_cons, getLastD_cons,
      nil_append]
    exact ⟨rfl, rfl⟩

theorem groups_of_drawn (drawn : isModifier list = false) {ds : List (Draw ϕ)}
    (blend : ∀ d ∈ ds, d.blend = decide (list = .transList)) :
    (v.groups list param ds).draws list =
        v.draws list ++ ⟨param, list = .transList, v.pending⟩ :: ds ∧
      (v.groups list param ds).pending = [] := by
  have hfinish : ∀ (v : View ϕ) param, (v.finish list param).draws list =
      v.draws list ++ [⟨param, list = .transList, v.pending⟩] ∧
        (v.finish list param).pending = [] := by
    intro v param
    rw [finish, if_neg (by rw [drawn]; exact Bool.false_ne_true)]
    exact ⟨update_self _ _ _, rfl⟩
  induction ds generalizing v param with
  | nil => exact hfinish v param
  | cons d ds ih =>
    rw [forall_mem_cons] at blend
    obtain ⟨hdraws, hpending⟩ := ih ((v.next list param).push d.verts) d.param blend.2
    have hstart : ((v.next list param).push d.verts).draws list =
        v.draws list ++ [⟨param, list = .transList, v.pending⟩] := (hfinish v param).1
    rw [groups, hdraws, hpending, hstart, push, next, nil_append, ← blend.1, append_assoc,
      singleton_append]
    exact ⟨rfl, rfl⟩

end View

def prefixed (left : List (Vert ϕ)) : List (Draw ϕ) → List (Draw ϕ)
  | [] => []
  | d :: ds => { d with verts := left ++ d.verts } :: ds

theorem length_prefixed (left : List (Vert ϕ)) (ds : List (Draw ϕ)) :
    (prefixed left ds).length = ds.length := by
  cases ds <;> rfl

variable {left : List (Vert ϕ)} {ds : List (Draw ϕ)} {s : Submission ϕ} {ss : List (Submission ϕ)}

theorem prefixed_eq_self_iff : prefixed left ds = ds ↔ (ds ≠ [] → left = []) := by
  cases ds with
  | nil => exact iff_of_true rfl fun h => absurd rfl h
  | cons d ds =>
    constructor
    · intro h _
      have hverts : left ++ d.verts = d.verts := congrArg Draw.verts (List.cons.inj h).1
      exact append_left_eq_self.mp hverts
    · intro h
      rw [prefixed, h (cons_ne_nil _ _), nil_append]

/-- The draws are those of the groups of a list. -/
structure DrawsOf (ops : FloatOps ϕ) (s : Submission ϕ) (ds : List (Draw ϕ)) : Prop where
  verts : ds.map Draw.verts = s.groups.map (Group.verts ops)
  blend : ∀ d ∈ ds, d.blend = decide (s.list = .transList)

variable {gs : List (Group ϕ)}

theorem drawGroups_spec {list : DisplayList} {k k' : κ}
    (draws : drawGroups ops textures list k gs = some (k', ds)) :
    ds.map Draw.verts = gs.map (Group.verts ops) ∧
      ∀ d ∈ ds, d.blend = decide (list = .transList) := by
  induction gs generalizing k ds with
  | nil =>
    cases draws
    exact ⟨rfl, fun d hd => absurd hd not_mem_nil⟩
  | cons g gs ih =>
    obtain ⟨⟨k₁, param₁⟩, -, draws⟩ := bind_eq_some_iff.mp draws
    obtain ⟨⟨k₂, ds₁⟩, hrest, hds⟩ := bind_eq_some_iff.mp draws
    cases hds
    obtain ⟨hverts, hblend⟩ := ih hrest
    refine ⟨congrArg _ hverts, ?_⟩
    rw [forall_mem_cons]
    exact ⟨rfl, hblend⟩

/-- What a list does to the view. -/
structure View.Submitted (ops : FloatOps ϕ) (v : View ϕ) (s : Submission ϕ) (ds : List (Draw ϕ))
    (v' : View ϕ) : Prop where
  vertCount : v'.vertCount = v.vertCount + (s.verts ops).length
  instCount : v'.instCount = v.instCount + s.instCount
  submitted : ∀ l, l ≠ s.list → v'.submitted l = v.submitted l
  other : ∀ l, l ≠ s.list → v'.draws l = v.draws l
  draws : v'.draws s.list =
    v.draws s.list ++ if isModifier s.list then [] else prefixed v.pending ds
  pending : v'.pending = s.leftover ops v.pending

theorem View.submit_spec (v : View ϕ) (drawsOf : DrawsOf ops s ds) :
    v.Submitted ops s ds (v.submit s.list ds) := by
  have hverts : ds.flatMap Draw.verts = s.verts ops := by
    rw [Submission.verts, flatMap_def, drawsOf.verts, flatMap_def]
  have hlength : ds.length = s.groups.length := by
    simpa only [length_map] using congrArg List.length drawsOf.verts
  cases ds with
  | nil =>
    have hempty : s.groups = [] := eq_nil_of_length_eq_zero hlength.symm
    refine ⟨?_, ?_, fun _ _ => rfl, fun _ _ => rfl, ?_, ?_⟩
    · rw [← hverts]
      rfl
    · rw [Submission.instCount, hempty]
      simp [submit]
    · simp [submit, prefixed]
    · simp [submit, Submission.leftover, hempty, leftover]
  | cons d ds =>
    obtain ⟨hvc, hic⟩ := (v.push d.verts).groups_counts s.list d.param ds
    rw [submit]
    refine ⟨?_, ?_, fun l hl => groups_submitted_of_ne _ _ _ ds hl,
      fun l hl => groups_draws_of_ne _ _ _ ds hl, ?_, ?_⟩
    · rw [hvc, ← hverts, push_vertCount, flatMap_cons, length_append, add_assoc]
    · rw [hic, Submission.instCount, ← hlength, length_cons]
      rfl
    · cases hmod : isModifier s.list with
      | true =>
        rw [(groups_of_modifier _ _ _ hmod ds).1]
        exact (append_nil _).symm
      | false =>
        have hblend := forall_mem_cons.mp drawsOf.blend
        rw [(groups_of_drawn _ _ _ hmod hblend.2).1, prefixed, hblend.1]
        rfl
    · have hgroups : s.groups.isEmpty = false := by
        cases hgs : s.groups with
        | nil => rw [hgs] at hlength; cases hlength
        | cons g gs => rfl
      rw [Submission.leftover, ← drawsOf.verts, hgroups]
      cases hmod : isModifier s.list with
      | true =>
        rw [(groups_of_modifier _ _ _ hmod ds).2]
        rfl
      | false =>
        rw [(groups_of_drawn _ _ _ hmod (forall_mem_cons.mp drawsOf.blend).2).2]
        rfl

/-! ## Runs -/

theorem Group.foldlM_packets (g : Group ϕ) {ta ta₁ ta₂ ta₃ : Ta ϕ κ} {rest : List (Pkt ϕ)}
    (hdr : ta.handlePacket ops textures (.hdr g.hdr) = some ta₁)
    (strips : (g.strips.flatMap fun s => stripPackets s.verts).foldlM
      (Ta.handlePacket ops textures) ta₁ = some ta₂)
    (run : rest.foldlM (Ta.handlePacket ops textures) ta₂ = some ta₃) :
    (g.packets ++ rest).foldlM (Ta.handlePacket ops textures) ta = some ta₃ := by
  rw [packets, cons_append, foldlM_cons, hdr]
  simp only [bind_eq_bind, bind_some, foldlM_append, strips]
  exact run

namespace Ta

variable {ta : Ta ϕ κ} {v : View ϕ} {k k' : κ} {list : DisplayList} {param : RendParam}

theorem Inside.group (inside : ta.Inside v k list param) (ops : FloatOps ϕ) (textures : Textures κ)
    (g : Group ϕ) (vertRoom : v.vertCount + (g.verts ops).length ≤ vertBufLen) :
    ∃ ta', (g.strips.flatMap fun s => stripPackets s.verts).foldlM (handlePacket ops textures) ta =
        some ta' ∧
      ta'.Inside (v.push (g.verts ops)) k list param :=
  inside.strips ops textures g.strips vertRoom

theorem Inside.groups (inside : ta.Inside v k list param)
    (same : ∀ g ∈ gs, g.hdr.list = list) (valid : list ∈ dispLists)
    (draws : drawGroups ops textures list k gs = some (k', ds))
    (vertRoom : v.vertCount + (gs.flatMap (Group.verts ops)).length ≤ vertBufLen)
    (instRoom : v.InstRoom list (gs.length + 1)) :
    ∃ ta', (gs.flatMap Group.packets ++ [Pkt.endOfList]).foldlM (handlePacket ops textures) ta =
        some ta' ∧
      ta'.Outside (v.groups list param ds) k' := by
  induction gs generalizing ta v k param ds with
  | nil =>
    cases draws
    obtain ⟨ta', hend, outside⟩ := inside.endOfList ops textures instRoom valid
    refine ⟨ta', ?_, outside⟩
    simp [hend]
  | cons g gs ih =>
    obtain ⟨⟨k₁, param₁⟩, hres, draws⟩ := bind_eq_some_iff.mp draws
    obtain ⟨⟨k₂, ds₁⟩, hrest, hds⟩ := bind_eq_some_iff.mp draws
    cases hds
    rw [flatMap_cons, length_append] at vertRoom
    rw [forall_mem_cons] at same
    have hcount : (v.next list param).vertCount = v.vertCount := v.finish_vertCount list param
    obtain ⟨ta₁, hhdr, inside₁⟩ := inside.header ops instRoom.one g same.1 hres
    obtain ⟨ta₂, hstrips, inside₂⟩ := inside₁.group ops textures g (by omega)
    obtain ⟨ta', hrun, outside⟩ := ih inside₂ same.2 hrest
      (by rw [View.push_vertCount]; omega) instRoom.next
    refine ⟨ta', ?_, outside⟩
    rw [flatMap_cons, append_assoc]
    exact g.foldlM_packets hhdr hstrips hrun

theorem Outside.submission (outside : ta.Outside v k) (fresh : v.submitted s.list = false)
    (draws : drawGroups ops textures s.list k s.groups = some (k', ds))
    (vertRoom : v.vertCount + (s.verts ops).length ≤ vertBufLen)
    (instRoom : v.instCount + s.instCount ≤ gfxIlInstBufLen) :
    ∃ ta', s.packets.foldlM (handlePacket ops textures) ta = some ta' ∧
      ta'.Outside (v.submit s.list ds) k' := by
  rw [Submission.packets]
  cases hgs : s.groups with
  | nil =>
    rw [hgs] at draws
    cases draws
    refine ⟨ta, ?_, outside⟩
    simp [handlePacket, onPktEndOfListReceived, outside.curList]
  | cons g gs =>
    rw [hgs] at draws
    obtain ⟨⟨k₁, param₁⟩, hres, draws⟩ := bind_eq_some_iff.mp draws
    obtain ⟨⟨k₂, ds₁⟩, hrest, hds⟩ := bind_eq_some_iff.mp draws
    cases hds
    have hsame := s.same
    rw [hgs, forall_mem_cons] at hsame
    rw [Submission.verts, hgs, flatMap_cons, length_append] at vertRoom
    have hinst : v.InstRoom s.list (gs.length + 1) := by
      intro hmod
      rw [Submission.instCount, hmod, hgs] at instRoom
      exact instRoom
    obtain ⟨ta₁, hhdr, inside₁⟩ := outside.header ops fresh g hsame.1 hres
    obtain ⟨ta₂, hstrips, inside₂⟩ := inside₁.group ops textures g (by omega)
    obtain ⟨ta', hrun, outside'⟩ := inside₂.groups hsame.2 s.valid hrest
      (by rw [View.push_vertCount]; omega) hinst
    refine ⟨ta', ?_, outside'⟩
    rw [flatMap_cons, append_assoc]
    exact g.foldlM_packets hhdr hstrips hrun

variable {draws : DisplayList → List (Draw ϕ)}

theorem drawLists_of_notMem (expected : drawLists ops textures k ss = some (k', draws))
    (notMem : l ∉ ss.map Submission.list) : draws l = [] := by
  induction ss generalizing k draws with
  | nil =>
    cases expected
    rfl
  | cons s ss ih =>
    obtain ⟨⟨k₁, ds⟩, -, expected⟩ := bind_eq_some_iff.mp expected
    obtain ⟨⟨k₂, rest⟩, hrest, hdraws⟩ := bind_eq_some_iff.mp expected
    cases hdraws
    rw [map_cons, mem_cons, not_or] at notMem
    rw [update_of_ne notMem.1]
    exact ih hrest notMem.2

theorem took_eq_iff (drawsOf : DrawsOf ops s ds) :
    (if isModifier s.list then [] else prefixed left ds) =
        (if isModifier s.list then [] else ds) ↔
      (s.drawn = true → left = []) := by
  have hlength : ds.length = s.groups.length := by
    simpa only [length_map] using congrArg List.length drawsOf.verts
  have hempty : ds ≠ [] ↔ s.groups.isEmpty = false := by
    rw [← length_pos_iff, hlength, length_pos_iff, Bool.eq_false_iff, ne_eq, ne_eq,
      List.isEmpty_iff]
  cases hmod : isModifier s.list with
  | true => simp [Submission.drawn, hmod]
  | false => simp [Submission.drawn, hmod, prefixed_eq_self_iff, hempty]

def instTotal (ss : List (Submission ϕ)) : Nat := (ss.map Submission.instCount).foldr (· + ·) 0

theorem Outside.lists (outside : ta.Outside v k) (distinct : (ss.map Submission.list).Nodup)
    (fresh : ∀ s ∈ ss, v.submitted s.list = false)
    (expected : drawLists ops textures k ss = some (k', draws))
    (vertRoom : v.vertCount + (ss.flatMap (Submission.verts ops)).length ≤ vertBufLen)
    (instRoom : v.instCount + instTotal ss ≤ gfxIlInstBufLen) :
    ∃ ta' v', (ss.flatMap Submission.packets).foldlM (handlePacket ops textures) ta = some ta' ∧
      ta'.Outside v' k' ∧ (∀ l, l ∉ ss.map Submission.list → v'.draws l = v.draws l) ∧
      (∀ l, (v'.draws l).length = (v.draws l ++ draws l).length) ∧
      ((∀ l, v'.draws l = v.draws l ++ draws l) ↔ Clean ops v.pending ss) := by
  induction ss generalizing ta v k draws with
  | nil =>
    cases expected
    refine ⟨ta, v, rfl, outside, fun _ _ => rfl, fun l => ?_, ?_⟩
    · rw [append_nil]
    · exact iff_of_true (fun l => (append_nil _).symm) trivial
  | cons s ss ih =>
    obtain ⟨⟨k₁, ds⟩, hds, expected⟩ := bind_eq_some_iff.mp expected
    obtain ⟨⟨k₂, rest⟩, hrest, hdraws⟩ := bind_eq_some_iff.mp expected
    cases hdraws
    rw [flatMap_cons, length_append] at vertRoom
    have hinst : instTotal (s :: ss) = s.instCount + instTotal ss := rfl
    rw [map_cons, nodup_cons] at distinct
    rw [forall_mem_cons] at fresh
    obtain ⟨ta₁, hrun₁, outside₁⟩ := outside.submission fresh.1 hds (by omega) (by omega)
    have drawsOf : DrawsOf ops s ds := ⟨(drawGroups_spec hds).1, (drawGroups_spec hds).2⟩
    have hspec := v.submit_spec drawsOf
    have hfresh : ∀ t ∈ ss, (v.submit s.list ds).submitted t.list = false := by
      intro t ht
      rw [hspec.submitted]
      · exact fresh.2 t ht
      · rintro heq
        exact distinct.1 (heq ▸ List.mem_map_of_mem ht)
    obtain ⟨ta', v', hrun, outside', hkeep, hlength, hclean⟩ := ih outside₁ distinct.2 hfresh hrest
      (by rw [hspec.vertCount]; omega) (by rw [hspec.instCount]; omega)
    have hown : v'.draws s.list = v.draws s.list ++
        if isModifier s.list then [] else prefixed v.pending ds := by
      rw [hkeep _ distinct.1, hspec.draws]
    refine ⟨ta', v', ?_, outside', ?_, ?_, ?_⟩
    · rw [flatMap_cons, foldlM_append, hrun₁]
      exact hrun
    · intro l hl
      rw [map_cons, mem_cons, not_or] at hl
      rw [hkeep l hl.2, hspec.other l hl.1]
    · intro l
      by_cases hl : l = s.list
      · subst hl
        rw [hown, length_append, length_append, update_self]
        split
        · rfl
        · rw [length_prefixed]
      · rw [hlength, length_append, length_append, hspec.other l hl,
          update_of_ne hl]
    · rw [Clean, ← took_eq_iff drawsOf, ← hspec.pending, ← hclean]
      constructor
      · intro h
        refine ⟨?_, fun l => ?_⟩
        · have hlist := h s.list
          rw [hown, update_self] at hlist
          exact append_cancel_left hlist
        · by_cases hl : l = s.list
          · rw [hl, hkeep _ distinct.1, drawLists_of_notMem hrest distinct.1, append_nil]
          · rw [h l, update_of_ne hl, hspec.other l hl]
      · rintro ⟨htook, hothers⟩ l
        by_cases hl : l = s.list
        · rw [hl, hown, update_self, htook]
        · rw [hothers l, update_of_ne hl, hspec.other l hl]

end Ta

/-! ## Rendering -/

theorem filter_fetch (verts : List (Vert ϕ)) (insts : List GfxIlInst) :
    (insts.map (Ta.fetch verts)).filter isDrawing = insts.map (Ta.fetch verts) := by
  rw [filter_eq_self]
  intro cmd hcmd
  obtain ⟨inst, -, rfl⟩ := List.mem_map.mp hcmd
  cases inst <;> rfl

theorem filter_execList (ta : Ta ϕ κ) (depthSort : Bool) (list : DisplayList) :
    (ta.execList depthSort list).filter isDrawing =
      (ta.dispList list).map (Ta.fetch ta.vertBuf) := by
  unfold Ta.execList
  dsimp only
  split
  · rw [cons_append, filter_cons_of_neg Bool.false_ne_true, filter_append,
      filter_fetch, filter_cons_of_neg Bool.false_ne_true, filter_nil, append_nil]
  · exact filter_fetch _ _

theorem flatMap_cmds_inj {es : List (Draw ϕ)} (length : ds.length = es.length) :
    ds.flatMap Draw.cmds = es.flatMap Draw.cmds ↔ ds = es := by
  refine ⟨fun h => ?_, fun h => by rw [h]⟩
  induction ds generalizing es with
  | nil => exact (eq_nil_of_length_eq_zero length.symm).symm
  | cons d ds ih =>
    cases es with
    | nil => cases length
    | cons e es =>
      simp only [flatMap_cons, Draw.cmds, cons_append, nil_append, List.cons.injEq,
        setRendParam.injEq, setBlendEnable.injEq, drawArray.injEq] at h
      obtain ⟨hparam, hblend, hverts, hrest⟩ := h
      have hhead : d = e := by
        cases d
        cases e
        cases hparam
        cases hblend
        cases hverts
        rfl
      rw [hhead, ih (Nat.succ.inj length) hrest]

theorem flatMap_inj_of_length {α β : Type} {f g : α → List β} {as : List α}
    (length : ∀ a ∈ as, (f a).length = (g a).length) :
    as.flatMap f = as.flatMap g ↔ ∀ a ∈ as, f a = g a := by
  induction as with
  | nil => exact iff_of_true rfl fun a ha => absurd ha not_mem_nil
  | cons a as ih =>
    rw [forall_mem_cons] at length
    rw [flatMap_cons, flatMap_cons, forall_mem_cons, ← ih length.2]
    exact ⟨fun h => append_inj h length.1, fun h => by rw [h.1, h.2]⟩

theorem length_flatMap_cmds (ds : List (Draw ϕ)) :
    (ds.flatMap Draw.cmds).length = 3 * ds.length := by
  induction ds with
  | nil => rfl
  | cons d ds ih =>
    rw [flatMap_cons, length_append, ih, length_cons]
    change 3 + 3 * ds.length = 3 * (ds.length + 1)
    omega

def View.start : View ϕ := ⟨0, 0, fun _ => false, [], fun _ => []⟩

theorem Ta.outside_renderFrameInit (ops : FloatOps ϕ) (ta : Ta ϕ κ) :
    (ta.renderFrameInit ops).Outside View.start ta.texCache :=
  ⟨⟨rfl, rfl, rfl, le_rfl, rfl, fun _ _ => rfl⟩, rfl, rfl⟩

theorem Ta.Outside.startrender {ta : Ta ϕ κ} {v : View ϕ} {k : κ} (outside : ta.Outside v k)
    (ops : FloatOps ϕ) {env : RendEnv ϕ κ} (xmit : (env.xmit k).isSome)
    (target : env.setRenderTarget.isSome) :
    ∃ executed ta', ta.startrender ops env = some (executed, ta') ∧
      executed.filter isDrawing =
        dispLists.flatMap fun list => (v.draws list).flatMap Draw.cmds := by
  obtain ⟨k', hxmit⟩ := isSome_iff_exists.mp xmit
  obtain ⟨tgt, htgt⟩ := isSome_iff_exists.mp target
  have hlists : ∀ list, (ta.execList env.depthSort list).filter isDrawing =
      (v.draws list).flatMap Draw.cmds := by
    intro list
    rw [filter_execList, ← outside.shows.chains list [], append_nil]
  refine ⟨ta.executed env tgt, { ta with texCache := k' }.renderFrameInit ops, ?_, ?_⟩
  · rw [Ta.startrender, outside.texCache, hxmit, outside.curList, htgt]
    rfl
  · simp only [executed, filter_append, filter_flatMap, hlists]
    simp [isDrawing]

/-- A frame is drawn as it should be exactly if no list is drawn while vertices of a modifier volume
are left over. -/
theorem Frame.draws_iff (f : Frame ops) (textures : Textures κ) (env : RendEnv ϕ κ) (ta : Ta ϕ κ)
    {k : κ} {cmds : List (RendCmd ϕ)} (expected : f.expected textures ta.texCache = some (k, cmds))
    (xmit : (env.xmit k).isSome) (target : env.setRenderTarget.isSome) :
    ∃ executed ta', f.run textures env (ta.renderFrameInit ops) = some (executed, ta') ∧
      (executed.filter isDrawing = cmds ↔ Clean ops [] f.lists) := by
  obtain ⟨⟨k', draws⟩, hdraws, heq⟩ := map_eq_some_iff.mp expected
  cases heq
  obtain ⟨ta₁, v, hrun, outside, hkeep, hlength, hclean⟩ :=
    (ta.outside_renderFrameInit ops).lists f.distinct (fun _ _ => rfl) hdraws
      (by rw [View.start, zero_add]; exact f.vertRoom)
      (by rw [View.start, zero_add]; exact f.instRoom)
  obtain ⟨executed, ta', hstart, hfilter⟩ := outside.startrender ops xmit target
  refine ⟨executed, ta', ?_, ?_⟩
  · rw [run, packets, hrun]
    exact hstart
  · have hlen : ∀ l, (v.draws l).length = (draws l).length := hlength
    have hother : ∀ l, l ∉ Ta.dispLists → v.draws l = draws l := by
      intro l hl
      have hnot : l ∉ f.lists.map Submission.list := by
        intro hmem
        obtain ⟨s, -, rfl⟩ := List.mem_map.mp hmem
        exact hl s.valid
      rw [hkeep l hnot, Ta.drawLists_of_notMem hdraws hnot]
      rfl
    rw [hfilter, flatMap_inj_of_length fun l _ => by
      rw [length_flatMap_cmds, length_flatMap_cmds, hlen]]
    change _ ↔ Clean ops View.start.pending f.lists
    rw [← hclean]
    constructor
    · intro h l
      by_cases hl : l ∈ Ta.dispLists
      · exact (flatMap_cmds_inj (hlen l)).mp (h l hl)
      · exact hother l hl
    · intro h l _
      rw [h l]
      rfl

/-! ### Two frames -/

def plainOps : FloatOps Nat where
  minusOne := 0
  one := 1
  add := (· + ·)
  sub := (· - ·)
  mul := (· * ·)
  div := (· / ·)
  neg := id
  recip := id
  lt a b := a < b
  isZero n := n = 0

/-- A list of one strip, with the first coordinates of its vertices. -/
def plainList (list : DisplayList) (xs : List Nat) (long : 3 ≤ xs.length)
    (valid : list ∈ Ta.dispLists) : Submission Nat where
  list := list
  groups := [{
    hdr := ⟨.triangleStrip, list, false, ⟨0, 0, 3, 3, ⟨0, by decide⟩, false, false, false, false⟩,
      ⟨0, by decide⟩, ⟨0, by decide⟩, (.texWrapRepeat, .texWrapRepeat), 1, 0, true, ⟨4, by decide⟩,
      (0, 0, 0, 0), (0, 0, 0, 0)⟩
    strips := [⟨xs.map fun x => ⟨(0, 0, 0, 0), (0, 0, 0, 0), (0, 0), (x, 0, 1), false,
      ⟨(0, 0, 0), (0, 0, 0), (0, 0, 0), (0, 0), (0, 0), (0, 0), (0, 0)⟩⟩, by simpa using long⟩]
    tp := rfl
    src := (by decide : 1 < 8)
    dst := (by decide : 0 < 8) }]
  valid := valid
  same g hg := by
    rw [mem_singleton] at hg
    rw [hg]

def opaqueThenModifier : Frame plainOps where
  lists := [plainList .opaqueList [1, 2, 3, 4] (by decide) (by decide),
    plainList .opaqueModList [5, 6, 7] (by decide) (by decide)]
  distinct := by decide
  vertRoom := by decide
  instRoom := by decide

def modifierThenOpaque : Frame plainOps where
  lists := [plainList .opaqueModList [5, 6, 7] (by decide) (by decide),
    plainList .opaqueList [1, 2, 3, 4] (by decide) (by decide)]
  distinct := by decide
  vertRoom := by decide
  instRoom := by decide

def noTextures : Textures Unit := ⟨fun _ _ => none⟩

def plainEnv : RendEnv Nat Unit := ⟨640, 480, (0, 0, 0, 0), false, some, some 0⟩

def idleTa : Ta Nat Unit where
  hdr := ⟨.triangleStrip, .opaqueList, false,
    ⟨0, 0, 3, 3, ⟨0, by decide⟩, false, false, false, false⟩, ⟨0, by decide⟩, ⟨0, by decide⟩,
    (.texWrapRepeat, .texWrapRepeat), 0, 0, false, ⟨0, by decide⟩, (0, 0, 0, 0), (0, 0, 0, 0)⟩
  texIdx := 0
  curList := none
  openGroup := false
  listSubmitted := fun _ => false
  strip := ⟨0, ⟨(0, 0, 0), (0, 0, 0, 0), (0, 0, 0, 0), (0, 0)⟩,
    ⟨(0, 0, 0), (0, 0, 0, 0), (0, 0, 0, 0), (0, 0)⟩⟩
  clip := (0, 1)
  spriteBaseColor := (0, 0, 0, 0)
  spriteOffsColor := (0, 0, 0, 0)
  vertBuf := []
  vertCurGroup := 0
  dispList := fun _ => []
  instCount := 0
  texCache := ()

def drawnXs (cmds : List (RendCmd Nat)) : List (List Nat) :=
  cmds.filterMap fun
    | .drawArray verts => some (verts.map fun v => v.pos.1)
    | _ => none

theorem Frame.draws_iff_opaqueThenModifier :
    (opaqueThenModifier.expected noTextures ()).map (fun r => drawnXs r.2) =
        some [[1, 2, 3, 2, 3, 4]] ∧
      ∃ executed ta', opaqueThenModifier.run noTextures plainEnv (idleTa.renderFrameInit plainOps) =
          some (executed, ta') ∧
        (executed.filter isDrawing =
            ((opaqueThenModifier.expected noTextures ()).getD ((), [])).2 ↔
          Clean plainOps [] opaqueThenModifier.lists) :=
  ⟨by decide +kernel, draws_iff _ noTextures plainEnv idleTa rfl rfl rfl⟩

/-- The triangle of the modifier volume is drawn with the opaque polygons. -/
theorem modifier_drawn_as_opaque :
    (modifierThenOpaque.expected noTextures ()).map (fun r => drawnXs r.2) =
        some [[1, 2, 3, 2, 3, 4]] ∧
      (modifierThenOpaque.run noTextures plainEnv (idleTa.renderFrameInit plainOps)).map
          (fun r => drawnXs r.1) = some [[5, 6, 7, 1, 2, 3, 2, 3, 4]] := by
  decide +kernel

end Pvr2
