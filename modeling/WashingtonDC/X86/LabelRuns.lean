import WashingtonDC.ExecMem.GrowAny
import WashingtonDC.X86.Labels

/-!
# Every jump reaches its label

The jumps that were put are kept apart from each other, and each byte that a definition patches is
the displacement of a jump to that label. So a label is in one of two states: it is undefined and
waits for all jumps to it, or it is defined and all of them reach it. Jumps to other labels,
their definitions, other bytes and a longer block change neither.
-/
namespace X86

open ByteMemory ExecMem Lockstep Function List

variable {ι : Type}

def Fits (offs : Int) : Prop := -128 ≤ offs ∧ offs ≤ 127

variable {e : Error} {mem' : Memory}

namespace Asm

variable {r : Region} {asm asm' : Asm ι} {ptr : Nat} {pt : JmpPt} {pts : List JmpPt}

theorem signed_dispByte {offs : Int} (fits : Fits offs) : signed 1 (dispByte offs).toNat = offs := by
  obtain ⟨low, high⟩ := fits
  rw [signed, dispByte, UInt8.toNat_ofNat', pow_one]
  split <;> omega

def withMem (asm : Asm ι) (mem : Memory) : Asm ι := { asm with heap := { asm.heap with mem } }

theorem patch_cases (asm : Asm ι) (ptr : Nat) (pt : JmpPt) :
    (Fits (ptr - pt.relPos) ∧ asm.patch ptr pt =
      .ok (asm.withMem (update asm.heap.mem pt.offs (dispByte (ptr - pt.relPos))))) ∨
    (¬ Fits (ptr - pt.relPos) ∧
      (asm.patch ptr pt = .error .tooBig ∨ asm.patch ptr pt = .error .tooSmall)) := by
  by_cases big : 127 < (ptr : Int) - pt.relPos
  · exact .inr ⟨fun fits => absurd fits.2 (Int.not_le.mpr big), .inl (if_pos big)⟩
  · by_cases small : (ptr : Int) - pt.relPos < -128
    · refine .inr ⟨fun fits => absurd fits.1 (Int.not_le.mpr small), .inr ?_⟩
      exact (if_neg big).trans (if_pos small)
    · refine .inl ⟨⟨Int.not_lt.mp small, Int.not_lt.mp big⟩, ?_⟩
      exact (if_neg big).trans (if_neg small)

theorem patchAll_ok (adjacent : ∀ pt ∈ pts, pt.relPos = pt.offs + 1)
    (h : pts.foldlM (fun asm pt => asm.patch ptr pt) asm = .ok asm') :
    ∃ mem', asm' = asm.withMem mem' ∧
      (∀ x, (∀ pt ∈ pts, pt.offs ≠ x) → mem' x = asm.heap.mem x) ∧
      ∀ pt ∈ pts, Fits (ptr - pt.relPos) ∧ mem' pt.offs = dispByte (ptr - pt.relPos) := by
  induction pts generalizing asm with
  | nil =>
    cases h
    exact ⟨_, rfl, fun _ _ => rfl, by simp⟩
  | cons pt pts ih =>
    rw [forall_mem_cons] at adjacent
    rw [foldlM_cons] at h
    rcases asm.patch_cases ptr pt with ⟨fits, hpatch⟩ | ⟨-, hpatch | hpatch⟩
    · rw [hpatch] at h
      obtain ⟨mem', rfl, hother, hpoints⟩ := ih adjacent.2 h
      refine ⟨mem', rfl, fun x hx => ?_, ?_⟩
      · rw [forall_mem_cons] at hx
        exact (hother x hx.2).trans (update_of_ne (Ne.symm hx.1) _ _)
      · rw [forall_mem_cons]
        refine ⟨⟨fits, ?_⟩, hpoints⟩
        -- a later point with the same displacement is the same point
        by_cases again : ∃ pt' ∈ pts, pt'.offs = pt.offs
        · obtain ⟨pt', hpt', hoffs⟩ := again
          have hrel : pt'.relPos = pt.relPos := by
            rw [adjacent.2 pt' hpt', adjacent.1, hoffs]
          rw [← hoffs, (hpoints pt' hpt').2, hrel]
        · have hfirst := hother pt.offs fun pt' hpt' hoffs => again ⟨pt', hpt', hoffs⟩
          exact hfirst.trans (update_self _ _ _)
    · rw [hpatch] at h
      cases h
    · rw [hpatch] at h
      cases h

theorem patchAll_error
    (h : pts.foldlM (fun asm pt => asm.patch ptr pt) asm = .error e) :
    (e = .tooBig ∨ e = .tooSmall) ∧ ∃ pt ∈ pts, ¬ Fits (ptr - pt.relPos) := by
  induction pts generalizing asm with
  | nil => cases h
  | cons pt pts ih =>
    rw [foldlM_cons] at h
    rcases asm.patch_cases ptr pt with ⟨-, hpatch⟩ | ⟨unfit, hpatch | hpatch⟩
    · rw [hpatch] at h
      obtain ⟨he, pt', hpt', hunfit⟩ := ih h
      exact ⟨he, pt', mem_cons_of_mem _ hpt', hunfit⟩
    · rw [hpatch] at h
      cases h
      exact ⟨.inl rfl, pt, mem_cons_self, unfit⟩
    · rw [hpatch] at h
      cases h
      exact ⟨.inr rfl, pt, mem_cons_self, unfit⟩

theorem put8_error {v : UInt8} (ready : Ready r asm) (h : asm.put8 r v = .error e) :
    e = .overflow := by
  obtain ⟨⟨pre, s, post, -, -, hstart⟩, -, -⟩ := ready
  rw [put8, put] at h
  split at h
  · cases h
  · simp only [tryGrow, show ¬ asm.allocStart = 0 by omega, ↓reduceIte] at h
    split at h
    · cases h
      rfl
    · split at h
      · cases h
        rfl
      · cases h

theorem Ready.withMem (ready : Ready r asm)
    (same : ∀ x, x < asm.allocStart ∨ asm.outp ≤ x → mem' x = asm.heap.mem x) :
    Ready r (asm.withMem mem') := by
  obtain ⟨⟨pre, s, post, inv, live, hstart⟩, hfirst, hlast⟩ := ready
  exact ⟨⟨pre, s, post, inv.overwrite live fun y hy => same y (by omega), live, hstart⟩,
    hfirst, hlast⟩

end Asm

namespace Session

open Asm

/-- The jumps that were put lie apart in the block, and the labels wait for none but these. -/
structure Placed (r : Region) (s : Session ι) : Prop where
  ready : s.asm.Ready r
  apart : ∀ a ∈ s.jumps, ∀ b ∈ s.jumps, a = b ∨ a.rel + 2 ≤ b.rel ∨ b.rel + 2 ≤ a.rel
  inside : ∀ a ∈ s.jumps, s.asm.allocStart + 2 ≤ a.rel ∧ a.rel ≤ s.asm.outp
  opcode : ∀ a ∈ s.jumps, s.mem (a.rel - 2) = UInt8.ofNat a.jump.opcode
  points : ∀ l, ∀ pt ∈ (s.asm.lbls l).jumpPoints, ∃ a ∈ s.jumps, a.lbl = l ∧ pt = a.point

/-- The address behind a jump and its displacement make up an address. -/
def Reaches (mem : Memory) (a : Site ι) (ptr : Nat) : Prop :=
  (a.rel : Int) + signed 1 (mem (a.rel - 1)).toNat = ptr

def Settled (s : Session ι) (l : ι) : Prop :=
  ((s.asm.lbls l).ptr = 0 ∧
    ∀ a ∈ s.jumps, a.lbl = l → a.point ∈ (s.asm.lbls l).jumpPoints) ∨
  ((s.asm.lbls l).ptr ≠ 0 ∧ ∀ a ∈ s.jumps, a.lbl = l → Reaches s.mem a (s.asm.lbls l).ptr)

variable {r : Region} {s s' : Session ι} {asm' : Asm ι} {l k : ι} {n : Nat}

theorem Placed.extend (placed : Placed r s) (ready : asm'.Ready r) (ext : Extends s.asm asm' n) :
    Placed r { s with asm := asm' } := by
  obtain ⟨-, apart, inside, opcode, points⟩ := placed
  have hstart := ext.start
  have houtp := ext.outp
  refine ⟨ready, apart, fun a ha => ?_, fun a ha => ?_, fun l pt hpt => ?_⟩
  · have := inside a ha
    simp only
    omega
  · have := inside a ha
    exact (ext.kept _ (by omega) (by omega)).trans (opcode a ha)
  · simp only [ext.lbls] at hpt
    exact points l pt hpt

theorem Settled.extend (settled : Settled s l) (placed : Placed r s) (ext : Extends s.asm asm' n) :
    Settled { s with asm := asm' } l := by
  simp only [Settled, ext.lbls]
  refine settled.imp_right fun ⟨hdefined, hreach⟩ => ⟨hdefined, fun a ha hl => ?_⟩
  have := placed.inside a ha
  have hbyte : asm'.heap.mem (a.rel - 1) = s.mem (a.rel - 1) := ext.kept _ (by omega) (by omega)
  have := hreach a ha hl
  simpa only [Reaches, mem, hbyte] using this

theorem Placed.patched (placed : Placed r s)
    (same : ∀ x, (∀ a ∈ s.jumps, a.lbl = l → a.rel - 1 ≠ x) → mem' x = s.mem x) :
    Placed r { s with asm := s.asm.withMem mem' } := by
  obtain ⟨ready, apart, inside, opcode, points⟩ := placed
  refine ⟨ready.withMem fun x hx => same x fun a ha _ => ?_, apart, inside, fun a ha => ?_, points⟩
  · have := inside a ha
    omega
  · refine (same _ fun b hb _ => ?_).trans (opcode a ha)
    have := inside b hb
    rcases apart a ha b hb with rfl | h | h
    · omega
    · omega
    · omega

theorem Settled.patched (settled : Settled s k) (placed : Placed r s)
    (same : ∀ x, (∀ a ∈ s.jumps, a.lbl = l → a.rel - 1 ≠ x) → mem' x = s.mem x) (other : k ≠ l) :
    Settled { s with asm := s.asm.withMem mem' } k := by
  refine settled.imp_right fun ⟨hdefined, hreach⟩ => ⟨hdefined, fun a ha hk => ?_⟩
  have hbyte : mem' (a.rel - 1) = s.mem (a.rel - 1) := by
    refine same _ fun b hb hl => ?_
    rcases placed.apart a ha b hb with rfl | h | h
    · exact absurd (hk.symm.trans hl) other
    · omega
    · omega
  have := hreach a ha hk
  simpa only [Reaches, mem, Asm.withMem, hbyte] using this

theorem Placed.putJump {jump : Jump} {asm₁ asm₂ : Asm ι} (placed : Placed r s)
    (hopcode : s.asm.put8 r (UInt8.ofNat jump.opcode) = .ok asm₁)
    (hplaceholder : asm₁.put8 r 0 = .ok asm₂) :
    Placed r ⟨asm₂, s.jumps ++ [⟨jump, l, s.asm.outp + 2⟩]⟩ ∧ Extends s.asm asm₂ 2 ∧
      asm₁.outp = s.asm.outp + 1 := by
  obtain ⟨ready₁, ext₁, hbyte⟩ := put8_spec placed.ready hopcode
  obtain ⟨ready₂, ext₂, -⟩ := put8_spec ready₁ hplaceholder
  have ext := ext₁.trans ext₂
  have hfirst := placed.ready.first
  have hextended := placed.extend ready₂ ext
  have houtp : asm₂.outp = s.asm.outp + 2 := ext.outp
  have hstart : asm₂.allocStart = s.asm.allocStart := ext.start
  have hnew : asm₂.heap.mem s.asm.outp = UInt8.ofNat jump.opcode := by
    have hstart₁ := ext₁.start
    have houtp₁ := ext₁.outp
    rw [ext₂.kept _ (by omega) (by omega), hbyte]
  refine ⟨⟨ready₂, ?_, ?_, ?_, ?_⟩, ext, ext₁.outp⟩
  · intro a ha b hb
    rw [mem_append, mem_singleton] at ha hb
    rcases ha with ha | rfl <;> rcases hb with hb | rfl
    · exact placed.apart a ha b hb
    · have := (placed.inside a ha).2
      exact .inr (.inl (by simp only; omega))
    · have := (placed.inside b hb).2
      exact .inr (.inr (by simp only; omega))
    · exact .inl rfl
  · intro a ha
    rw [mem_append, mem_singleton] at ha
    rcases ha with ha | rfl
    · exact hextended.inside a ha
    · simp only
      omega
  · intro a ha
    rw [mem_append, mem_singleton] at ha
    rcases ha with ha | rfl
    · exact hextended.opcode a ha
    · exact hnew
  · intro l pt hpt
    obtain ⟨a, ha, hl, hpoint⟩ := hextended.points l pt hpt
    exact ⟨a, mem_append_left _ ha, hl, hpoint⟩

section Steps

variable [DecidableEq ι] {act : Action ι} {a : Site ι} {jumps : List (Site ι)}

theorem jump_cases {jump : Jump} (h : s.step r (.jump jump l) = .ok s') :
    ∃ asm₁ asm₂ asm', s.asm.put8 r (UInt8.ofNat jump.opcode) = .ok asm₁ ∧
      asm₁.put8 r 0 = .ok asm₂ ∧ asm₂.lbl8PushJmpPt l ⟨asm₁.outp, asm₁.outp + 1⟩ = .ok asm' ∧
        s' = ⟨asm', s.jumps ++ [⟨jump, l, s.asm.outp + 2⟩]⟩ := by
  simp only [step, jumpLbl8, bind, Except.bind] at h
  cases hopcode : s.asm.put8 r (UInt8.ofNat jump.opcode) with
  | error e =>
    simp only [hopcode] at h
    cases h
  | ok asm₁ =>
    simp only [hopcode] at h
    cases hplaceholder : asm₁.put8 r 0 with
    | error e =>
      simp only [hplaceholder] at h
      cases h
    | ok asm₂ =>
      simp only [hplaceholder] at h
      cases hpush : asm₂.lbl8PushJmpPt l ⟨asm₁.outp, asm₁.outp + 1⟩ with
      | error e =>
        rw [hpush] at h
        cases h
      | ok asm' =>
        rw [hpush] at h
        cases h
        exact ⟨asm₁, asm₂, asm', rfl, hplaceholder, hpush, rfl⟩

theorem push_cases {pt : JmpPt} {asm : Asm ι} (h : asm.lbl8PushJmpPt l pt = .ok asm') :
    ((asm.lbls l).ptr ≠ 0 ∧ Fits ((asm.lbls l).ptr - pt.relPos) ∧ asm' = asm.withMem
      (update asm.heap.mem pt.offs (dispByte ((asm.lbls l).ptr - pt.relPos)))) ∨
    ((asm.lbls l).ptr = 0 ∧ asm' = { asm with
      lbls := update asm.lbls l
        { asm.lbls l with jumpPoints := (asm.lbls l).jumpPoints ++ [pt] } }) := by
  simp only [lbl8PushJmpPt] at h
  split at h
  · rename_i hdefined
    refine .inl ⟨hdefined, ?_⟩
    rcases asm.patch_cases (asm.lbls l).ptr pt with ⟨fits, hpatch⟩ | ⟨-, hpatch | hpatch⟩
    · rw [hpatch] at h
      cases h
      exact ⟨fits, rfl⟩
    · rw [hpatch] at h
      cases h
    · rw [hpatch] at h
      cases h
  · rename_i hundefined
    split at h
    · cases h
    · cases h
      exact .inr ⟨not_not.mp hundefined, rfl⟩

theorem Placed.push {asm : Asm ι} (placed : Placed r ⟨asm, jumps⟩) (here : a ∈ jumps)
    (h : asm.lbl8PushJmpPt a.lbl a.point = .ok asm') :
    Placed r ⟨asm', jumps⟩ ∧ ∀ k, (asm'.lbls k).ptr = (asm.lbls k).ptr := by
  rcases push_cases h with ⟨-, -, rfl⟩ | ⟨-, rfl⟩
  · refine ⟨placed.patched (l := a.lbl) fun x hx => ?_, fun _ => rfl⟩
    exact update_of_ne (Ne.symm (hx a here rfl)) _ _
  · obtain ⟨ready, apart, inside, opcode, points⟩ := placed
    refine ⟨⟨⟨ready.block, ready.first, ready.last⟩, apart, inside, opcode, fun k pt hpt => ?_⟩,
      fun k => ?_⟩
    · by_cases hk : k = a.lbl
      · subst hk
        simp only [update_self, mem_append, mem_singleton] at hpt
        rcases hpt with hpt | rfl
        · exact points _ pt hpt
        · exact ⟨a, here, rfl, rfl⟩
      · simp only [update_of_ne hk] at hpt
        exact points k pt hpt
    · by_cases hk : k = a.lbl
      · subst hk
        simp only [update_self]
      · simp only [update_of_ne hk]

theorem Settled.push {asm : Asm ι} (settled : Settled ⟨asm, jumps⟩ l)
    (placed : Placed r ⟨asm, jumps ++ [a]⟩) (behind : ∀ b ∈ jumps, b.rel + 2 ≤ a.rel)
    (h : asm.lbl8PushJmpPt a.lbl a.point = .ok asm') : Settled ⟨asm', jumps ++ [a]⟩ l := by
  have hinside := placed.inside
  rcases push_cases h with ⟨hdefined, fits, rfl⟩ | ⟨hundefined, rfl⟩
  · rcases settled with ⟨hundefined, hwaits⟩ | ⟨hdefined', hreach⟩
    · -- `l` waits, so it is not the label of `a`
      refine .inl ⟨hundefined, fun b hb hl => ?_⟩
      rcases mem_append.mp hb with hb | hb
      · exact hwaits b hb hl
      · obtain rfl := mem_singleton.mp hb
        rw [hl] at hdefined
        exact absurd hundefined hdefined
    · refine .inr ⟨hdefined', fun b hb hl => ?_⟩
      rcases mem_append.mp hb with hb | hb
      · have hbyte := update_of_ne (show b.rel - 1 ≠ a.point.offs by
          have := behind b hb
          simp only [Site.point]
          omega) (dispByte ((asm.lbls a.lbl).ptr - a.point.relPos)) asm.heap.mem
        have := hreach b hb hl
        simpa only [Reaches, mem, withMem, hbyte] using this
      · obtain rfl := mem_singleton.mp hb
        subst hl
        have hbyte := update_self b.point.offs
          (dispByte ((asm.lbls b.lbl).ptr - b.point.relPos)) asm.heap.mem
        change (b.rel : Int) + signed 1 (update asm.heap.mem b.point.offs
          (dispByte ((asm.lbls b.lbl).ptr - b.point.relPos)) b.point.offs).toNat =
            (asm.lbls b.lbl).ptr
        rw [hbyte, signed_dispByte fits]
        simp only [Site.point]
        omega
  · by_cases hl : l = a.lbl
    · subst hl
      rcases settled with ⟨-, hwaits⟩ | ⟨hdefined, -⟩
      · refine .inl ⟨?_, fun b hb hl => ?_⟩
        · simp only [update_self]
          exact hundefined
        · simp only [update_self]
          rcases mem_append.mp hb with hb | hb
          · exact mem_append_left _ (hwaits b hb hl)
          · obtain rfl := mem_singleton.mp hb
            exact mem_append_right _ (mem_singleton_self _)
      · exact absurd hundefined hdefined
    · have hnot : ∀ b ∈ jumps ++ [a], b.lbl = l → b ∈ jumps := by
        intro b hb hbl
        rcases mem_append.mp hb with hb | hb
        · exact hb
        · obtain rfl := mem_singleton.mp hb
          exact absurd hbl.symm hl
      simp only [Settled, update_of_ne hl]
      refine settled.imp (fun ⟨hptr, hwaits⟩ => ⟨hptr, fun b hb hbl => ?_⟩)
        (fun ⟨hptr, hreach⟩ => ⟨hptr, fun b hb hbl => ?_⟩)
      · exact hwaits b (hnot b hb hbl) hbl
      · exact hreach b (hnot b hb hbl) hbl

theorem define_cases (placed : Placed r s) (h : s.step r (.define l) = .ok s') :
    ∃ mem', s' = { s with asm := { s.asm.withMem mem' with
        lbls := update s.asm.lbls l { s.asm.lbls l with ptr := s.asm.outp } } } ∧
      (∀ x, (∀ a ∈ s.jumps, a.lbl = l → a.rel - 1 ≠ x) → mem' x = s.mem x) ∧
      ∀ a ∈ s.jumps, a.point ∈ (s.asm.lbls l).jumpPoints → Reaches mem' a s.asm.outp := by
  simp only [step] at h
  cases hdefine : s.asm.lbl8Define l with
  | error e =>
    rw [hdefine] at h
    cases h
  | ok asm' =>
    rw [hdefine] at h
    cases h
    have adjacent : ∀ pt ∈ (s.asm.lbls l).jumpPoints, pt.relPos = pt.offs + 1 := by
      intro pt hpt
      obtain ⟨a, ha, -, rfl⟩ := placed.points l pt hpt
      have := placed.inside a ha
      simp only [Site.point]
      omega
    obtain ⟨mem', rfl, hother, hpoints⟩ := patchAll_ok adjacent hdefine
    refine ⟨mem', rfl, fun x hx => hother x fun pt hpt => ?_, fun a ha hpt => ?_⟩
    · obtain ⟨a, ha, hl, rfl⟩ := placed.points l pt hpt
      exact hx a ha hl
    · obtain ⟨fits, hbyte⟩ := hpoints a.point hpt
      change mem' (a.rel - 1) = _ at hbyte
      rw [Reaches, hbyte, signed_dispByte fits]
      simp only [Site.point]
      omega

theorem Placed.define (placed : Placed r s) (h : s.step r (.define l) = .ok s') : Placed r s' := by
  obtain ⟨mem', rfl, hother, -⟩ := define_cases placed h
  obtain ⟨ready, apart, inside, opcode, points⟩ := placed.patched hother
  refine ⟨⟨ready.block, ready.first, ready.last⟩, apart, inside, opcode, fun k pt hpt => ?_⟩
  by_cases hk : k = l
  · subst hk
    simp only [update_self] at hpt
    exact points k pt hpt
  · simp only [update_of_ne hk] at hpt
    exact points k pt hpt

theorem Settled.define_other (settled : Settled s k) (placed : Placed r s)
    (h : s.step r (.define l) = .ok s') (other : k ≠ l) :
    Settled s' k ∧ (s'.asm.lbls k).ptr = (s.asm.lbls k).ptr := by
  obtain ⟨mem', rfl, hother, -⟩ := define_cases placed h
  have hpatched := settled.patched placed hother other
  simp only [Settled, update_of_ne other, and_true] at hpatched ⊢
  exact hpatched

theorem Settled.define (settled : Settled s l) (placed : Placed r s)
    (undefined : (s.asm.lbls l).ptr = 0) (h : s.step r (.define l) = .ok s') :
    Settled s' l ∧ (s'.asm.lbls l).ptr = s.asm.outp := by
  obtain ⟨mem', rfl, -, hreach⟩ := define_cases placed h
  have hpos := placed.ready.pos
  rcases settled with ⟨-, hwaits⟩ | ⟨hdefined, -⟩
  · simp only [Settled, update_self, and_true]
    exact .inr ⟨by omega, fun a ha hl => hreach a ha (hwaits a ha hl)⟩
  · exact absurd undefined hdefined

omit [DecidableEq ι] in
theorem put_cases {x : Except Error (Asm ι)} (h : (x.map fun asm => { s with asm }) = .ok s') :
    ∃ asm', x = .ok asm' ∧ s' = { s with asm := asm' } := by
  cases x with
  | error e => cases h
  | ok asm' =>
    cases h
    exact ⟨asm', rfl, rfl⟩

omit [DecidableEq ι] in
theorem Placed.put {v : Nat} (placed : Placed r s) (small : n ≤ 32)
    (h : ((s.asm.put r n v).map fun asm => { s with asm }) = .ok s') :
    Placed r s' ∧ ∀ l, Settled s l → Settled s' l ∧ (s'.asm.lbls l).ptr = (s.asm.lbls l).ptr := by
  obtain ⟨asm', hput, rfl⟩ := put_cases h
  obtain ⟨ready, ext, -⟩ := put_spec placed.ready small hput
  refine ⟨placed.extend ready ext, fun l settled => ⟨settled.extend placed ext, ?_⟩⟩
  simp only [ext.lbls]

theorem Placed.jump {jump : Jump} (placed : Placed r s) (h : s.step r (.jump jump k) = .ok s') :
    Placed r s' ∧ ∀ l, Settled s l → Settled s' l ∧ (s'.asm.lbls l).ptr = (s.asm.lbls l).ptr := by
  obtain ⟨asm₁, asm₂, asm', hopcode, hplaceholder, hpush, rfl⟩ := jump_cases h
  obtain ⟨hplaced, ext, houtp⟩ := placed.putJump (l := k) hopcode hplaceholder
  rw [houtp] at hpush
  obtain ⟨hpushed, hptr⟩ := hplaced.push (a := ⟨jump, k, s.asm.outp + 2⟩)
    (mem_append_right _ (mem_singleton_self _)) hpush
  refine ⟨hpushed, fun l settled => ⟨?_, ?_⟩⟩
  · refine (settled.extend placed ext).push hplaced (fun b hb => ?_) hpush
    have := (placed.inside b hb).2
    simp only
    omega
  · simp only [hptr, ext.lbls]

theorem step_keeps (placed : Placed r s) (settled : Settled s l) (other : act ≠ .define l)
    (h : s.step r act = .ok s') :
    Placed r s' ∧ Settled s' l ∧ (s'.asm.lbls l).ptr = (s.asm.lbls l).ptr := by
  cases act with
  | put8 v | put16 v | put32 v | put64 v =>
    exact (placed.put (by decide) h).imp_right fun keeps => keeps l settled
  | jump jump k => exact (placed.jump h).imp_right fun keeps => keeps l settled
  | define k =>
    have hk : l ≠ k := fun hk => other (hk ▸ rfl)
    exact ⟨placed.define h, settled.define_other placed h hk⟩

theorem run_keeps {acts : List (Action ι)} {ptr : Nat} (never : .define l ∉ acts)
    (placed : Placed r s) (settled : Settled s l) (hptr : (s.asm.lbls l).ptr = ptr)
    (h : s.run r acts = .ok s') :
    Placed r s' ∧ Settled s' l ∧ (s'.asm.lbls l).ptr = ptr := by
  refine foldlM_ok_invariant (I := fun s => Placed r s ∧ Settled s l ∧ (s.asm.lbls l).ptr = ptr)
    ?_ h ⟨placed, settled, hptr⟩
  rintro s a s' ha hstep ⟨placed, settled, rfl⟩
  exact step_keeps placed settled (fun heq => never (heq ▸ ha)) hstep

theorem define_error (placed : Placed r s) (h : s.step r (.define l) = .error e) :
    (e = .tooBig ∨ e = .tooSmall) ∧
      ∃ a ∈ s.jumps, a.lbl = l ∧ ¬ Fits (s.asm.outp - a.rel) := by
  simp only [step] at h
  cases hdefine : s.asm.lbl8Define l with
  | ok asm' =>
    rw [hdefine] at h
    cases h
  | error e' =>
    rw [hdefine] at h
    cases h
    obtain ⟨he, pt, hpt, unfit⟩ := patchAll_error hdefine
    obtain ⟨a, ha, hl, rfl⟩ := placed.points l pt hpt
    exact ⟨he, a, ha, hl, unfit⟩

theorem jump_error {jump : Jump} (placed : Placed r s)
    (defined : (s.asm.lbls l).ptr ≠ 0) (h : s.step r (.jump jump l) = .error e) :
    e = .overflow ∨ (e = .tooBig ∨ e = .tooSmall) ∧
      ¬ Fits ((s.asm.lbls l).ptr - (s.asm.outp + 2 : Nat)) := by
  have hgrow : ∀ {asm : Asm ι} {v : UInt8} {e : Error}, asm.Ready r → asm.put8 r v = .error e →
      e = .overflow := fun ready hput => put8_error ready hput
  simp only [step, jumpLbl8, bind, Except.bind] at h
  cases hopcode : s.asm.put8 r (UInt8.ofNat jump.opcode) with
  | error e =>
    simp only [hopcode] at h
    cases h
    exact .inl (hgrow placed.ready hopcode)
  | ok asm₁ =>
    simp only [hopcode] at h
    obtain ⟨ready₁, ext₁, -⟩ := put8_spec placed.ready hopcode
    cases hplaceholder : asm₁.put8 r 0 with
    | error e =>
      simp only [hplaceholder] at h
      cases h
      exact .inl (hgrow ready₁ hplaceholder)
    | ok asm₂ =>
      simp only [hplaceholder] at h
      obtain ⟨-, ext₂, -⟩ := put8_spec ready₁ hplaceholder
      have hlbls : asm₂.lbls = s.asm.lbls := ext₂.lbls.trans ext₁.lbls
      rw [ext₁.outp, lbl8PushJmpPt, hlbls, if_pos defined] at h
      right
      rcases asm₂.patch_cases (s.asm.lbls l).ptr ⟨s.asm.outp + 1, s.asm.outp + 1 + 1⟩ with
        ⟨-, hpatch⟩ | ⟨unfit, hpatch | hpatch⟩
      · rw [hpatch] at h
        cases h
      · rw [hpatch] at h
        cases h
        exact ⟨.inl rfl, unfit⟩
      · rw [hpatch] at h
        cases h
        exact ⟨.inr rfl, unfit⟩

end Steps

/-- The state behind `x86asm_set_dst`, with labels behind `x86asm_lbl8_init`. -/
def setDst (heap : Heap) (outPtr nBytes : Nat) : Session ι where
  asm :=
    { heap
      allocStart := outPtr
      allocLen := nBytes
      outp := outPtr
      outpLen := nBytes
      lbls := fun _ => ⟨0, []⟩ }
  jumps := []

theorem placed_setDst {heap : Heap} {pre post : List Chunk} {c : Chunk} {nBytes : Nat}
    (inv : Inv r heap (pre ++ [c] ++ post)) (live : c.tag = some nBytes) (l : ι) :
    Placed r (setDst heap (c.start + 16) nBytes : Session ι) ∧
      Settled (setDst heap (c.start + 16) nBytes : Session ι) l := by
  constructor
  · exact ⟨⟨⟨pre, c, post, inv, live, rfl⟩, le_refl _, rfl⟩, by simp [setDst], by simp [setDst],
      by simp [setDst], by simp [setDst]⟩
  · exact .inl ⟨rfl, by simp [setDst]⟩

/-- A block of any heap is written by any actions, of which one defines the label `l`. The
definition fails only if it is too far from a jump. Otherwise all jumps to `l` reach the place of
the definition, those before it and those behind it, and a later jump fails only if the block
cannot grow or the label is too far. -/
theorem jumps_reach_label [DecidableEq ι] {heap : Heap} {pre post : List Chunk} {c : Chunk}
    {nBytes : Nat} (inv : Inv r heap (pre ++ [c] ++ post)) (live : c.tag = some nBytes)
    {before after : List (Action ι)} (first : .define l ∉ before) (once : .define l ∉ after)
    {s₁ : Session ι} (ran : (setDst heap (c.start + 16) nBytes).run r before = .ok s₁) :
    (∀ e, s₁.step r (.define l) = .error e → (e = .tooBig ∨ e = .tooSmall) ∧
      ∃ a ∈ s₁.jumps, a.lbl = l ∧ ¬ Fits (s₁.asm.outp - a.rel)) ∧
    ∀ s₂, s₁.run r (.define l :: after) = .ok s₂ →
      (∀ a ∈ s₂.jumps, a.lbl = l →
        s₂.mem (a.rel - 2) = UInt8.ofNat a.jump.opcode ∧ Reaches s₂.mem a s₁.asm.outp) ∧
      ∀ jump e, s₂.step r (.jump jump l) = .error e →
        e = .overflow ∨ (e = .tooBig ∨ e = .tooSmall) ∧
          ¬ Fits (s₁.asm.outp - (s₂.asm.outp + 2 : Nat)) := by
  obtain ⟨hplaced, hsettled⟩ := placed_setDst inv live l
  obtain ⟨placed₁, settled₁, hundefined⟩ := run_keeps first hplaced hsettled rfl ran
  refine ⟨fun e he => define_error placed₁ he, fun s₂ hrun => ?_⟩
  rw [run, foldlM_cons] at hrun
  cases hdefine : s₁.step r (.define l) with
  | error e =>
    rw [hdefine] at hrun
    cases hrun
  | ok s =>
    rw [hdefine] at hrun
    obtain ⟨settled, hptr⟩ := settled₁.define placed₁ hundefined hdefine
    obtain ⟨placed₂, settled₂, hptr₂⟩ :=
      run_keeps once (placed₁.define hdefine) settled hptr hrun
    have hpos := placed₁.ready.pos
    have hdefined : (s₂.asm.lbls l).ptr ≠ 0 := by omega
    refine ⟨fun a ha hl => ⟨placed₂.opcode a ha, ?_⟩, fun jump e he => ?_⟩
    · rcases settled₂ with ⟨hzero, -⟩ | ⟨-, hreach⟩
      · exact absurd hzero hdefined
      · rw [← hptr₂]
        exact hreach a ha hl
    · rw [← hptr₂]
      exact jump_error placed₂ hdefined he

/-- A jump over four bytes and one back to behind them. -/
theorem jumps_reach_label_between : ∃ (heap : Heap) (s₁ s₂ : Session Unit),
    (setDst heap 0x10010 100).run lowRegion [.jump .jz (), .put32 7] = .ok s₁ ∧
    s₁.run lowRegion (.define () :: [.put8 1, .jump .jmp ()]) = .ok s₂ ∧ s₂.jumps.length = 2 ∧
    ∀ a ∈ s₂.jumps, Reaches s₂.mem a s₁.asm.outp := by
  obtain ⟨heap, -, inv⟩ := lowRegion_alloc
  obtain ⟨s₁, ran, s₂, defined, hjumps⟩ : ∃ s₁ : Session Unit,
      (setDst heap 0x10010 100).run lowRegion [.jump .jz (), .put32 7] = .ok s₁ ∧
      ∃ s₂, s₁.run lowRegion (.define () :: [.put8 1, .jump .jmp ()]) = .ok s₂ ∧
        s₂.jumps.length = 2 := by
    refine ⟨_, rfl, ?_⟩
    simp [run, step, setDst, lbl8Define, jumpLbl8, Asm.put8, Asm.put, write, patch, lbl8PushJmpPt,
      bind, pure, Except.bind, Except.pure, Except.map]
  refine ⟨heap, s₁, s₂, ran, defined, hjumps, fun a ha => ?_⟩
  have hreach := jumps_reach_label inv rfl
    (show Action.define () ∉ [Action.jump .jz (), .put32 7] by simp)
    (show Action.define () ∉ [Action.put8 1, .jump .jmp ()] by simp) ran
  exact ((hreach.2 s₂ defined).1 a ha rfl).2

end Session

end X86
