import WashingtonDC.Lockstep
import WashingtonDC.Pvr2.Framebuffer
import WashingtonDC.WordMask

/-!
# Writes to framebuffers

After a write to texture memory the host must not have the newest contents of a framebuffer to
which a byte belongs that was written. For framebuffers that lie in one of the two areas of texture
memory, and not in a mirror of it, and for aligned writes, this fails exactly for writes to the last
pixel of a field that leave its first byte alone.
-/
namespace Pvr2

open UInt32 Option Lockstep

/-! ## Runs -/

inductive FbAction
  | write (w : TexWrite)
  | setRenderTarget (r : FbRegs) (copied : Bool)
  | render (r : FbRegs) (copied : Bool)

structure FbMoved where
  action : FbAction
  before : FbHeap
  after : FbHeap

namespace FbHeap

def act (heap : FbHeap) : FbAction → Option FbHeap
  | .write w => heap.write w
  | .setRenderTarget r copied => heap.setRenderTarget r copied
  | .render r copied => heap.render r copied

def step (heap : FbHeap) (a : FbAction) : Option (FbMoved × FbHeap) :=
  (heap.act a).map fun heap' => (⟨a, heap, heap'⟩, heap')

end FbHeap

def InWindow (a b : UInt32) : Prop :=
  a ≤ b ∧ (b ≤ 0x7fffff ∨ (0xff000000 ≤ a ∧ b ≤ 0xff7fffff))

instance (a b : UInt32) : Decidable (InWindow a b) := inferInstanceAs (Decidable (_ ∧ (_ ∨ _)))

def Field.Direct (f : Field) : Prop := InWindow f.first f.last ∧ InWindow f.first f.stop

instance (f : Field) : Decidable f.Direct := inferInstanceAs (Decidable (_ ∧ _))

def Target.Direct (t : Target) : Prop := t.fields.1.Direct ∧ t.fields.2.Direct

instance (t : Target) : Decidable t.Direct := inferInstanceAs (Decidable (_ ∧ _))

/-- The write is inside the field, but after the start of its last pixel. -/
def Field.HitsTail (f : Field) (w : TexWrite) : Prop :=
  f.last < w.addr - TexArea.first .tex32 ∧ w.addr - TexArea.first .tex32 ≤ f.stop

/-- The write is between the first byte of the field and its last pixel. -/
def Field.HitsRange (f : Field) (w : TexWrite) : Prop :=
  f.first.toNat < (w.addr - TexArea.first .tex32).toNat + w.size.bytes ∧
    w.addr - TexArea.first .tex32 ≤ f.last

namespace FbMoved

variable (m : FbMoved)

/-- After a write the host does not have the newest contents of a framebuffer to which a byte that
was written belongs. -/
def Clears : Prop :=
  match m.action with
  | .write w => ∀ idx, (∃ b ∈ w.written, (m.after.fbs idx).Backs b) →
      (m.after.fbs idx).state.hasGfx = false
  | _ => True

/-- Framebuffers are set to fields without mirrors, and writes are aligned. -/
def Fits : Prop :=
  match m.action with
  | .write w => w.Aligned
  | .setRenderTarget r _ => ∀ t ∈ r.renderTarget, t.Direct
  | .render r _ => ∀ t ∈ r.readTarget, t.Direct

instance : (m : FbMoved) → Decidable m.Fits
  | ⟨.write w, _, _⟩ => inferInstanceAs (Decidable w.Aligned)
  | ⟨.setRenderTarget r _, _, _⟩ => inferInstanceAs (Decidable (∀ t ∈ r.renderTarget, t.Direct))
  | ⟨.render r _, _, _⟩ => inferInstanceAs (Decidable (∀ t ∈ r.readTarget, t.Direct))

/-- A write hits a framebuffer of the host in the last pixel of a field only. -/
def HitsTailOnly : Prop :=
  match m.action with
  | .write w => ∃ idx, (m.before.fbs idx).state.hasGfx = true ∧
      ((m.before.fbs idx).fields.1.HitsTail w ∨ (m.before.fbs idx).fields.2.HitsTail w) ∧
      ¬(m.before.fbs idx).fields.1.HitsRange w ∧ ¬(m.before.fbs idx).fields.2.HitsRange w
  | _ => False

end FbMoved

/-! ## Offsets and bytes -/

def TexArea.base : TexArea → Nat
  | tex32 => 0
  | tex64 => 0xff000000

theorem texByte_of_window {area : TexArea} {offs : UInt32} (ge : area.base ≤ offs.toNat)
    (lt : offs.toNat < area.base + TexArea.len) :
    texByte offs = some (area, offs.toNat - area.base) := by
  have hbyte : (offs &&& 0x7fffff).toNat = offs.toNat % 2 ^ 23 :=
    WordMask.toNat_and_low offs rfl
  have harea : ((offs + TexArea.first .tex32) &&& 0xff000000).toNat =
      (offs + TexArea.first .tex32).toNat - (offs + TexArea.first .tex32).toNat % 2 ^ 24 :=
    WordMask.toNat_and_high (m := 0x00ffffff) rfl
  have hmod : offs.toNat % 2 ^ 23 = offs.toNat - area.base := by
    cases area <;> simp only [TexArea.base, TexArea.len] at ge lt ⊢ <;> omega
  have hfirst : (offs + TexArea.first .tex32) &&& 0xff000000 = area.first := by
    apply UInt32.toNat_inj.mp
    rw [harea, UInt32.toNat_add]
    cases area <;>
      simp only [TexArea.base, TexArea.first, TexArea.len, reduceToNat] at ge lt ⊢ <;> omega
  rw [texByte, hfirst, hbyte, hmod]
  cases area <;> rfl

theorem InWindow.area {a b : UInt32} (window : InWindow a b) :
    ∃ area : TexArea, area.base ≤ a.toNat ∧ b.toNat < area.base + TexArea.len := by
  obtain ⟨-, h | ⟨hge, h⟩⟩ := window
  · rw [le_iff_toNat_le] at h
    exact ⟨.tex32, Nat.zero_le _, Nat.lt_succ_of_le h⟩
  · rw [le_iff_toNat_le] at h hge
    exact ⟨.tex64, hge, Nat.lt_succ_of_le h⟩

theorem Field.backs_iff {f : Field} {area : TexArea} {b : TexArea × Nat}
    (le : f.first ≤ f.stop) (ge : area.base ≤ f.first.toNat)
    (lt : f.stop.toNat < area.base + TexArea.len) :
    f.Backs b ↔ b.1 = area ∧ f.first.toNat ≤ area.base + b.2 ∧ area.base + b.2 ≤ f.stop.toNat := by
  have hsub : (f.stop - f.first).toNat = f.stop.toNat - f.first.toNat :=
    UInt32.toNat_sub_of_le _ _ le
  have hle := le_iff_toNat_le.mp le
  have hstop := f.stop.toNat_lt
  have hadd : ∀ j, j ≤ f.stop.toNat - f.first.toNat →
      (f.first + ofNat j).toNat = f.first.toNat + j := by
    intro j hj
    rw [UInt32.toNat_add, toNat_ofNat', Nat.mod_eq_of_lt (by omega : j < 2 ^ 32),
      Nat.mod_eq_of_lt (by omega)]
  have hbyte : ∀ j, j ≤ f.stop.toNat - f.first.toNat →
      texByte (f.first + ofNat j) = some (area, f.first.toNat + j - area.base) := by
    intro j hj
    have hwindow := @texByte_of_window area (f.first + ofNat j)
    rw [hadd j hj] at hwindow
    exact hwindow (by omega) (by omega)
  rw [Backs, hsub]
  constructor
  · rintro ⟨j, hj, hb⟩
    rw [hbyte j hj] at hb
    cases hb
    exact ⟨rfl, by dsimp only; omega, by dsimp only; omega⟩
  · rintro ⟨rfl, hfirst, hlast⟩
    refine ⟨b.1.base + b.2 - f.first.toNat, by omega, ?_⟩
    rw [hbyte _ (by omega), show f.first.toNat + (b.1.base + b.2 - f.first.toNat) - b.1.base = b.2
      by omega]

theorem TexWrite.InBounds.offs {w : TexWrite} (inBounds : w.InBounds) :
    (w.addr - TexArea.first .tex32).toNat =
        w.area.base + (w.addr.toNat - w.area.first.toNat) ∧
      (w.addr - TexArea.first .tex32).toNat + w.size.bytes ≤ w.area.base + TexArea.len := by
  obtain ⟨hge, hle, hend⟩ := inBounds
  rw [le_iff_toNat_le] at hge hle
  have hoffs := UInt32.toNat_sub w.addr (TexArea.first .tex32)
  rw [hoffs]
  cases harea : w.area <;>
    simp only [harea, TexArea.base, TexArea.first, TexArea.last, TexArea.len,
      reduceToNat] at hge hle hend ⊢ <;>
    omega

/-! ## Writes and fields -/

section
variable {f : Field} {w : TexWrite}

theorem Field.hit_iff (window : InWindow f.first f.stop) (inBounds : w.InBounds)
    (aligned : w.Aligned) :
    (∃ b ∈ w.written, f.Backs b) ↔
      f.first.toNat < (w.addr - TexArea.first .tex32).toNat + w.size.bytes ∧
        w.addr - TexArea.first .tex32 ≤ f.stop := by
  obtain ⟨hoffs, hend⟩ := inBounds.offs
  have hle := window.1
  have hle' := le_iff_toNat_le.mp hle
  rw [le_iff_toNat_le]
  have hpos := w.size.bytes_pos
  obtain ⟨area, hge, hlt⟩ := window.area
  simp only [backs_iff hle hge hlt, TexWrite.mem_written, aligned.index_mul]
  constructor
  · rintro ⟨b, ⟨harea, hb1, hb2⟩, harea', hb3, hb4⟩
    rw [← harea', harea] at hb3 hb4
    omega
  · rintro ⟨h1, h2⟩
    -- The windows do not meet, so that the field is in the area of the write.
    have hsame : area = w.area := by
      cases area <;> cases harea : w.area <;>
        simp only [harea, TexArea.base, TexArea.len] at hge hlt hoffs hend ⊢ <;> omega
    subst hsame
    refine ⟨(w.area, max f.first.toNat (w.addr - TexArea.first .tex32).toNat - w.area.base),
      ⟨rfl, ?_, ?_⟩, rfl, ?_, ?_⟩ <;> dsimp only <;> omega

theorem checkOverlap_iff {a b c d : UInt32} (le₁ : a ≤ b) (le₂ : c ≤ d) :
    checkOverlap a b c d = true ↔ c ≤ b ∧ a ≤ d := by
  simp only [checkOverlap, Bool.or_eq_true, decide_eq_true_eq, le_iff_toNat_le] at *
  omega

theorem Field.checkOverlap_iff_hitsRange (direct : f.Direct) (inBounds : w.InBounds) :
    checkOverlap (w.addr - TexArea.first .tex32)
        (ofNat w.size.bytes - 1 + (w.addr - TexArea.first .tex32)) f.first f.last = true ↔
      f.HitsRange w := by
  obtain ⟨hoffs, hend⟩ := inBounds.offs
  have hpos := w.size.bytes_pos
  have hlen : w.area.base + TexArea.len < 2 ^ 32 := by cases w.area <;> decide
  have hlast : (ofNat w.size.bytes - 1 + (w.addr - TexArea.first .tex32)).toNat =
      (w.addr - TexArea.first .tex32).toNat + w.size.bytes - 1 := by
    have hsize : (ofNat w.size.bytes - 1).toNat = w.size.bytes - 1 := by
      cases w.size <;> rfl
    rw [UInt32.toNat_add, hsize, Nat.mod_eq_of_lt (by omega)]
    omega
  rw [checkOverlap_iff _ direct.1.1, HitsRange, le_iff_toNat_le, hlast]
  · constructor
    · rintro ⟨h1, h2⟩
      exact ⟨by omega, h2⟩
    · rintro ⟨h1, h2⟩
      exact ⟨by omega, h2⟩
  · rw [le_iff_toNat_le, hlast]
    omega

theorem Field.hit_and_not_hitsRange_iff (direct : f.Direct) (inBounds : w.InBounds)
    (aligned : w.Aligned) (miss : ¬f.HitsRange w) :
    (∃ b ∈ w.written, f.Backs b) ↔ f.HitsTail w := by
  have hle := direct.1.1
  rw [hit_iff direct.2 inBounds aligned]
  simp only [HitsRange, HitsTail, le_iff_toNat_le, lt_iff_toNat_lt] at *
  omega

end

/-! ## The heap -/

namespace FbHeap

variable {heap heap' : FbHeap}

def Direct (heap : FbHeap) : Prop :=
  ∀ idx, (heap.fbs idx).state.hasGfx = true →
    (heap.fbs idx).fields.1.Direct ∧ (heap.fbs idx).fields.2.Direct

theorem direct_init : init.Direct := fun _ h => absurd h Bool.false_ne_true

section
variable (direct : heap.Direct)
include direct

variable {idx : Fin 8} {copied : Bool} {r : FbRegs}

theorem Direct.update {fb : Framebuffer} {stamp : UInt32}
    (new : fb.state.hasGfx = true → fb.fields.1.Direct ∧ fb.fields.2.Direct) :
    (FbHeap.mk (Function.update heap.fbs idx fb) stamp).Direct := by
  intro i hgfx
  by_cases hi : i = idx
  · subst hi
    simp only [Function.update_self] at hgfx ⊢
    exact new hgfx
  · simp only [Function.update_of_ne hi] at hgfx ⊢
    exact direct i hgfx

theorem Direct.load (idx : Fin 8) {t : Target} (tDirect : t.Direct) (state : FbState) :
    (heap.load idx t state).Direct :=
  direct.update fun _ => tDirect

theorem Direct.pickFb {width height addrKey : UInt32}
    (picked : heap.pickFb width height addrKey copied = some (idx, heap')) :
    heap'.Direct := by
  unfold FbHeap.pickFb at picked
  split at picked
  · cases picked
    exact direct
  · split at picked
    · cases picked
    · split at picked
      · cases picked
        exact direct.update fun h => absurd h Bool.false_ne_true
      · cases picked

theorem Direct.setRenderTarget (fits : ∀ t ∈ r.renderTarget, t.Direct)
    (set : heap.setRenderTarget r copied = some heap') : heap'.Direct := by
  obtain ⟨t, ht, set⟩ := bind_eq_some_iff.mp set
  obtain ⟨⟨idx, heap₁⟩, hpick, set⟩ := bind_eq_some_iff.mp set
  cases set
  exact (direct.pickFb hpick).load idx (fits t ht) .gfx

theorem Direct.showFrame (fits : ∀ t ∈ r.readTarget, t.Direct)
    (shown : heap.showFrame r copied = some heap') :
    heap'.Direct := by
  obtain ⟨⟨width, height⟩, -, shown⟩ := bind_eq_some_iff.mp shown
  dsimp only at shown
  split at shown
  · split at shown
    · cases shown
      exact direct
    · obtain ⟨t, ht, shown⟩ := bind_eq_some_iff.mp shown
      cases shown
      exact direct.load _ (fits t ht) .virtAndGfx
  · obtain ⟨⟨idx, heap₁⟩, hpick, shown⟩ := bind_eq_some_iff.mp shown
    obtain ⟨t, ht, shown⟩ := bind_eq_some_iff.mp shown
    cases shown
    exact (direct.pickFb hpick).load idx (fits t ht) .virtAndGfx

theorem Direct.render (fits : ∀ t ∈ r.readTarget, t.Direct)
    (rendered : heap.render r copied = some heap') :
    heap'.Direct := by
  unfold FbHeap.render at rendered
  split at rendered
  · cases rendered
    exact direct
  · obtain ⟨heap₁, hshow, heq⟩ := map_eq_some_iff.mp rendered
    cases heq
    have hdirect : heap₁.Direct := direct.showFrame fits hshow
    exact hdirect

end

theorem notifyWrite_fields (heap : FbHeap) (addr : UInt32) (nBytes : Nat) (idx : Fin 8) :
    ((heap.notifyWrite addr nBytes).fbs idx).fields = (heap.fbs idx).fields := by
  unfold notifyWrite
  dsimp only
  split <;> rfl

section
variable (direct : heap.Direct)
include direct

theorem notifyWrite_hasGfx {w : TexWrite} (inBounds : w.InBounds) (idx : Fin 8) :
    ((heap.notifyWrite w.addr w.size.bytes).fbs idx).state.hasGfx = true ↔
      (heap.fbs idx).state.hasGfx = true ∧ ¬(heap.fbs idx).fields.1.HitsRange w ∧
        ¬(heap.fbs idx).fields.2.HitsRange w := by
  unfold notifyWrite
  dsimp only
  cases hgfx : (heap.fbs idx).state.hasGfx with
  | false => simp [hgfx]
  | true =>
    obtain ⟨hdirect1, hdirect2⟩ := direct idx hgfx
    rw [← Field.checkOverlap_iff_hitsRange hdirect1 inBounds,
      ← Field.checkOverlap_iff_hitsRange hdirect2 inBounds]
    split
    next h =>
      rw [Bool.true_and, Bool.or_eq_true] at h
      refine iff_of_false Bool.false_ne_true ?_
      rintro ⟨-, h1, h2⟩
      exact h.elim h1 h2
    next h =>
      rw [Bool.true_and, Bool.or_eq_true, not_or] at h
      exact iff_of_true hgfx ⟨rfl, h⟩

theorem Direct.write {w : TexWrite} (written : heap.write w = some heap') :
    w.InBounds ∧ heap' = heap.notifyWrite w.addr w.size.bytes ∧ heap'.Direct := by
  unfold FbHeap.write at written
  split at written
  next inBounds =>
    cases written
    refine ⟨inBounds, rfl, ?_⟩
    intro idx hgfx
    rw [notifyWrite_fields]
    exact direct idx ((notifyWrite_hasGfx direct inBounds idx).mp hgfx).1
  next => cases written

theorem Direct.act {a : FbAction} (act : heap.act a = some heap')
    (fits : FbMoved.Fits ⟨a, heap, heap'⟩) : heap'.Direct := by
  cases a with
  | write w => exact (direct.write act).2.2
  | setRenderTarget r copied => exact direct.setRenderTarget fits act
  | render r copied => exact direct.render fits act

theorem Direct.clears_iff {a : FbAction} (act : heap.act a = some heap')
    (fits : FbMoved.Fits ⟨a, heap, heap'⟩) :
    FbMoved.Clears ⟨a, heap, heap'⟩ ↔ ¬FbMoved.HitsTailOnly ⟨a, heap, heap'⟩ := by
  cases a with
  | setRenderTarget _ _ | render _ _ => exact iff_of_true trivial not_false
  | write w =>
    obtain ⟨inBounds, rfl, -⟩ := direct.write act
    have aligned : w.Aligned := fits
    constructor
    · rintro hclears ⟨idx, hgfx, htail, hmiss1, hmiss2⟩
      obtain ⟨hdirect1, hdirect2⟩ := direct idx hgfx
      have hstays := (notifyWrite_hasGfx direct inBounds idx).mpr ⟨hgfx, hmiss1, hmiss2⟩
      have hfalse := hclears idx ?_
      · rw [hstays] at hfalse
        cases hfalse
      · simp only [Framebuffer.Backs, notifyWrite_fields]
        rcases htail with htail | htail
        · obtain ⟨b, hb, hbacks⟩ :=
            (Field.hit_and_not_hitsRange_iff hdirect1 inBounds aligned hmiss1).mpr htail
          exact ⟨b, hb, .inl hbacks⟩
        · obtain ⟨b, hb, hbacks⟩ :=
            (Field.hit_and_not_hitsRange_iff hdirect2 inBounds aligned hmiss2).mpr htail
          exact ⟨b, hb, .inr hbacks⟩
    · rintro hnone idx ⟨b, hb, hbacks⟩
      rw [Bool.eq_false_iff]
      intro hstays
      obtain ⟨hgfx, hmiss1, hmiss2⟩ := (notifyWrite_hasGfx direct inBounds idx).mp hstays
      obtain ⟨hdirect1, hdirect2⟩ := direct idx hgfx
      simp only [Framebuffer.Backs, notifyWrite_fields] at hbacks
      refine hnone ⟨idx, hgfx, ?_, hmiss1, hmiss2⟩
      rcases hbacks with hbacks | hbacks
      · exact .inl ((Field.hit_and_not_hitsRange_iff hdirect1 inBounds aligned hmiss1).mp
          ⟨b, hb, hbacks⟩)
      · exact .inr ((Field.hit_and_not_hitsRange_iff hdirect2 inBounds aligned hmiss2).mp
          ⟨b, hb, hbacks⟩)

end

end FbHeap

/-- As long as framebuffers do not use mirrors and writes are aligned, a write leaves the host with
old contents exactly if it hits a framebuffer in its last pixel only. -/
theorem FbHeap.clears_iff_of_fits {as : List FbAction}
    (fits : ∀ m ∈ (run step init as).1, m.Fits) :
    ∀ m ∈ (run step init as).1, m.Clears ↔ ¬m.HitsTailOnly := by
  refine run_observes_of_invariant (P := FbMoved.Fits) (I := Direct) ?_ fits direct_init
  intro heap a m heap' hstep hfits direct
  obtain ⟨heap₁, hact, heq⟩ := map_eq_some_iff.mp hstep
  cases heq
  exact ⟨direct.clears_iff hact hfits, direct.act hact hfits⟩

def smallFrame (fbWSof1 : UInt32) : FbRegs := ⟨0, 0, 0, 0, 1, fbWSof1, 0⟩

theorem FbHeap.clears_iff_of_fits_smallFrame :
    let as := [.setRenderTarget (smallFrame 0) true, .write ⟨.tex32, .two, 0x05000002, 0⟩]
    (run step init as).1.length = 2 ∧
      ∀ m ∈ (run step init as).1, m.Clears ↔ ¬m.HitsTailOnly :=
  ⟨by decide +kernel, clears_iff_of_fits (by decide +kernel)⟩

/-- A frame at the mirror of the 64-bit area that games use to render to textures is not found, and
neither is a frame of which the last byte is written. -/
theorem FbHeap.write_not_noticed :
    let after fbWSof1 w := (init.setRenderTarget (smallFrame fbWSof1) true).bind (write · w)
    let texture : TexWrite := ⟨.tex64, .four, 0x04000000, 0⟩
    let lastByte : TexWrite := ⟨.tex32, .one, 0x05000003, 0⟩
    (∃ heap, after 0x01000000 texture = some heap ∧ (heap.fbs 0).state = .gfx ∧
        ∃ b ∈ texture.written, (heap.fbs 0).Backs b) ∧
      ∃ heap, after 0 lastByte = some heap ∧ (heap.fbs 0).state = .gfx ∧
        ∃ b ∈ lastByte.written, (heap.fbs 0).Backs b := by
  refine ⟨⟨_, rfl, by decide +kernel, (.tex64, 0), by decide +kernel, .inl ⟨0, ?_, ?_⟩⟩,
    ⟨_, rfl, by decide +kernel, (.tex32, 3), by decide +kernel, .inl ⟨3, ?_, ?_⟩⟩⟩ <;> decide +kernel

end Pvr2
