import WashingtonDC.Pvr2.Raster

/-!
# How soon a write schedules the vertical interrupts

A write to `SPG_LOAD` or `SPG_VBLANK_INT` schedules the vertical interrupts from the position of the
raster, which is not moved into the new geometry. The interrupts come within a frame if and only if
the position, counted in pixels of the new lines, is before the line that is meant; otherwise an
unsigned subtraction wraps around, or the interrupt is not later than now.

This is for every state that is reached from `spg_init`: the raster has at most ten bits in each
direction and the divider of the pixel clock is 1 or 2.
-/
namespace Pvr2

open EventSlot Nat Lockstep

namespace Spg

variable {spg spg' : Spg} {now : Nat} {line : UInt32}

/-! ## The pixels to a line -/

/-- What is known of the raster in any geometry. -/
structure Placed (spg : Spg) : Prop where
  pclk : spg.pclkDiv = 1 ∨ spg.pclkDiv = 2
  x : spg.rasterX.toNat < 1024
  y : spg.rasterY.toNat < 1024

/-- The line of this frame or, if the raster has reached it, of the next one. -/
def nextLine (spg : Spg) (line : UInt32) : Nat :=
  if spg.rasterY < line then line.toNat else spg.vcount.toNat + line.toNat

def Precedes (spg : Spg) (line : UInt32) : Prop :=
  spg.rasterY.toNat * spg.hcount.toNat + spg.rasterX.toNat < spg.nextLine line * spg.hcount.toNat

instance : Decidable (spg.Precedes line) := inferInstanceAs (Decidable (_ < _))

def framePixels (spg : Spg) : Nat := spg.hcount.toNat * spg.vcount.toNat

theorem pixelsUntil_add (spg : Spg) (line : UInt32) :
    spg.pixelsUntil line + (spg.rasterY * spg.hcount + spg.rasterX) =
      UInt32.ofNat (spg.nextLine line) * spg.hcount := by
  have hline : UInt32.ofNat (spg.nextLine line) =
      if spg.rasterY < line then line else spg.vcount + line := by
    rw [nextLine]
    split
    · exact UInt32.ofNat_toNat
    · rw [UInt32.ofNat_add, UInt32.ofNat_toNat, UInt32.ofNat_toNat]
  rw [hline, pixelsUntil]
  split
  · grind
  · grind

theorem Placed.pixelsUntil_iff (placed : spg.Placed) (inside : line < spg.vcount) :
    (1 ≤ (spg.pixelsUntil line).toNat ∧ (spg.pixelsUntil line).toNat ≤ spg.framePixels) ↔
      spg.Precedes line := by
  obtain ⟨hh1, hh2⟩ := spg.hcount_toNat
  obtain ⟨hv1, hv2⟩ := spg.vcount_toNat
  have hx := placed.x
  have hy := placed.y
  have hline : line.toNat < spg.vcount.toNat := inside
  have hnext : spg.nextLine line ≤ 2047 ∧
      spg.nextLine line ≤ spg.rasterY.toNat + spg.vcount.toNat := by
    rw [nextLine]
    split
    · omega
    · rename_i hpast
      have hge : line.toNat ≤ spg.rasterY.toNat := UInt32.not_lt.mp hpast
      omega
  -- everything is far below 2 ^ 32
  have hbefore : spg.rasterY.toNat * spg.hcount.toNat ≤ 1023 * 1024 :=
    Nat.mul_le_mul (by omega) hh2
  have hframe : spg.framePixels ≤ 1024 * 1024 := Nat.mul_le_mul hh2 hv2
  have hreach : spg.nextLine line * spg.hcount.toNat ≤
      spg.rasterY.toNat * spg.hcount.toNat + spg.framePixels := by
    calc spg.nextLine line * spg.hcount.toNat
      _ ≤ (spg.rasterY.toNat + spg.vcount.toNat) * spg.hcount.toNat :=
        Nat.mul_le_mul_right _ hnext.2
      _ = spg.rasterY.toNat * spg.hcount.toNat + spg.framePixels := by
        rw [framePixels]
        ring
  have hsum : ((spg.pixelsUntil line).toNat +
      (spg.rasterY.toNat * spg.hcount.toNat + spg.rasterX.toNat)) % 2 ^ 32 =
        spg.nextLine line * spg.hcount.toNat := by
    have hadd := congrArg UInt32.toNat (spg.pixelsUntil_add line)
    rw [UInt32.toNat_add, UInt32.toNat_add, UInt32.toNat_mul, UInt32.toNat_mul,
      UInt32.toNat_ofNat', mod_eq_of_lt (by omega : spg.nextLine line < 2 ^ 32),
      mod_eq_of_lt (by omega : spg.nextLine line * spg.hcount.toNat < 2 ^ 32),
      mod_eq_of_lt (by omega : spg.rasterY.toNat * spg.hcount.toNat < 2 ^ 32),
      mod_eq_of_lt (by omega :
        spg.rasterY.toNat * spg.hcount.toNat + spg.rasterX.toNat < 2 ^ 32)] at hadd
    exact hadd
  have hlt := (spg.pixelsUntil line).toNat_lt
  rw [Precedes]
  omega

theorem Placed.pixelsFromNow_iff (placed : spg.Placed) (pixels : UInt32) :
    (now < spg.pixelsFromNow now pixels ∧
        spg.pixelsFromNow now pixels ≤ now + spg.framePixels * spg.pixelDiv) ↔
      1 ≤ pixels.toNat ∧ pixels.toNat ≤ spg.framePixels := by
  obtain ⟨hdiv, -⟩ := pixelDiv_bounds placed.pclk
  have hnow := div_add_mod now spg.pixelDiv
  have hrest := mod_lt now hdiv
  have hwhen : spg.pixelsFromNow now pixels =
      pixels.toNat * spg.pixelDiv + spg.pixelDiv * (now / spg.pixelDiv) := by
    rw [pixelsFromNow]
    ring
  rw [hwhen]
  refine and_congr ?_ ?_
  · constructor
    · intro hlt
      rcases Nat.eq_zero_or_pos pixels.toNat with hzero | hpos
      · rw [hzero, zero_mul] at hlt
        omega
      · exact hpos
    · intro hpos
      have hmul := Nat.mul_le_mul_right spg.pixelDiv hpos
      omega
  · constructor
    · intro hle
      refine le_of_lt_succ (Nat.lt_of_mul_lt_mul_right (a := spg.pixelDiv) ?_)
      rw [succ_mul]
      omega
    · intro hle
      have hmul := Nat.mul_le_mul_right spg.pixelDiv hle
      omega

/-! ## The events of a write -/

theorem event_of_sched {f e : Flagged} {due : Nat} (h : f.sched due = .ok e) :
    e.event = some due := by
  cases hevent : f.event with
  | none =>
    cases (Flagged.sched_of_absent hevent).symm.trans h
    rfl
  | some due' =>
    rw [Flagged.sched_of_present (by rw [hevent]; rfl)] at h
    cases h

theorem schedAll_vblank (h : spg.schedAll now = .ok spg') :
    ∃ e1 e2 e3 : Flagged,
      spg' = { spg with hblankEvent := e1, vblankInEvent := e2, vblankOutEvent := e3 } ∧
      e2.event = some (spg'.pixelsFromNow now (spg'.pixelsUntil spg'.vblankInIntLine)) ∧
      e3.event = some (spg'.pixelsFromNow now (spg'.pixelsUntil spg'.vblankOutIntLine)) := by
  obtain ⟨spg1, spg2, h1, h2, h3⟩ := schedAll_ok h
  obtain ⟨e1, rfl⟩ := schedNext_eq_setEvent h1
  obtain ⟨e2, hin, rfl⟩ := map_eq_ok h2
  obtain ⟨e3, hout, rfl⟩ := map_eq_ok h3
  exact ⟨e1, e2, e3, rfl, event_of_sched hin, event_of_sched hout⟩

/-! ## The raster in every run -/

theorem Placed.setEvent (placed : spg.Placed) (e : Flagged) (blank : Blank) :
    (spg.setEvent e blank).Placed := by
  obtain ⟨hpclk, hx, hy⟩ := placed
  cases blank <;> exact ⟨hpclk, hx, hy⟩

theorem Placed.sync (placed : spg.Placed) : (spg.sync now).Placed := by
  have hlt : ∀ {a b : UInt32}, 1 ≤ b.toNat ∧ b.toNat ≤ 1024 → (a % b).toNat < 1024 := by
    intro a b hb
    rw [UInt32.toNat_mod]
    exact lt_of_lt_of_le (mod_lt _ hb.1) hb.2
  unfold Spg.sync
  dsimp only
  split
  · exact ⟨placed.pclk, hlt spg.hcount_toNat, hlt spg.vcount_toNat⟩
  · exact placed

theorem Placed.schedAll (placed : spg.Placed) (h : spg.schedAll now = .ok spg') : spg'.Placed := by
  obtain ⟨e1, e2, e3, rfl, -, -⟩ := schedAll_vblank h
  exact ⟨placed.pclk, placed.x, placed.y⟩

theorem reconfigure_eq_ok {change : Spg → Spg} (h : spg.reconfigure now change = .ok spg') :
    ∃ e1 e2 e3 : Flagged, ((change { spg.sync now with
      hblankEvent := e1, vblankInEvent := e2, vblankOutEvent := e3 }).sync now).schedAll now =
        .ok spg' := by
  unfold Spg.reconfigure at h
  obtain ⟨quiet, hquiet, h⟩ := bind_eq_ok h
  obtain ⟨e1, -, hquiet⟩ := bind_eq_ok hquiet
  obtain ⟨e2, -, hquiet⟩ := bind_eq_ok hquiet
  obtain ⟨e3, -, hquiet⟩ := bind_eq_ok hquiet
  cases hquiet
  exact ⟨e1, e2, e3, h⟩

theorem Placed.reconfigure (placed : spg.Placed) {change : Spg → Spg}
    (h : spg.reconfigure now change = .ok spg')
    (keeps : ∀ s : Spg, s.Placed → (change s).Placed) : spg'.Placed := by
  obtain ⟨e1, e2, e3, hsched⟩ := reconfigure_eq_ok h
  obtain ⟨hpclk, hx, hy⟩ := @Placed.sync spg now placed
  refine Placed.schedAll (Placed.sync (keeps _ ?_)) hsched
  exact ⟨hpclk, hx, hy⟩

theorem sync_of_lt (lt : now - spg.lastSyncRounded < spg.pixelDiv) : spg.sync now = spg := by
  unfold Spg.sync
  exact if_neg (Nat.not_le_of_lt lt)

theorem Placed.sync_lt (placed : spg.Placed) :
    now - (spg.sync now).lastSyncRounded < (spg.sync now).pixelDiv := by
  have hdiv : (spg.sync now).pixelDiv = spg.pixelDiv := by
    obtain ⟨last, x, y, e1, e2, e3, hsync⟩ := sameRegs_sync spg now
    rw [hsync]
    rfl
  rw [hdiv]
  unfold Spg.sync
  dsimp only
  split
  · have hmod := mod_lt now (pixelDiv_bounds placed.pclk).1
    have hdiv := div_add_mod now spg.pixelDiv
    dsimp only
    omega
  · omega

theorem Placed.reconfigure_frame (placed : spg.Placed) {load vblankInt : UInt32 → UInt32}
    (h : spg.reconfigure now
      (fun s => { s with load := load s.load, vblankInt := vblankInt s.vblankInt }) = .ok spg') :
    spg'.raster = (spg.sync now).raster ∧
      spg'.vblankInEvent.event =
        some (spg'.pixelsFromNow now (spg'.pixelsUntil spg'.vblankInIntLine)) ∧
      spg'.vblankOutEvent.event =
        some (spg'.pixelsFromNow now (spg'.pixelsUntil spg'.vblankOutIntLine)) := by
  obtain ⟨e1, e2, e3, hsched⟩ := reconfigure_eq_ok h
  have hlt := @Placed.sync_lt spg now placed
  rw [sync_of_lt] at hsched
  swap
  · exact hlt
  obtain ⟨g1, g2, g3, rfl, hin, hout⟩ := schedAll_vblank hsched
  exact ⟨rfl, hin, hout⟩

theorem precedes_of_inside (hx : spg.rasterX < spg.hcount) (hy : spg.rasterY < spg.vcount) :
    spg.Precedes line := by
  have hx' : spg.rasterX.toNat < spg.hcount.toNat := hx
  have hy' : spg.rasterY.toNat < spg.vcount.toNat := hy
  have hnext : spg.rasterY.toNat + 1 ≤ spg.nextLine line := by
    rw [nextLine]
    split
    · assumption
    · omega
  calc spg.rasterY.toNat * spg.hcount.toNat + spg.rasterX.toNat
    _ < spg.rasterY.toNat * spg.hcount.toNat + spg.hcount.toNat := Nat.add_lt_add_left hx' _
    _ = (spg.rasterY.toNat + 1) * spg.hcount.toNat := (succ_mul _ _).symm
    _ ≤ spg.nextLine line * spg.hcount.toNat := Nat.mul_le_mul_right _ hnext

end Spg

namespace Timed

variable {t t' : Timed} {a : SpgAction}

theorem placed_act (h : t.act a = some t') (placed : t.spg.Placed) : t'.spg.Placed := by
  cases a with
  | advance cycles =>
    simp only [act] at h
    split at h
    · cases h
      exact placed
    · cases h
  | fire blank =>
    simp only [act] at h
    split at h
    · obtain ⟨spg', hhandle, rfl⟩ := withSpg_eq_some h
      obtain ⟨e, rfl⟩ := Spg.schedNext_eq_setEvent hhandle
      exact (placed.setEvent _ blank).sync.setEvent e blank
    · cases h
  | setHblankInt val | setVblankInt val | setLoad val =>
    obtain ⟨spg', hset, rfl⟩ := withSpg_eq_some h
    exact placed.reconfigure hset fun s hs => ⟨hs.pclk, hs.x, hs.y⟩
  | setControl val =>
    cases h
    exact ⟨placed.pclk, placed.x, placed.y⟩
  | setPclkDiv val =>
    obtain ⟨spg', hset, rfl⟩ := withSpg_eq_some h
    simp only [Spg.setPclkDiv] at hset
    split at hset
    · cases hset
    · rename_i hval
      have hpclk : val = 1 ∨ val = 2 := by
        by_contra hne
        exact hval (not_or.mp hne)
      exact placed.reconfigure hset fun s hs => ⟨hpclk, hs.x, hs.y⟩

theorem placed_start (start : Timed.start = some t) : t.spg.Placed := by
  obtain ⟨spg, hinit, rfl⟩ := Timed.start_eq_some start
  refine Spg.Placed.schedAll ⟨.inr rfl, ?_, ?_⟩ hinit
  · decide
  · decide

end Timed

/-- The writes that change the frame or the lines of its interrupts. -/
def SpgAction.setsFrame : SpgAction → Bool
  | .setLoad _ | .setVblankInt _ => true
  | _ => false

def SpgMoved.Within (m : SpgMoved) (e : Flagged) : Prop :=
  ∃ due ∈ e.event, m.after.now < due ∧
    due ≤ m.after.now + m.after.spg.framePixels * m.after.spg.pixelDiv

/-- In every run from `spg_init` a write to `SPG_LOAD` or `SPG_VBLANK_INT` uses the old position of
the raster. The vertical interrupts that it schedules come within a frame if and only if this position
is before their lines, as it is inside the new geometry. -/
theorem vblank_within_frame_iff (t : Timed) (start : Timed.start = some t) (as : List SpgAction) :
    ∀ m ∈ (run Timed.step t as).1, m.action.setsFrame = true →
      m.after.spg.vblankInIntLine < m.after.spg.vcount →
      m.after.spg.vblankOutIntLine < m.after.spg.vcount →
        m.after.spg.raster = (m.before.spg.sync m.before.now).raster ∧
        (m.Within m.after.spg.vblankInEvent ↔ m.after.spg.Precedes m.after.spg.vblankInIntLine) ∧
        (m.Within m.after.spg.vblankOutEvent ↔
          m.after.spg.Precedes m.after.spg.vblankOutIntLine) ∧
        (m.after.spg.rasterX < m.after.spg.hcount → m.after.spg.rasterY < m.after.spg.vcount →
          m.Within m.after.spg.vblankInEvent ∧ m.Within m.after.spg.vblankOutEvent) := by
  refine run_observes_of_invariant (P := fun _ => True) (I := fun t => t.spg.Placed) ?_
    (fun _ _ => trivial) (Timed.placed_start start)
  intro t a m t' hstep _ placed
  obtain ⟨t', hact, hmove⟩ := Option.map_eq_some_iff.mp hstep
  cases hmove
  have placed' := Timed.placed_act hact placed
  refine ⟨?_, placed'⟩
  intro hsets hin hout
  -- both writes change the registers only
  obtain ⟨hnow, hraster, hineq, houteq⟩ : t'.now = t.now ∧
      t'.spg.raster = (t.spg.sync t.now).raster ∧
      t'.spg.vblankInEvent.event =
        some (t'.spg.pixelsFromNow t.now (t'.spg.pixelsUntil t'.spg.vblankInIntLine)) ∧
      t'.spg.vblankOutEvent.event =
        some (t'.spg.pixelsFromNow t.now (t'.spg.pixelsUntil t'.spg.vblankOutIntLine)) := by
    cases a with
    | setLoad val =>
      obtain ⟨spg', hset, rfl⟩ := Timed.withSpg_eq_some hact
      exact ⟨rfl, @Spg.Placed.reconfigure_frame _ _ _ placed (fun _ => val) id hset⟩
    | setVblankInt val =>
      obtain ⟨spg', hset, rfl⟩ := Timed.withSpg_eq_some hact
      exact ⟨rfl, @Spg.Placed.reconfigure_frame _ _ _ placed id (fun _ => val) hset⟩
    | advance | fire | setHblankInt | setControl | setPclkDiv => cases hsets
  have hwithin : ∀ {e : Flagged} {line : UInt32}, line < t'.spg.vcount →
      e.event = some (t'.spg.pixelsFromNow t.now (t'.spg.pixelsUntil line)) →
      (SpgMoved.Within ⟨a, t, t'⟩ e ↔ t'.spg.Precedes line) := by
    intro e line hline he
    rw [← placed'.pixelsUntil_iff hline, ← @Spg.Placed.pixelsFromNow_iff t'.spg t.now placed',
      SpgMoved.Within, he, hnow]
    constructor
    · rintro ⟨due, hdue, hrange⟩
      cases hdue
      exact hrange
    · intro hrange
      exact ⟨_, rfl, hrange⟩
  refine ⟨hraster, hwithin hin hineq, hwithin hout houteq, ?_⟩
  intro hx hy
  refine ⟨(hwithin hin hineq).mpr ?_, (hwithin hout houteq).mpr ?_⟩
  · exact Spg.precedes_of_inside hx hy
  · exact Spg.precedes_of_inside hx hy

/-- A frame of 264 lines is set when the raster is on line 21. -/
theorem vblank_within_frame_iff_load :
    ∃ m ∈ (run Timed.step (Timed.start.get isSome_start)
        [.advance 7207200, .fire .vblankOut, .setLoad 0x01070359]).1,
      m.after.spg.rasterY = 21 ∧ m.Within m.after.spg.vblankInEvent := by
  have hms : ∃ m ∈ (run Timed.step (Timed.start.get isSome_start)
      [.advance 7207200, .fire .vblankOut, .setLoad 0x01070359]).1,
      m.after.spg.rasterY = 21 ∧ m.action.setsFrame = true ∧
        m.after.spg.vblankInIntLine < m.after.spg.vcount ∧
        m.after.spg.vblankOutIntLine < m.after.spg.vcount ∧
        m.after.spg.Precedes m.after.spg.vblankInIntLine := by
    decide +kernel
  obtain ⟨m, hm, hline, hsets, hin, hout, hbefore⟩ := hms
  exact ⟨m, hm, hline, (vblank_within_frame_iff _ (Option.some_get isSome_start).symm _ m hm hsets
    hin hout).2.1.mpr hbefore⟩

/-- The raster is on line 21 when a frame of ten lines is set, with the interrupts on lines 1 and 2:
they come after more than 500000 frames. -/
theorem vblank_beyond_frame :
    ∃ m ∈ (run Timed.step (Timed.start.get isSome_start)
        [.advance 7207200, .fire .vblankOut, .setVblankInt 0x00010002, .setLoad 0x00090359]).1,
      m.action.setsFrame = true ∧ m.after.spg.vblankInIntLine < m.after.spg.vcount ∧
        m.after.spg.vblankOutIntLine < m.after.spg.vcount ∧
        ∃ due ∈ m.after.spg.vblankInEvent.event,
          m.after.now + 500000 * (m.after.spg.framePixels * m.after.spg.pixelDiv) < due := by
  decide +kernel

end Pvr2
