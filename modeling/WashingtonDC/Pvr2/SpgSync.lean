import WashingtonDC.Pvr2.Raster

/-!
# How often the raster is brought up to date

`spg_sync` is called by the handlers and by every read of the status register. As long as no
register changes, the position does not depend on how often it was called, since the time base is
rounded to whole pixels. The number of pixels since the last call has 32 bits in the source, so that
a call after more pixels than that loses them.
-/
namespace Pvr2

open RowMajor EventSlot List

namespace Spg

variable {spg : Spg} {now stamp : Nat}

/-- The states at a time that are reached from the start of the generator while no register changes:
the raster is brought up to date and the events are scheduled at will. -/
inductive Reached : Spg → Nat → Prop
  | start {spg : Spg} (now : Nat) (pclk : spg.pclkDiv = 1 ∨ spg.pclkDiv = 2)
      (last : spg.lastSyncRounded = 0) (x : spg.rasterX = 0) (y : spg.rasterY = 0) :
      Reached spg now
  | sync {spg : Spg} {now stamp : Nat} (later : now ≤ stamp) :
      Reached spg now → Reached (spg.sync stamp) stamp
  | setEvent {spg : Spg} {now : Nat} (e : Flagged) (blank : Blank) :
      Reached spg now → Reached (spg.setEvent e blank) now

theorem Steady.after_sync (steady : spg.Steady now) (later : now ≤ stamp) :
    (spg.sync stamp).Steady stamp := by
  unfold Spg.sync
  dsimp only
  split
  · constructor
    · exact steady.pclk
    · exact Nat.dvd_mul_right _ _
    · exact Nat.mul_div_le stamp _
    · exact UInt32.mod_lt _ spg.hcount_toNat.1
    · exact UInt32.mod_lt _ spg.vcount_toNat.1
  · exact ⟨steady.pclk, steady.aligned, steady.past.trans later, steady.x, steady.y⟩

theorem Reached.steady (reached : Reached spg now) : spg.Steady now := by
  induction reached with
  | @start spg now pclk last x y =>
    constructor
    · exact pclk
    · exact last ▸ Nat.dvd_zero _
    · exact last ▸ Nat.zero_le _
    · exact x ▸ spg.hcount_toNat.1
    · exact y ▸ spg.vcount_toNat.1
  | sync later _ ih => exact ih.after_sync later
  | setEvent e blank _ ih => cases blank <;> exact ⟨ih.pclk, ih.aligned, ih.past, ih.x, ih.y⟩

theorem elapsed_mono (spg : Spg) {a b : Nat} (le : a ≤ b) : spg.elapsed a ≤ spg.elapsed b :=
  Nat.sub_le_sub_right (Nat.div_le_div_right le) _

theorem Syncs.unique {spg₁ spg₂ : Spg} (h₁ : Syncs spg stamp spg₁)
    (h₂ : ∃ last x y, spg₂ = { spg with lastSyncRounded := last, rasterX := x, rasterY := y })
    (last : spg₁.lastSyncRounded = spg₂.lastSyncRounded) (raster : spg₁.raster = spg₂.raster) :
    spg₁ = spg₂ := by
  obtain ⟨⟨last₁, x₁, y₁, rfl⟩, -, -⟩ := h₁
  obtain ⟨last₂, x₂, y₂, rfl⟩ := h₂
  obtain ⟨hx, hy⟩ := Prod.mk.inj raster
  obtain rfl : x₁ = x₂ := UInt32.toNat_inj.mp hx
  obtain rfl : y₁ = y₂ := UInt32.toNat_inj.mp hy
  obtain rfl : last₁ = last₂ := last
  rfl

theorem Steady.sync_sync {a b : Nat} (steady : spg.Steady now) (ha : now ≤ a) (hb : a ≤ b)
    (fits : spg.rasterY.toNat + spg.rasterX.toNat + spg.elapsed b < 2 ^ 32) :
    (spg.sync a).sync b = spg.sync b := by
  have hmono := spg.elapsed_mono hb
  have hsteady : ∀ stamp, now ≤ stamp → spg.Steady stamp := fun stamp le =>
    ⟨steady.pclk, steady.aligned, steady.past.trans le, steady.x, steady.y⟩
  have first := (hsteady a ha).sync (by omega)
  have whole := (hsteady b (ha.trans hb)).sync fits
  have hagain := steady.after_sync ha
  generalize spg.sync a = mid at first hagain
  obtain ⟨⟨last, x, y, rfl⟩, hlast, hraster⟩ := first
  obtain ⟨hdiv, -⟩ := pixelDiv_bounds steady.pclk
  have helapsed : elapsed { spg with lastSyncRounded := last, rasterX := x, rasterY := y } b =
      spg.elapsed b - spg.elapsed a := by
    have hle : spg.lastSyncRounded / spg.pixelDiv ≤ a / spg.pixelDiv :=
      Nat.div_le_div_right (steady.past.trans ha)
    have hle' : a / spg.pixelDiv ≤ b / spg.pixelDiv := Nat.div_le_div_right hb
    cases hlast
    change b / spg.pixelDiv - spg.pixelDiv * (a / spg.pixelDiv) / spg.pixelDiv = _
    rw [Nat.mul_div_cancel_left _ hdiv, elapsed, elapsed]
    omega
  have hbound : y.toNat + x.toNat ≤ spg.rasterY.toNat + spg.rasterX.toNat + spg.elapsed a := by
    obtain ⟨hx, hy⟩ : x.toNat = _ ∧ y.toNat = _ :=
      Prod.mk.inj (hraster.trans (cell_carry _ _ _ spg.hcount_toNat.1))
    have hsplit := Nat.mod_add_div (spg.rasterX.toNat + spg.elapsed a) spg.hcount.toNat
    have hrows := Nat.le_mul_of_pos_left ((spg.rasterX.toNat + spg.elapsed a) / spg.hcount.toNat)
      spg.hcount_toNat.1
    have hframe := hy.trans_le (Nat.mod_le _ _)
    omega
  have second := Steady.sync ⟨hagain.pclk, hagain.aligned, hagain.past.trans hb, hagain.x,
    hagain.y⟩ (by rw [helapsed]; dsimp only; omega)
  have hahead := Syncs.ahead ⟨⟨last, x, y, rfl⟩, hlast, hraster⟩ hmono
  rw [← helapsed, ← second.raster, ← whole.raster] at hahead
  obtain ⟨⟨last', x', y', hrest⟩, hlast', -⟩ := second
  exact (whole.unique ⟨last', x', y', hrest⟩ (whole.last.trans hlast'.symm) hahead.symm).symm

theorem Steady.foldl_sync (steady : spg.Steady now) {stamps : List Nat}
    (increasing : (now :: stamps ++ [stamp]).Pairwise (· ≤ ·))
    (fits : spg.rasterY.toNat + spg.rasterX.toNat + spg.elapsed stamp < 2 ^ 32) :
    (stamps ++ [stamp]).foldl Spg.sync spg = spg.sync stamp := by
  -- The syncs before the last one are dropped from the back.
  induction stamps using reverseRecOn generalizing stamp with
  | nil => rfl
  | append_singleton stamps a ih =>
    obtain ⟨hbefore, -, hlast⟩ := pairwise_append.mp increasing
    have hle : a ≤ stamp := hlast a (by simp) stamp (by simp)
    have hfirst : now ≤ a := (pairwise_cons.mp hbefore).1 a (by simp)
    have hmono := spg.elapsed_mono hle
    rw [foldl_append, ih hbefore (by omega)]
    exact steady.sync_sync hfirst hle fits

/-- Bringing the raster up to date at any increasing times leaves the state that one sync at the
last time leaves, and the position is the one the raster had, moved on by the pixels that have
passed. -/
theorem Reached.foldl_sync_eq (reached : Reached spg now) (stamps : List Nat) (stamp : Nat)
    (increasing : (now :: stamps ++ [stamp]).Pairwise (· ≤ ·))
    (fits : spg.rasterY.toNat + spg.rasterX.toNat + spg.elapsed stamp < 2 ^ 32) :
    let pixels := spg.rasterY.toNat * spg.hcount.toNat + spg.rasterX.toNat +
      (stamp - spg.lastSyncRounded) / spg.pixelDiv
    (stamps ++ [stamp]).foldl Spg.sync spg = spg.sync stamp ∧
      (spg.sync stamp).rasterX.toNat = pixels % spg.hcount.toNat ∧
      (spg.sync stamp).rasterY.toNat = pixels / spg.hcount.toNat % spg.vcount.toNat ∧
      (spg.sync stamp).lastSyncRounded = spg.pixelDiv * (stamp / spg.pixelDiv) := by
  have hsteady := reached.steady
  have hle : now ≤ stamp := (pairwise_cons.mp increasing).1 stamp (by simp)
  have hsyncs := Steady.sync ⟨hsteady.pclk, hsteady.aligned, hsteady.past.trans hle, hsteady.x,
    hsteady.y⟩ fits
  obtain ⟨hx, hy⟩ := Prod.mk.inj hsyncs.raster
  rw [elapsed, sub_div_of_dvd (pixelDiv_bounds hsteady.pclk).1 hsteady.aligned] at hx hy
  exact ⟨hsteady.foldl_sync increasing fits, hx, hy, hsyncs.last⟩

/-- The generator as `spg_init` leaves it, without its events. -/
def fresh : Spg :=
  ⟨0x031d0000, 0x00150104, 0x01060359, 0, 2, 0, 0, 0, .idle, .idle, .idle⟩

theorem reached_fresh : Reached fresh 0 := .start 0 (.inr rfl) rfl rfl rfl

theorem foldl_sync_eq_twice :
    Reached fresh 0 ∧ ([401] ++ [799]).foldl Spg.sync fresh = fresh.sync 799 ∧
      (fresh.sync 799).rasterX.toNat = 1 :=
  have h := Reached.foldl_sync_eq reached_fresh [401] 799 (by decide) (by decide +kernel)
  ⟨reached_fresh, h.1, h.2.1.trans (by decide +kernel)⟩

/-- After 2 ^ 32 pixels without a sync the raster is where it was; with one in between it is not. -/
theorem sync_loses_pixels :
    Reached fresh 0 ∧ (fresh.sync (400 * 2 ^ 32)).raster = (0, 0) ∧
      ([400 * 2 ^ 31] ++ [400 * 2 ^ 32]).foldl Spg.sync fresh ≠ fresh.sync (400 * 2 ^ 32) ∧
      2 ^ 32 % fresh.hcount.toNat ≠ 0 := by
  refine ⟨reached_fresh, by decide +kernel, fun heq => ?_, by decide +kernel⟩
  have hraster := congrArg raster heq
  revert hraster
  decide +kernel

end Spg

end Pvr2
