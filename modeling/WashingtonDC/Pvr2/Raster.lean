import WashingtonDC.Pvr2.Spg
import WashingtonDC.RowMajor
import WashingtonDC.Lockstep

/-!
# Where the raster is when a blanking interrupt fires

The events of the sync pulse generator are predicted from the position of the raster; when they
fire, the position is computed again from the time that has passed. The two agree as long as the
divider of the pixel clock changes only at times that are whole numbers of the new pixels, the
raster lies inside each new geometry, and horizontal interrupts are not asked for every `n` lines
with `n` above one. `pvr2_spg_set_control` can change the divider behind the back of the events, so
that the interlace bit must stay as well.

Time passes up to the next event and not beyond it. What is sent to the interrupt controller is not
part of this model.
-/
namespace Pvr2

open EventSlot RowMajor Nat Lockstep

/-- `SCHED_FREQUENCY`. -/
abbrev schedFrequency : Nat := 5400000000

inductive Blank
  | hblank | vblankIn | vblankOut
deriving DecidableEq

namespace Spg

variable (spg : Spg) (stamp : Nat)

/-! ## The handlers -/

def event : Blank → Flagged
  | .hblank => spg.hblankEvent
  | .vblankIn => spg.vblankInEvent
  | .vblankOut => spg.vblankOutEvent

def setEvent (event : Flagged) : Blank → Spg
  | .hblank => { spg with hblankEvent := event }
  | .vblankIn => { spg with vblankInEvent := event }
  | .vblankOut => { spg with vblankOutEvent := event }

def schedNext : Blank → Except Fault Spg
  | .hblank => spg.schedNextHblankEvent stamp
  | .vblankIn => spg.schedNextVblankInEvent stamp
  | .vblankOut => spg.schedNextVblankOutEvent stamp

/-- The position of the raster when a handler has brought it up to date. The clock takes the event
from its list before it calls the handler. -/
def handlerSync (blank : Blank) : Spg := (spg.setEvent (spg.event blank).pop blank).sync stamp

/-- `spg_handle_hblank`, `spg_handle_vblank_in` and `spg_handle_vblank_out`. -/
def handle (blank : Blank) : Except Fault Spg := (spg.handlerSync stamp blank).schedNext stamp blank

/-! ## What the handlers expect -/

def raster : Nat × Nat := (spg.rasterX.toNat, spg.rasterY.toNat)

/-- The position is one at which the interrupt is to fire. For horizontal interrupts these are the
checks that the handler makes under `INVARIANTS`. -/
def Expects (position : Nat × Nat) : Blank → Prop
  | .hblank => position.1 = 0 ∧ match spg.hblankIntMode.toNat with
    | 0 => position.2 = spg.hblankIntCompVal.toNat
    | 1 => spg.hblankIntCompVal ≠ 0 → position.2 % spg.hblankIntCompVal.toNat = 0
    | _ => True
  | .vblankIn => position.1 = 0 ∧ position.2 = spg.vblankInIntLine.toNat
  | .vblankOut => position.1 = 0 ∧ position.2 = spg.vblankOutIntLine.toNat

instance (position : Nat × Nat) : (blank : Blank) → Decidable (spg.Expects position blank)
  | .hblank => by
    unfold Expects
    have : Decidable (match spg.hblankIntMode.toNat with
        | 0 => position.2 = spg.hblankIntCompVal.toNat
        | 1 => spg.hblankIntCompVal ≠ 0 → position.2 % spg.hblankIntCompVal.toNat = 0
        | _ => True) := by
      split <;> infer_instance
    infer_instance
  | .vblankIn => inferInstanceAs (Decidable (_ ∧ _))
  | .vblankOut => inferInstanceAs (Decidable (_ ∧ _))

def LinesInside : Prop :=
  spg.vblankInIntLine < spg.vcount ∧ spg.vblankOutIntLine < spg.vcount ∧
    (spg.hblankIntMode = 0 → spg.hblankIntCompVal < spg.vcount)

instance : Decidable spg.LinesInside := inferInstanceAs (Decidable (_ ∧ _ ∧ _))

end Spg

/-! ## The generator and its clock -/

structure Timed where
  now : Nat
  spg : Spg

inductive SpgAction
  | advance (cycles : Nat)
  | fire (blank : Blank)
  | setHblankInt (val : UInt32)
  | setVblankInt (val : UInt32)
  | setLoad (val : UInt32)
  | setControl (val : UInt32)
  | setPclkDiv (val : UInt32)

namespace Timed

variable (t : Timed)

/-- Nothing is due before `stamp`. -/
def free (stamp : Nat) (blank : Blank) : Bool := (t.spg.event blank).event.all (stamp ≤ ·)

/-- The generator at the same time, unless there has been an error. -/
def withSpg (spg : Except Fault Spg) : Option Timed := (spg.map (⟨t.now, ·⟩)).toOption

def act : SpgAction → Option Timed
  | .advance cycles =>
    if [Blank.hblank, .vblankIn, .vblankOut].all (t.free (t.now + cycles)) then
      some { t with now := t.now + cycles }
    else none
  | .fire blank =>
    if (t.spg.event blank).event.isDue t.now then t.withSpg (t.spg.handle t.now blank) else none
  | .setHblankInt val => t.withSpg (t.spg.setHblankInt t.now val)
  | .setVblankInt val => t.withSpg (t.spg.setVblankInt t.now val)
  | .setLoad val => t.withSpg (t.spg.setLoad t.now val)
  | .setControl val => some { t with spg := t.spg.setControl val }
  | .setPclkDiv val => t.withSpg (t.spg.setPclkDiv t.now val)

end Timed

structure SpgMoved where
  action : SpgAction
  before : Timed
  after : Timed

def Timed.step (t : Timed) (a : SpgAction) : Option (SpgMoved × Timed) :=
  (t.act a).map fun t' => (⟨a, t, t'⟩, t')

/-- The generator after `spg_init`, at the start of the clock. -/
def Timed.start : Option Timed := ((Spg.init 0).map (⟨0, ·⟩)).toOption

namespace SpgMoved

variable (m : SpgMoved)

def OnLine : Prop :=
  match m.action with
  | .fire blank =>
    m.before.spg.Expects (m.before.spg.handlerSync m.before.now blank).raster blank
  | _ => True

instance : Decidable m.OnLine := by
  unfold OnLine
  split <;> infer_instance

/-- The vertical interrupts are due within the second, as it is checked under `INVARIANTS` when they
are scheduled. -/
def Soon : Prop :=
  ∀ due, (m.after.spg.vblankInEvent.event = some due ∨ m.after.spg.vblankOutEvent.event = some due) →
    due - m.after.now < schedFrequency

def Fits : Prop :=
  match m.action with
  | .setHblankInt _ => m.after.spg.hblankIntMode = 1 → m.after.spg.hblankIntCompVal = 1
  | .setLoad _ =>
    (m.before.spg.sync m.before.now).rasterX < m.after.spg.hcount ∧
      (m.before.spg.sync m.before.now).rasterY < m.after.spg.vcount
  | .setControl _ => m.after.spg.interlace = m.before.spg.interlace
  | .setPclkDiv _ =>
    m.after.spg.pixelDiv ∣ m.before.spg.pixelDiv * (m.before.now / m.before.spg.pixelDiv)
  | _ => True

instance : Decidable m.Fits := by
  unfold Fits
  split <;> infer_instance

end SpgMoved

/-! ## Fields -/

namespace Spg

variable {spg : Spg} {now : Nat} {blank : Blank}

theorem count_toNat (field : UInt32) :
    1 ≤ ((field &&& 0x3ff) + 1).toNat ∧ ((field &&& 0x3ff) + 1).toNat ≤ 1024 := by
  have hle : (field &&& 0x3ff).toNat ≤ 1023 := by
    rw [UInt32.toNat_and]
    exact and_le_right
  rw [UInt32.toNat_add, UInt32.toNat_one]
  omega

theorem hcount_toNat (spg : Spg) : 1 ≤ spg.hcount.toNat ∧ spg.hcount.toNat ≤ 1024 := count_toNat _

theorem vcount_toNat (spg : Spg) : 1 ≤ spg.vcount.toNat ∧ spg.vcount.toNat ≤ 1024 := count_toNat _

theorem event_setEvent_self (spg : Spg) (e : Flagged) (blank : Blank) :
    (spg.setEvent e blank).event blank = e := by
  cases blank <;> rfl

theorem event_setEvent_of_ne {b : Blank} (e : Flagged) (ne : b ≠ blank) :
    (spg.setEvent e blank).event b = spg.event b := by
  cases b <;> cases blank <;> first | rfl | exact absurd rfl ne

/-! ## Positions to come -/

/-- The position in `pixels` pixels. -/
def ahead (spg : Spg) (pixels : Nat) : Nat × Nat :=
  cell spg.hcount.toNat spg.vcount.toNat
    (index spg.hcount.toNat spg.rasterX.toNat spg.rasterY.toNat + pixels)

theorem sub_div_of_dvd {div last : Nat} (pos : 0 < div) (aligned : div ∣ last) :
    now / div - last / div = (now - last) / div := by
  obtain ⟨n, rfl⟩ := aligned
  rw [Nat.mul_div_cancel_left _ pos, sub_mul_div]

/-- The time base is a whole number of pixels and the raster lies inside the geometry. -/
structure Fitted (spg : Spg) (now : Nat) : Prop where
  pclk : spg.pclkDiv = 1 ∨ spg.pclkDiv = 2
  aligned : spg.pixelDiv ∣ spg.lastSyncRounded
  past : spg.lastSyncRounded ≤ now
  near : now / spg.pixelDiv - spg.lastSyncRounded / spg.pixelDiv ≤ 2 ^ 21
  x : spg.rasterX < spg.hcount
  y : spg.rasterY < spg.vcount

/-- The raster is at a position in `pixels` pixels, and this is neither now nor far away. -/
structure Reaches (spg : Spg) (pixels : UInt32) (position : Nat × Nat) : Prop where
  pos : 1 ≤ pixels.toNat
  near : pixels.toNat ≤ 2 ^ 21
  ahead : spg.ahead pixels.toNat = position

def elapsed (spg : Spg) (now : Nat) : Nat :=
  now / spg.pixelDiv - spg.lastSyncRounded / spg.pixelDiv

theorem pixelDiv_bounds (pclk : spg.pclkDiv = 1 ∨ spg.pclkDiv = 2) :
    0 < spg.pixelDiv ∧ spg.pixelDiv ≤ 400 := by
  unfold pixelDiv getPclkDiv
  cases spg.interlace <;> obtain h | h := pclk <;> rw [h] <;> decide

theorem Fitted.div (fitted : spg.Fitted now) : 0 < spg.pixelDiv := (pixelDiv_bounds fitted.pclk).1

theorem Fitted.ahead_lines (fitted : spg.Fitted now) (lines : UInt32) (pos : 1 ≤ lines.toNat)
    (le : lines.toNat ≤ 2048) :
    spg.Reaches (lines * spg.hcount - spg.rasterX)
      (0, (spg.rasterY.toNat + lines.toNat) % spg.vcount.toNat) := by
  obtain ⟨hh1, hh2⟩ := spg.hcount_toNat
  have hx : spg.rasterX.toNat < spg.hcount.toNat := fitted.x
  have hmul : (lines * spg.hcount).toNat = lines.toNat * spg.hcount.toNat := by
    rw [UInt32.toNat_mul]
    exact mod_eq_of_lt ((Nat.mul_le_mul le hh2).trans_lt (by decide))
  have hbig : lines.toNat * spg.hcount.toNat ≤ 2048 * 1024 := Nat.mul_le_mul le hh2
  have hlt : spg.rasterX.toNat < lines.toNat * spg.hcount.toNat :=
    hx.trans_le (Nat.le_mul_of_pos_left _ pos)
  have hsub : (lines * spg.hcount - spg.rasterX).toNat =
      lines.toNat * spg.hcount.toNat - spg.rasterX.toNat := by
    rw [UInt32.toNat_sub_of_le _ _ (by rw [UInt32.le_iff_toNat_le, hmul]; exact hlt.le), hmul]
  refine ⟨by omega, by omega, ?_⟩
  rw [hsub]
  exact cell_rows hlt.le hh1

theorem Fitted.pixelsUntil (fitted : spg.Fitted now) {line : UInt32} (inside : line < spg.vcount) :
    spg.Reaches (spg.pixelsUntil line) (0, line.toNat) := by
  obtain ⟨hv1, hv2⟩ := spg.vcount_toNat
  have hy : spg.rasterY.toNat < spg.vcount.toNat := fitted.y
  have hline : line.toNat < spg.vcount.toNat := inside
  unfold Spg.pixelsUntil
  split
  · rename_i hbefore
    have hsub : (line - spg.rasterY).toNat = line.toNat - spg.rasterY.toNat :=
      UInt32.toNat_sub_of_le _ _ (UInt32.le_of_lt hbefore)
    have hlt : spg.rasterY.toNat < line.toNat := hbefore
    obtain ⟨hpos, hnear, hahead⟩ := fitted.ahead_lines (line - spg.rasterY) (by omega) (by omega)
    refine ⟨hpos, hnear, hahead.trans ?_⟩
    rw [hsub, Nat.add_sub_cancel' hlt.le, mod_eq_of_lt hline]
  · have hsub : (spg.vcount - spg.rasterY).toNat = spg.vcount.toNat - spg.rasterY.toNat :=
      UInt32.toNat_sub_of_le _ _ (UInt32.le_of_lt fitted.y)
    have hsum : (spg.vcount - spg.rasterY + line).toNat =
        spg.vcount.toNat - spg.rasterY.toNat + line.toNat := by
      rw [UInt32.toNat_add, hsub]
      omega
    obtain ⟨hpos, hnear, hahead⟩ :=
      fitted.ahead_lines (spg.vcount - spg.rasterY + line) (by omega) (by omega)
    refine ⟨hpos, hnear, hahead.trans ?_⟩
    rw [hsum, ← add_assoc, Nat.add_sub_cancel' hy.le, add_mod_left, mod_eq_of_lt hline]

/-! ## Bringing the raster up to date -/

/-- What `spg_sync` does to a raster that fits. -/
structure Syncs (spg : Spg) (now : Nat) (spg' : Spg) : Prop where
  rest : ∃ last x y, spg' = { spg with lastSyncRounded := last, rasterX := x, rasterY := y }
  last : spg'.lastSyncRounded = spg.pixelDiv * (now / spg.pixelDiv)
  raster : spg'.raster = spg.ahead (spg.elapsed now)

/-- The time base is a whole number of pixels and the raster lies inside the geometry, however long
the last sync was ago. -/
structure Steady (spg : Spg) (now : Nat) : Prop where
  pclk : spg.pclkDiv = 1 ∨ spg.pclkDiv = 2
  aligned : spg.pixelDiv ∣ spg.lastSyncRounded
  past : spg.lastSyncRounded ≤ now
  x : spg.rasterX < spg.hcount
  y : spg.rasterY < spg.vcount

theorem Steady.sync (steady : spg.Steady now)
    (fits : spg.rasterY.toNat + spg.rasterX.toNat + spg.elapsed now < 2 ^ 32) :
    Syncs spg now (spg.sync now) := by
  obtain ⟨hh1, hh2⟩ := spg.hcount_toNat
  have hx : spg.rasterX.toNat < spg.hcount.toNat := steady.x
  have hy : spg.rasterY.toNat < spg.vcount.toNat := steady.y
  obtain ⟨hdiv, -⟩ := pixelDiv_bounds steady.pclk
  obtain ⟨n, hn⟩ := steady.aligned
  unfold Spg.sync
  dsimp only
  split
  · refine ⟨⟨_, _, _, rfl⟩, rfl, ?_⟩
    have hinc : (spg.rasterX + UInt32.ofNat ((now - spg.lastSyncRounded) / spg.pixelDiv)).toNat =
        spg.rasterX.toNat + spg.elapsed now := by
      rw [← sub_div_of_dvd hdiv steady.aligned, UInt32.toNat_add, UInt32.toNat_ofNat', ← elapsed]
      omega
    have hquot : (spg.rasterX.toNat + spg.elapsed now) / spg.hcount.toNat ≤
        spg.rasterX.toNat + spg.elapsed now := Nat.div_le_self _ _
    rw [ahead, cell_carry _ _ _ hh1, raster, UInt32.toNat_mod, UInt32.toNat_mod, hinc,
      UInt32.toNat_add, UInt32.toNat_div, hinc]
    congr 2
    exact mod_eq_of_lt (by omega)
  · rename_i hshort
    -- Less than a pixel has passed.
    have hsame : now / spg.pixelDiv = n := by
      have hpast := steady.past
      apply Nat.div_eq_of_lt_le
      · rwa [mul_comm, ← hn]
      · rw [add_mul, one_mul, mul_comm, ← hn]
        omega
    have hzero : spg.elapsed now = 0 := by
      rw [elapsed, hsame, hn, Nat.mul_div_cancel_left _ hdiv, Nat.sub_self]
    refine ⟨⟨_, _, _, rfl⟩, by rw [hsame, hn], ?_⟩
    rw [hzero, ahead, add_zero, cell_index hx hy, raster]

theorem Fitted.sync (fitted : spg.Fitted now) : Syncs spg now (spg.sync now) := by
  have hx : spg.rasterX.toNat < spg.hcount.toNat := fitted.x
  have hy : spg.rasterY.toNat < spg.vcount.toNat := fitted.y
  have hnear : spg.elapsed now ≤ 2 ^ 21 := fitted.near
  have hwidth := spg.hcount_toNat.2
  have hheight := spg.vcount_toNat.2
  exact Steady.sync ⟨fitted.pclk, fitted.aligned, fitted.past, fitted.x, fitted.y⟩ (by omega)

namespace Syncs

variable {spg' : Spg}

theorem fitted (syncs : Syncs spg now spg') (pclk : spg.pclkDiv = 1 ∨ spg.pclkDiv = 2) :
    spg'.Fitted now := by
  obtain ⟨⟨last, x, y, rfl⟩, hlast, hraster⟩ := syncs
  obtain ⟨hdiv, -⟩ := pixelDiv_bounds pclk
  rw [Spg.raster, Spg.ahead, cell, Prod.mk.injEq] at hraster
  cases hlast
  refine ⟨pclk, Nat.dvd_mul_right _ _, mul_div_le now _, ?_, ?_, ?_⟩
  · change now / spg.pixelDiv - spg.pixelDiv * (now / spg.pixelDiv) / spg.pixelDiv ≤ _
    rw [Nat.mul_div_cancel_left _ hdiv, Nat.sub_self]
    exact Nat.zero_le _
  · rw [UInt32.lt_iff_toNat_lt, hraster.1]
    exact mod_lt _ spg.hcount_toNat.1
  · rw [UInt32.lt_iff_toNat_lt, hraster.2]
    exact mod_lt _ spg.vcount_toNat.1

theorem ahead (syncs : Syncs spg now spg') {pixels : Nat} (le : spg.elapsed now ≤ pixels) :
    spg'.ahead (pixels - spg.elapsed now) = spg.ahead pixels := by
  obtain ⟨⟨last, x, y, rfl⟩, -, hraster⟩ := syncs
  have hx : x.toNat = _ := congrArg Prod.fst hraster
  have hy : y.toNat = _ := congrArg Prod.snd hraster
  unfold Spg.ahead at hx hy ⊢
  change cell spg.hcount.toNat spg.vcount.toNat (index spg.hcount.toNat x.toNat y.toNat + _) = _
  rw [hx, hy, cell_resume]
  congr 1
  omega

end Syncs

variable {spg' : Spg} {val : UInt32}

/-! ## Predictions -/

/-- The event is in the list, for a time at which the raster is where the interrupt is to fire. -/
def Due (spg : Spg) (now : Nat) (blank : Blank) : Prop :=
  ∃ n, spg.event blank = ⟨true, some (spg.pixelDiv * n)⟩ ∧ now ≤ spg.pixelDiv * n ∧
    n ≤ spg.lastSyncRounded / spg.pixelDiv + 2 ^ 21 ∧
    spg.Expects (spg.ahead (n - spg.lastSyncRounded / spg.pixelDiv)) blank

/-- What the registers hold can be predicted. -/
structure Programmed (spg : Spg) : Prop where
  lines : spg.LinesInside
  everyLine : spg.hblankIntMode = 1 → spg.hblankIntCompVal = 1

theorem Fitted.setEvent (fitted : spg.Fitted now) (e : Flagged) (blank : Blank) :
    (spg.setEvent e blank).Fitted now := by
  obtain ⟨h1, h2, h3, h4, h5, h6⟩ := fitted
  cases blank <;> exact ⟨h1, h2, h3, h4, h5, h6⟩

theorem Programmed.setEvent (programmed : spg.Programmed) (e : Flagged) (blank : Blank) :
    (spg.setEvent e blank).Programmed := by
  obtain ⟨h1, h2⟩ := programmed
  cases blank <;> exact ⟨h1, h2⟩

theorem Due.setEvent {b : Blank} (due : spg.Due now b) (e : Flagged) (ne : b ≠ blank) :
    (spg.setEvent e blank).Due now b := by
  obtain ⟨n, hevent, hrest⟩ := due
  refine ⟨n, ?_⟩
  rw [event_setEvent_of_ne e ne]
  cases blank <;> cases b <;> exact ⟨hevent, hrest⟩

theorem Due.elapsed_le {n : Nat} (fitted : spg.Fitted now) (le : now ≤ spg.pixelDiv * n) :
    spg.elapsed now ≤ n - spg.lastSyncRounded / spg.pixelDiv := by
  have hle : now / spg.pixelDiv ≤ n := by
    rw [← Nat.mul_div_cancel_left n fitted.div]
    exact Nat.div_le_div_right le
  exact Nat.sub_le_sub_right hle _

theorem Due.sync (due : spg.Due now blank) (fitted : spg.Fitted now) :
    (spg.sync now).Due now blank := by
  obtain ⟨n, hevent, hle, hnear, hexpects⟩ := due
  have hahead := fitted.sync.ahead (Due.elapsed_le fitted hle)
  have hlast := fitted.sync.last
  have hpast : spg.lastSyncRounded / spg.pixelDiv ≤ now / spg.pixelDiv :=
    Nat.div_le_div_right fitted.past
  obtain ⟨last, x, y, hsync⟩ := fitted.sync.rest
  rw [hsync] at hahead hlast ⊢
  have hdiv : last / spg.pixelDiv = now / spg.pixelDiv := by
    rw [show last = spg.pixelDiv * (now / spg.pixelDiv) from hlast,
      Nat.mul_div_cancel_left _ fitted.div]
  refine ⟨n, ?_, hle, ?_, ?_⟩
  · cases blank <;> exact hevent
  · change n ≤ last / spg.pixelDiv + _
    omega
  · change Expects _ (Spg.ahead _ (n - last / spg.pixelDiv)) _
    have hsub : n - last / spg.pixelDiv =
        n - spg.lastSyncRounded / spg.pixelDiv - spg.elapsed now := by
      rw [elapsed]
      omega
    rw [hsub, hahead]
    cases blank <;> exact hexpects

theorem Due.expects (due : spg.Due now blank) (fitted : spg.Fitted now)
    (isDue : (spg.event blank).event.isDue now = true) :
    spg.Expects (spg.handlerSync now blank).raster blank := by
  obtain ⟨n, hevent, hle, -, hexpects⟩ := due
  have hnow : now = spg.pixelDiv * n := by
    rw [hevent] at isDue
    have hge : spg.pixelDiv * n ≤ now := of_decide_eq_true isDue
    omega
  have helapsed : spg.elapsed now = n - spg.lastSyncRounded / spg.pixelDiv := by
    rw [elapsed, hnow, Nat.mul_div_cancel_left _ fitted.div]
  have hraster := (fitted.setEvent (spg.event blank).pop blank).sync.raster
  rw [handlerSync, hraster]
  rw [← helapsed] at hexpects
  cases blank <;> exact hexpects

/-! ## Scheduling -/

/-- The raster is up to date. -/
structure Synced (spg : Spg) (now : Nat) : Prop extends spg.Fitted now where
  last : spg.lastSyncRounded = spg.pixelDiv * (now / spg.pixelDiv)

theorem Fitted.synced (fitted : spg.Fitted now) : (spg.sync now).Synced now := by
  refine ⟨fitted.sync.fitted fitted.pclk, ?_⟩
  have hlast := fitted.sync.last
  obtain ⟨last, x, y, hsync⟩ := fitted.sync.rest
  rw [hsync] at hlast ⊢
  exact hlast

section
variable (synced : spg.Synced now)
include synced

theorem Synced.setEvent (e : Flagged) (blank : Blank) : (spg.setEvent e blank).Synced now := by
  refine ⟨synced.toFitted.setEvent e blank, ?_⟩
  have hlast := synced.last
  cases blank <;> exact hlast

theorem Synced.due (blank : Blank) {pixels : UInt32} {position : Nat × Nat}
    (reaches : spg.Reaches pixels position) (expects : spg.Expects position blank) :
    (spg.setEvent ⟨true, some (spg.pixelsFromNow now pixels)⟩ blank).Due now blank := by
  obtain ⟨hpos, hnear, rfl⟩ := reaches
  have hdiv : spg.lastSyncRounded / spg.pixelDiv = now / spg.pixelDiv := by
    rw [synced.last, Nat.mul_div_cancel_left _ synced.div]
  refine ⟨pixels.toNat + now / spg.pixelDiv, ?_, ?_, ?_, ?_⟩
  · rw [event_setEvent_self]
    cases blank <;> rfl
  · have hle : now ≤ spg.pixelDiv * (pixels.toNat + now / spg.pixelDiv) :=
      calc now ≤ spg.pixelDiv * (1 + now / spg.pixelDiv) := by
              rw [add_comm]
              exact (lt_mul_div_succ now synced.div).le
        _ ≤ spg.pixelDiv * (pixels.toNat + now / spg.pixelDiv) :=
              Nat.mul_le_mul_left _ (Nat.add_le_add_right hpos _)
    cases blank <;> exact hle
  · have hle : pixels.toNat + now / spg.pixelDiv ≤ spg.lastSyncRounded / spg.pixelDiv + 2 ^ 21 := by
      omega
    cases blank <;> exact hle
  · have hsub : pixels.toNat + now / spg.pixelDiv - spg.lastSyncRounded / spg.pixelDiv =
        pixels.toNat := by
      omega
    rw [← hsub] at expects
    cases blank <;> exact expects

theorem Synced.nextHblankPclk (programmed : spg.Programmed) {pixels : UInt32}
    (h : spg.nextHblankPclk = .ok pixels) :
    ∃ position, spg.Reaches pixels position ∧ spg.Expects position .hblank := by
  obtain ⟨hv1, hv2⟩ := spg.vcount_toNat
  unfold Spg.nextHblankPclk at h
  split at h
  · rename_i hmode
    have hinside := programmed.lines.2.2 (UInt32.toNat_inj.mp hmode)
    have hpixels : pixels = spg.pixelsUntil spg.hblankIntCompVal := by
      unfold Spg.pixelsUntil
      split at h
      · rename_i hle
        rw [if_neg (UInt32.not_lt.mpr hle)]
        exact (Except.ok.inj h).symm
      · rename_i hle
        rw [if_pos (UInt32.not_le.mp hle)]
        exact (Except.ok.inj h).symm
    refine ⟨_, hpixels ▸ synced.pixelsUntil hinside, rfl, ?_⟩
    rw [hmode]
    rfl
  · rename_i hmode
    have hcomp := programmed.everyLine (UInt32.toNat_inj.mp hmode)
    have hline : (1 + (spg.rasterY + 1) / 1) * 1 - 1 = spg.rasterY + 1 := by
      rw [UInt32.div_one, UInt32.mul_one, UInt32.add_comm 1, UInt32.add_sub_cancel]
    have hone : spg.rasterY + 1 - spg.rasterY = 1 := by
      rw [UInt32.add_comm, UInt32.add_sub_cancel]
    have hframe : (spg.vcount - spg.rasterY + (spg.rasterY + 1)).toNat = spg.vcount.toNat + 1 := by
      rw [← UInt32.add_assoc, UInt32.sub_add_cancel, UInt32.toNat_add, UInt32.toNat_one]
      omega
    have hexpects : ∀ row, spg.Expects (0, row) .hblank := by
      intro row
      refine ⟨rfl, ?_⟩
      rw [hmode]
      intro
      rw [hcomp]
      exact mod_one row
    rw [hcomp, if_neg (by decide)] at h
    simp only [hline, hone] at h
    split at h
    · exact ⟨_, Except.ok.inj h ▸ synced.ahead_lines 1 (by decide) (by decide), hexpects _⟩
    · exact ⟨_, Except.ok.inj h ▸ synced.ahead_lines _ (by omega) (by omega), hexpects _⟩
  · rename_i hmode
    have hone : spg.hcount - spg.rasterX = 1 * spg.hcount - spg.rasterX := by rw [UInt32.one_mul]
    refine ⟨_, Except.ok.inj h ▸ hone ▸ synced.ahead_lines 1 (by decide) (by decide), rfl, ?_⟩
    rw [hmode]
    trivial
  · cases h

theorem Synced.schedNext (blank : Blank) (programmed : spg.Programmed)
    (absent : (spg.event blank).event = none) (h : spg.schedNext now blank = .ok spg') :
    ∃ e, spg' = spg.setEvent e blank ∧ spg'.Due now blank := by
  cases blank with
  | hblank =>
    obtain ⟨pixels, hpixels, h⟩ := bind_eq_ok h
    obtain ⟨position, hreaches, hexpects⟩ := synced.nextHblankPclk programmed hpixels
    obtain ⟨e, he, h⟩ := bind_eq_ok h
    cases (Flagged.sched_of_absent absent).symm.trans he
    cases h
    exact ⟨_, rfl, synced.due .hblank hreaches hexpects⟩
  | vblankIn =>
    obtain ⟨e, he, rfl⟩ := map_eq_ok h
    cases (Flagged.sched_of_absent absent).symm.trans he
    have hreaches := synced.pixelsUntil programmed.lines.1
    exact ⟨_, rfl, synced.due .vblankIn hreaches ⟨rfl, rfl⟩⟩
  | vblankOut =>
    obtain ⟨e, he, rfl⟩ := map_eq_ok h
    cases (Flagged.sched_of_absent absent).symm.trans he
    have hreaches := synced.pixelsUntil programmed.lines.2.1
    exact ⟨_, rfl, synced.due .vblankOut hreaches ⟨rfl, rfl⟩⟩

end

/-- All events are predicted. -/
structure Predicted (spg : Spg) (now : Nat) : Prop extends spg.Fitted now, spg.Programmed where
  due : ∀ blank, spg.Due now blank

theorem schedAll_ok (h : spg.schedAll now = .ok spg') :
    ∃ spg1 spg2, spg.schedNext now .hblank = .ok spg1 ∧
      spg1.schedNext now .vblankIn = .ok spg2 ∧ spg2.schedNext now .vblankOut = .ok spg' := by
  obtain ⟨spg1, h1, h⟩ := bind_eq_ok h
  obtain ⟨spg2, h2, h3⟩ := bind_eq_ok h
  exact ⟨spg1, spg2, h1, h2, h3⟩

theorem Synced.schedAll (synced : spg.Synced now) (programmed : spg.Programmed)
    (absent : ∀ blank, (spg.event blank).event = none) (h : spg.schedAll now = .ok spg') :
    spg'.Predicted now := by
  obtain ⟨spg1, spg2, h1, h2, h3⟩ := schedAll_ok h
  obtain ⟨e1, rfl, hdue1⟩ := synced.schedNext .hblank programmed (absent _) h1
  have hsynced1 := synced.setEvent e1 .hblank
  have hprog1 := programmed.setEvent e1 .hblank
  obtain ⟨e2, rfl, hdue2⟩ := hsynced1.schedNext .vblankIn hprog1 (absent .vblankIn) h2
  have hsynced2 := hsynced1.setEvent e2 .vblankIn
  have hprog2 := hprog1.setEvent e2 .vblankIn
  obtain ⟨e3, rfl, hdue3⟩ := hsynced2.schedNext .vblankOut hprog2 (absent .vblankOut) h3
  refine ⟨hsynced2.toFitted.setEvent e3 _, hprog2.setEvent e3 _, ?_⟩
  rintro (_ | _ | _)
  · exact (hdue1.setEvent e2 (by decide)).setEvent e3 (by decide)
  · exact hdue2.setEvent e3 (by decide)
  · exact hdue3

/-! ## Writes to the registers -/

def SameRegs (spg spg' : Spg) : Prop :=
  ∃ last x y e1 e2 e3, spg' = { spg with
    lastSyncRounded := last, rasterX := x, rasterY := y,
    hblankEvent := e1, vblankInEvent := e2, vblankOutEvent := e3 }

theorem SameRegs.setEvent (same : SameRegs spg spg') (e : Flagged) (blank : Blank) :
    SameRegs spg (spg'.setEvent e blank) := by
  obtain ⟨last, x, y, e1, e2, e3, rfl⟩ := same
  cases blank
  · exact ⟨last, x, y, e, e2, e3, rfl⟩
  · exact ⟨last, x, y, e1, e, e3, rfl⟩
  · exact ⟨last, x, y, e1, e2, e, rfl⟩

theorem sameRegs_sync (spg : Spg) (now : Nat) : SameRegs spg (spg.sync now) := by
  unfold Spg.sync
  dsimp only
  split
  · exact ⟨_, _, _, _, _, _, rfl⟩
  · exact ⟨_, _, _, _, _, _, rfl⟩

theorem schedNext_eq_setEvent (h : spg.schedNext now blank = .ok spg') :
    ∃ e, spg' = spg.setEvent e blank := by
  cases blank with
  | hblank =>
    obtain ⟨pixels, -, h⟩ := bind_eq_ok h
    obtain ⟨e, -, h⟩ := bind_eq_ok h
    cases h
    exact ⟨e, rfl⟩
  | vblankIn | vblankOut =>
    obtain ⟨e, -, rfl⟩ := map_eq_ok h
    exact ⟨e, rfl⟩

theorem SameRegs.schedAll {spg'' : Spg} (same : SameRegs spg spg')
    (h : spg'.schedAll now = .ok spg'') : SameRegs spg spg'' := by
  obtain ⟨spg1, spg2, h1, h2, h3⟩ := schedAll_ok h
  obtain ⟨e1, rfl⟩ := schedNext_eq_setEvent h1
  obtain ⟨e2, rfl⟩ := schedNext_eq_setEvent h2
  obtain ⟨e3, rfl⟩ := schedNext_eq_setEvent h3
  exact ((same.setEvent e1 _).setEvent e2 _).setEvent e3 _

theorem SameRegs.programmed (same : SameRegs spg spg') : spg'.Programmed ↔ spg.Programmed := by
  obtain ⟨last, x, y, e1, e2, e3, rfl⟩ := same
  constructor
  · rintro ⟨hlines, hevery⟩
    exact ⟨hlines, hevery⟩
  · rintro ⟨hlines, hevery⟩
    exact ⟨hlines, hevery⟩

theorem SameRegs.hblankInt (same : SameRegs spg spg') : spg'.hblankInt = spg.hblankInt := by
  obtain ⟨last, x, y, e1, e2, e3, rfl⟩ := same
  rfl

/-- The raster is up to date and no event is scheduled, as when a register is changed. -/
def quiet (spg : Spg) (now : Nat) : Spg :=
  { spg.sync now with hblankEvent := .idle, vblankInEvent := .idle, vblankOutEvent := .idle }

section
variable (predicted : spg.Predicted now)
include predicted

theorem Predicted.honest : spg.Honest := by
  have hflag : ∀ blank, (spg.event blank).Honest := by
    intro blank
    obtain ⟨n, hevent, -⟩ := predicted.due blank
    rw [hevent]
    rfl
  exact ⟨hflag .hblank, hflag .vblankIn, hflag .vblankOut⟩

theorem Predicted.quiet : (spg.quiet now).Synced now := by
  obtain ⟨⟨h1, h2, h3, h4, h5, h6⟩, h7⟩ := predicted.toFitted.synced
  exact ⟨⟨h1, h2, h3, h4, h5, h6⟩, h7⟩

theorem Predicted.reconfigure {change : Spg → Spg} (keeps : ∀ s b, (change s).event b = s.event b)
    (h : spg.reconfigure now change = .ok spg') :
    SameRegs (change (spg.quiet now)) spg' ∧
      ((change (spg.quiet now)).Fitted now → spg'.Programmed → spg'.Predicted now) := by
  unfold Spg.reconfigure at h
  rw [predicted.honest.sync.unschedAll] at h
  have hsched : ((change (spg.quiet now)).sync now).schedAll now = .ok spg' := h
  have hsame := (sameRegs_sync (change (spg.quiet now)) now).schedAll hsched
  refine ⟨hsame, fun fitted programmed => ?_⟩
  have hprog : ((change (spg.quiet now)).sync now).Programmed :=
    (sameRegs_sync _ now).programmed.mpr (hsame.programmed.mp programmed)
  refine fitted.synced.schedAll hprog (fun blank => ?_) hsched
  obtain ⟨last, x, y, hrest⟩ := fitted.sync.rest
  have hevent : (change (spg.quiet now)).event blank = .idle := by
    rw [keeps]
    cases blank <;> rfl
  rw [hrest]
  cases blank <;> exact congrArg Flagged.event hevent

theorem Predicted.advance {cycles : Nat}
    (free : ∀ blank, (spg.event blank).event.all (now + cycles ≤ ·) = true) :
    spg.Predicted (now + cycles) := by
  have hdue : ∀ blank, spg.Due (now + cycles) blank := by
    intro blank
    obtain ⟨n, hevent, -, hrest⟩ := predicted.due blank
    have hfree := free blank
    rw [hevent] at hfree
    exact ⟨n, hevent, of_decide_eq_true hfree, hrest⟩
  obtain ⟨n, -, hle, hnear, -⟩ := hdue .vblankIn
  refine ⟨⟨predicted.pclk, predicted.aligned, ?_, ?_, predicted.x, predicted.y⟩,
    predicted.toProgrammed, hdue⟩
  · exact predicted.past.trans (le_add_right _ _)
  · have hdiv : (now + cycles) / spg.pixelDiv ≤ n := by
      rw [← Nat.mul_div_cancel_left n predicted.div]
      exact Nat.div_le_div_right hle
    omega

theorem Predicted.handle (h : spg.handle now blank = .ok spg') : spg'.Predicted now := by
  have hpopped := predicted.toFitted.setEvent (spg.event blank).pop blank
  have hprog : (spg.handlerSync now blank).Programmed :=
    (sameRegs_sync _ _).programmed.mpr (predicted.toProgrammed.setEvent _ blank)
  have habsent : ((spg.handlerSync now blank).event blank).event = none := by
    obtain ⟨last, x, y, hrest⟩ := hpopped.sync.rest
    rw [handlerSync, hrest]
    cases blank <;> rfl
  obtain ⟨e, rfl, hdue⟩ := hpopped.synced.schedNext blank hprog habsent h
  refine ⟨hpopped.synced.toFitted.setEvent e blank, hprog.setEvent e blank, fun b => ?_⟩
  by_cases hb : b = blank
  · exact hb ▸ hdue
  · exact (((predicted.due b).setEvent _ hb).sync hpopped).setEvent e hb

theorem Predicted.setHblankInt (h : spg.setHblankInt now val = .ok spg')
    (programmed : spg'.Programmed) :
    spg'.Predicted now := by
  refine (predicted.reconfigure (fun _ b => by cases b <;> rfl) h).2 ?_ programmed
  obtain ⟨⟨h1, h2, h3, h4, h5, h6⟩, -⟩ := predicted.quiet
  exact ⟨h1, h2, h3, h4, h5, h6⟩

theorem Predicted.keepsEveryLine (same : spg'.hblankInt = (spg.quiet now).hblankInt) :
    spg'.hblankIntMode = 1 → spg'.hblankIntCompVal = 1 := by
  have hregs : spg'.hblankInt = spg.hblankInt := same.trans (sameRegs_sync spg now).hblankInt
  unfold hblankIntMode hblankIntCompVal
  rw [hregs]
  exact predicted.everyLine

theorem Predicted.setVblankInt (h : spg.setVblankInt now val = .ok spg') (lines : spg'.LinesInside) :
    spg'.Predicted now := by
  obtain ⟨hsame, hpredicted⟩ := predicted.reconfigure (fun _ b => by cases b <;> rfl) h
  refine hpredicted ?_ ⟨lines, predicted.keepsEveryLine hsame.hblankInt⟩
  obtain ⟨⟨h1, h2, h3, h4, h5, h6⟩, -⟩ := predicted.quiet
  exact ⟨h1, h2, h3, h4, h5, h6⟩

theorem Predicted.setLoad (h : spg.setLoad now val = .ok spg') (lines : spg'.LinesInside)
    (inside : (spg.sync now).rasterX < spg'.hcount ∧ (spg.sync now).rasterY < spg'.vcount) :
    spg'.Predicted now := by
  obtain ⟨hsame, hpredicted⟩ := predicted.reconfigure (fun _ b => by cases b <;> rfl) h
  refine hpredicted ?_ ⟨lines, predicted.keepsEveryLine hsame.hblankInt⟩
  obtain ⟨⟨h1, h2, h3, h4, -, -⟩, -⟩ := predicted.quiet
  obtain ⟨last, x, y, e1, e2, e3, rfl⟩ := hsame
  exact ⟨h1, h2, h3, h4, inside.1, inside.2⟩

theorem Predicted.setPclkDiv (h : spg.setPclkDiv now val = .ok spg') (lines : spg'.LinesInside)
    (aligned : spg'.pixelDiv ∣ spg.pixelDiv * (now / spg.pixelDiv)) :
    spg'.Predicted now := by
  unfold Spg.setPclkDiv at h
  split at h
  · cases h
  · rename_i hval
    have hpclk : val = 1 ∨ val = 2 := by
      by_contra hne
      exact hval (not_or.mp hne)
    obtain ⟨hsame, hpredicted⟩ := predicted.reconfigure (fun _ b => by cases b <;> rfl) h
    refine hpredicted ?_ ⟨lines, predicted.keepsEveryLine hsame.hblankInt⟩
    obtain ⟨⟨-, -, h3, -, h5, h6⟩, -⟩ := predicted.quiet
    have hlast : (spg.quiet now).lastSyncRounded = spg.pixelDiv * (now / spg.pixelDiv) :=
      predicted.toFitted.sync.last
    obtain ⟨last, x, y, e1, e2, e3, rfl⟩ := hsame
    rw [← hlast] at aligned
    refine ⟨hpclk, aligned, h3, ?_, h5, h6⟩
    -- Less than an old pixel has passed since the last sync.
    have hlt : now < (spg.quiet now).lastSyncRounded + 400 := by
      rw [hlast]
      calc now < spg.pixelDiv * (now / spg.pixelDiv + 1) := lt_mul_div_succ now predicted.div
        _ = spg.pixelDiv * (now / spg.pixelDiv) + spg.pixelDiv := mul_succ _ _
        _ ≤ spg.pixelDiv * (now / spg.pixelDiv) + 400 :=
          Nat.add_le_add_left (pixelDiv_bounds predicted.pclk).2 _
    refine (sub_div_of_dvd (pixelDiv_bounds hpclk).1 aligned).trans_le ?_
    exact (Nat.div_le_self _ _).trans (by omega)

theorem Predicted.setControl (same : (spg.setControl val).interlace = spg.interlace) :
    (spg.setControl val).Predicted now := by
  have hdiv : (spg.setControl val).pixelDiv = spg.pixelDiv := by
    unfold pixelDiv getPclkDiv
    rw [same]
    rfl
  obtain ⟨⟨h1, h2, h3, h4, h5, h6⟩, ⟨h7, h8⟩, hdue⟩ := predicted
  refine ⟨⟨h1, hdiv ▸ h2, h3, ?_, h5, h6⟩, ⟨h7, h8⟩, fun blank => ?_⟩
  · rw [hdiv]
    exact h4
  · obtain ⟨n, hevent, hrest⟩ := hdue blank
    refine ⟨n, ?_⟩
    rw [hdiv]
    cases blank <;> exact ⟨hevent, hrest⟩

end

theorem Due.soon (due : spg.Due now blank) (fitted : spg.Fitted now) {stamp : Nat}
    (h : (spg.event blank).event = some stamp) : stamp - now < schedFrequency := by
  obtain ⟨n, hevent, -, hnear, -⟩ := due
  cases h.symm.trans (congrArg Flagged.event hevent)
  obtain ⟨hpos, hdiv⟩ := pixelDiv_bounds fitted.pclk
  have hlast : spg.pixelDiv * (spg.lastSyncRounded / spg.pixelDiv) ≤ now :=
    (mul_div_le _ _).trans fitted.past
  have hle : spg.pixelDiv * n ≤ now + 400 * 2 ^ 21 :=
    calc spg.pixelDiv * n ≤ spg.pixelDiv * (spg.lastSyncRounded / spg.pixelDiv + 2 ^ 21) :=
          Nat.mul_le_mul_left _ hnear
      _ = spg.pixelDiv * (spg.lastSyncRounded / spg.pixelDiv) + spg.pixelDiv * 2 ^ 21 :=
          mul_add _ _ _
      _ ≤ now + 400 * 2 ^ 21 := Nat.add_le_add hlast (Nat.mul_le_mul_right _ hdiv)
  unfold schedFrequency
  omega

theorem predicted_init (h : Spg.init 0 = .ok spg) : spg.Predicted 0 := by
  refine Synced.schedAll ⟨⟨.inr rfl, ⟨0, rfl⟩, le_rfl, Nat.zero_le _, ?_, ?_⟩, rfl⟩ ⟨?_, ?_⟩ ?_ h
  · decide
  · decide
  · decide
  · decide
  · rintro (_ | _ | _) <;> rfl

end Spg

/-! ## Runs -/

open Spg

namespace Timed

variable {t t' : Timed} {a : SpgAction}

theorem withSpg_eq_some {spg : Except Fault Spg} (h : t.withSpg spg = some t') :
    ∃ spg', spg = .ok spg' ∧ t' = ⟨t.now, spg'⟩ := by
  cases spg with
  | error f => cases h
  | ok spg' => exact ⟨spg', rfl, (Option.some.inj h).symm⟩

theorem predicted_act (h : t.act a = some t') (fits : SpgMoved.Fits ⟨a, t, t'⟩)
    (lines : t'.spg.LinesInside) (predicted : t.spg.Predicted t.now) :
    t'.spg.Predicted t'.now := by
  cases a with
  | advance cycles =>
    simp only [act] at h
    split at h
    · rename_i hfree
      cases h
      apply predicted.advance
      rintro (_ | _ | _)
      · exact List.all_eq_true.mp hfree _ (by simp)
      · exact List.all_eq_true.mp hfree _ (by simp)
      · exact List.all_eq_true.mp hfree _ (by simp)
    · cases h
  | fire blank =>
    simp only [act] at h
    split at h
    · obtain ⟨spg', hhandle, rfl⟩ := withSpg_eq_some h
      exact predicted.handle hhandle
    · cases h
  | setHblankInt val =>
    obtain ⟨spg', hset, rfl⟩ := withSpg_eq_some h
    exact predicted.setHblankInt hset ⟨lines, fits⟩
  | setVblankInt val =>
    obtain ⟨spg', hset, rfl⟩ := withSpg_eq_some h
    exact predicted.setVblankInt hset lines
  | setLoad val =>
    obtain ⟨spg', hset, rfl⟩ := withSpg_eq_some h
    exact predicted.setLoad hset lines fits
  | setControl val =>
    cases h
    exact predicted.setControl fits
  | setPclkDiv val =>
    obtain ⟨spg', hset, rfl⟩ := withSpg_eq_some h
    exact predicted.setPclkDiv hset lines fits

theorem onLine_act (h : t.act a = some t') (predicted : t.spg.Predicted t.now) :
    SpgMoved.OnLine ⟨a, t, t'⟩ := by
  cases a with
  | fire blank =>
    simp only [act] at h
    split at h
    · rename_i hdue
      exact (predicted.due blank).expects predicted.toFitted hdue
    · cases h
  | _ => trivial

end Timed

theorem Timed.start_eq_some {t : Timed} (start : Timed.start = some t) :
    ∃ spg, Spg.init 0 = .ok spg ∧ t = ⟨0, spg⟩ := by
  rw [Timed.start] at start
  cases hinit : Spg.init 0 with
  | error f =>
    rw [hinit] at start
    cases start
  | ok spg =>
    rw [hinit] at start
    cases start
    exact ⟨spg, rfl, rfl⟩

/-- In every run from `spg_init` in which the programmed lines exist and the writes fit, every
handler finds the raster where the interrupt is to fire. -/
theorem onLine_of_fits (t : Timed) (start : Timed.start = some t) (as : List SpgAction)
    (lines : ∀ m ∈ (run Timed.step t as).1, m.after.spg.LinesInside)
    (fits : ∀ m ∈ (run Timed.step t as).1, m.Fits) :
    ∀ m ∈ (run Timed.step t as).1, m.OnLine ∧ m.Soon := by
  have hstart : t.spg.Predicted t.now := by
    obtain ⟨spg, hinit, rfl⟩ := Timed.start_eq_some start
    exact predicted_init hinit
  refine run_observes_of_invariant (P := fun m => m.after.spg.LinesInside ∧ m.Fits)
    (I := fun t => t.spg.Predicted t.now) ?_ (fun m hm => ⟨lines m hm, fits m hm⟩) hstart
  rintro t a m t' hstep ⟨hlines, hfits⟩ hpredicted
  obtain ⟨t', hact, hmove⟩ := Option.map_eq_some_iff.mp hstep
  cases hmove
  have hnext := Timed.predicted_act hact hfits hlines hpredicted
  refine ⟨⟨Timed.onLine_act hact hpredicted, ?_⟩, hnext⟩
  rintro due (hdue | hdue)
  · exact (hnext.due .vblankIn).soon hnext.toFitted hdue
  · exact (hnext.due .vblankOut).soon hnext.toFitted hdue

theorem isSome_start : Timed.start.isSome = true := by decide +kernel

def twoFrames : List SpgMoved :=
  (run Timed.step (Timed.start.get isSome_start)
    [.advance 7207200, .fire .vblankOut, .setPclkDiv 1, .advance 41012400, .fire .vblankIn]).1

theorem onLine_of_fits_twoFrames :
    twoFrames.length = 5 ∧ ∀ m ∈ twoFrames, m.OnLine ∧ m.Soon :=
  ⟨by decide +kernel,
    onLine_of_fits _ (Option.some_get isSome_start).symm _ (by decide +kernel) (by decide +kernel)⟩

/-- Some handler of a run from `spg_init`, in which the programmed lines exist, does not find the
raster where it expects it. -/
def strays (as : List SpgAction) : Bool :=
  match Timed.start with
  | none => false
  | some t =>
    let ms := (run Timed.step t as).1
    ms.all (fun m => decide m.after.spg.LinesInside) && ms.any fun m => !decide m.OnLine

/-- `SPG_CONTROL` is written and the pixels become shorter; the geometry is changed so that the
raster is outside of it; the pixels become longer while the time is not a whole number of them; and
an interrupt on every other line is asked for. -/
theorem strays_writes :
    strays [.setControl 0x10, .advance 7207200, .fire .vblankOut] = true ∧
      strays [.advance 7207200, .fire .vblankOut, .setVblankInt 0x00010002, .setLoad 0x00090359,
        .advance 1717983143200, .fire .hblank] = true ∧
      strays [.setPclkDiv 1, .advance 200, .setPclkDiv 2, .advance 7206600, .fire .vblankOut] = true ∧
      strays [.setHblankInt 0x1002, .advance 343200, .fire .hblank] = true := by
  decide +kernel

end Pvr2
