import WashingtonDC.IntrusiveList
import Mathlib.Data.Finset.Card

/-!
# The event scheduler of a clock

`DcClock` is a `struct dc_clock` together with what its pointers reach: the `when`
and link fields of the events, and the cells a stamp pointer may be redirected to.
The scheduler is compared with a set of scheduled events, kept from the history of
calls alone. Handlers, their arguments and the dispatch function play no part here.
The range checks compiled in by `INVARIANTS` are off, as they are by default.
-/
namespace DcSched

open IntrusiveList List Function

set_option linter.unusedSectionVars false

universe u

abbrev DcCycleStamp := UInt64

def sh4ClockScale : DcCycleStamp := 27

/-- The cycle stamp and the target stamp of a clock. A stamp pointer is `none` while it
points at the clock's own field. -/
structure Stamps (Cell : Type u) where
  cycleStampPriv : DcCycleStamp
  cycleStampPtrPriv : Option Cell
  targetStampPriv : DcCycleStamp
  targetStampPtrPriv : Option Cell
  cells : Cell → DcCycleStamp

structure DcClock (Event Cell : Type u) where
  stamps : Stamps Cell
  links : Links Event
  whenOf : Event → DcCycleStamp
  timesliceEndEvent : Event

variable {Event Cell : Type u} [DecidableEq Event] [DecidableEq Cell]

namespace Stamps

variable (stamps : Stamps Cell) (val : DcCycleStamp) (ptr : Option Cell)

def cycleStamp : DcCycleStamp :=
  match stamps.cycleStampPtrPriv with
  | none => stamps.cycleStampPriv
  | some cell => stamps.cells cell

def setCycleStamp : Stamps Cell :=
  match stamps.cycleStampPtrPriv with
  | none => { stamps with cycleStampPriv := val }
  | some cell => { stamps with cells := update stamps.cells cell val }

def targetStamp : DcCycleStamp :=
  match stamps.targetStampPtrPriv with
  | none => stamps.targetStampPriv
  | some cell => stamps.cells cell

def setTargetStamp : Stamps Cell :=
  match stamps.targetStampPtrPriv with
  | none => { stamps with targetStampPriv := val }
  | some cell => { stamps with cells := update stamps.cells cell val }

def setTargetPointer : Stamps Cell :=
  match ptr with
  | some cell =>
    { stamps with
      cells := update stamps.cells cell stamps.targetStamp
      targetStampPtrPriv := some cell }
  | none => { stamps with targetStampPriv := stamps.targetStamp, targetStampPtrPriv := none }

def setCycleStampPointer : Stamps Cell :=
  match ptr with
  | some cell =>
    { stamps with
      cells := update stamps.cells cell stamps.cycleStamp
      cycleStampPtrPriv := some cell }
  | none => { stamps with cycleStampPriv := stamps.cycleStamp, cycleStampPtrPriv := none }

def Separate : Prop :=
  ∀ cell, stamps.cycleStampPtrPriv = some cell → stamps.targetStampPtrPriv ≠ some cell

variable {stamps}

@[simp] theorem targetStamp_setTargetStamp : (stamps.setTargetStamp val).targetStamp = val := by
  cases h : stamps.targetStampPtrPriv <;> simp [setTargetStamp, targetStamp, h]

@[simp] theorem cycleStamp_setCycleStamp : (stamps.setCycleStamp val).cycleStamp = val := by
  cases h : stamps.cycleStampPtrPriv <;> simp [setCycleStamp, cycleStamp, h]

theorem setCycleStamp_setCycleStamp (other : DcCycleStamp) :
    (stamps.setCycleStamp other).setCycleStamp val = stamps.setCycleStamp val := by
  cases h : stamps.cycleStampPtrPriv <;> simp [setCycleStamp, h]

theorem setCycleStamp_cycleStamp : stamps.setCycleStamp stamps.cycleStamp = stamps := by
  obtain ⟨own, ptr, target, targetPtr, cells⟩ := stamps
  cases ptr <;> simp [setCycleStamp, cycleStamp]

@[simp] theorem targetStamp_setTargetPointer :
    (stamps.setTargetPointer ptr).targetStamp = stamps.targetStamp := by
  cases ptr <;> simp [setTargetPointer, targetStamp]

section
variable (apart : stamps.Separate)
include apart

theorem targetStamp_setCycleStamp :
    (stamps.setCycleStamp val).targetStamp = stamps.targetStamp := by
  cases hc : stamps.cycleStampPtrPriv with
  | none => simp only [setCycleStamp, targetStamp, hc]
  | some cell =>
    have hne := apart cell hc
    cases ht : stamps.targetStampPtrPriv with
    | none => simp only [setCycleStamp, targetStamp, hc, ht]
    | some target =>
      have htc : target ≠ cell := fun heq => hne (heq ▸ ht)
      simp [setCycleStamp, targetStamp, hc, ht, htc]

theorem cycleStamp_setTargetStamp : (stamps.setTargetStamp val).cycleStamp = stamps.cycleStamp := by
  cases ht : stamps.targetStampPtrPriv with
  | none => simp only [setTargetStamp, cycleStamp, ht]
  | some cell =>
    cases hc : stamps.cycleStampPtrPriv with
    | none => simp only [setTargetStamp, cycleStamp, hc, ht]
    | some cycle =>
      have hcc : cycle ≠ cell := fun heq => apart cycle hc (heq ▸ ht)
      simp [setTargetStamp, cycleStamp, hc, ht, hcc]

theorem separate_setTargetStamp : (stamps.setTargetStamp val).Separate := by
  unfold setTargetStamp
  split <;> exact apart

theorem separate_setCycleStamp : (stamps.setCycleStamp val).Separate := by
  unfold setCycleStamp
  split <;> exact apart

end

theorem separate_setTargetPointer
    (apart : ∀ cell, stamps.cycleStampPtrPriv = some cell → ptr ≠ some cell) :
    (stamps.setTargetPointer ptr).Separate := by
  cases ptr with
  | none => exact fun _ _ => nofun
  | some target => exact apart

section
variable (apart : ∀ cell, ptr = some cell → stamps.targetStampPtrPriv ≠ some cell)
include apart

theorem separate_setCycleStampPointer : (stamps.setCycleStampPointer ptr).Separate := by
  cases ptr with
  | none => exact fun _ => nofun
  | some cycle => exact apart

theorem targetStamp_setCycleStampPointer :
    (stamps.setCycleStampPointer ptr).targetStamp = stamps.targetStamp := by
  cases ptr with
  | none => rfl
  | some cycle =>
    cases ht : stamps.targetStampPtrPriv with
    | none => simp only [setCycleStampPointer, targetStamp, ht]
    | some target =>
      have hne : target ≠ cycle := fun heq => apart cycle rfl (heq ▸ ht)
      simp [setCycleStampPointer, targetStamp, ht, hne]

end

end Stamps

namespace DcClock

variable (clock : DcClock Event Cell)

def evNextPriv : Option Event := clock.links.head

def setWhen (event : Event) (stamp : DcCycleStamp) : DcClock Event Cell :=
  { clock with whenOf := update clock.whenOf event stamp }

def cycleStamp : DcCycleStamp := clock.stamps.cycleStamp

def targetStamp : DcCycleStamp := clock.stamps.targetStamp

def setCycleStamp (val : DcCycleStamp) : DcClock Event Cell :=
  { clock with stamps := clock.stamps.setCycleStamp val }

def setTargetPointer (ptr : Option Cell) : DcClock Event Cell :=
  { clock with stamps := clock.stamps.setTargetPointer ptr }

def setCycleStampPointer (ptr : Option Cell) : DcClock Event Cell :=
  { clock with stamps := clock.stamps.setCycleStampPointer ptr }

/-- `memset` followed by the two pointer assignments. The timeslice event is part of
the clock, so its fields are zeroed as well. -/
def init : DcClock Event Cell :=
  { clock with
    stamps := ⟨0, none, 0, none, clock.stamps.cells⟩
    links := ((clock.links.set .head none).set (.next clock.timesliceEndEvent) none).setPprev
      clock.timesliceEndEvent none
    whenOf := update clock.whenOf clock.timesliceEndEvent 0 }

def updateTargetStamp : DcClock Event Cell :=
  match clock.evNextPriv with
  | some event => { clock with stamps := clock.stamps.setTargetStamp (clock.whenOf event) }
  | none =>
    { clock with stamps := clock.stamps.setTargetStamp (clock.cycleStamp + 16 * sh4ClockScale) }

end DcClock

open DcClock

/-- The search loop of `sched_event`: the link to write and the event behind it. -/
def schedWalk (clock : DcClock Event Cell) (stamp : DcCycleStamp) :
    Nat → Option Event → Link Event → Option (Option Event × Link Event)
  | 0, _, _ => none
  | fuel + 1, nextPtr, pprevPtr =>
    match nextPtr with
    | none => some (none, pprevPtr)
    | some next =>
      if clock.whenOf next < stamp then
        schedWalk clock stamp fuel (clock.links.next next) (.next next)
      else some (some next, pprevPtr)

def schedEvent (fuel : Nat) (clock : DcClock Event Cell) (event : Event) :
    Option (DcClock Event Cell) := do
  let (nextPtr, pprevPtr) ←
    schedWalk clock (clock.whenOf event) fuel clock.evNextPriv .head
  return { clock with links := clock.links.insertAt pprevPtr nextPtr event }.updateTargetStamp

def cancelEvent (clock : DcClock Event Cell) (event : Event) : Option (DcClock Event Cell) := do
  let links ← clock.links.unlink event
  return { clock with links }.updateTargetStamp

def popEvent (clock : DcClock Event Cell) : DcClock Event Cell × Option Event :=
  let evRet := clock.evNextPriv
  let links :=
    match evRet with
    | some event =>
      let links := clock.links.set .head (clock.links.next event)
      let links := links.setPprevOf links.head (some .head)
      (links.set (.next event) none).setPprev event none
    | none => clock.links
  ({ clock with links }.updateTargetStamp, evRet)

def peekEvent (clock : DcClock Event Cell) : Option Event := clock.evNextPriv

@[simp] theorem updateTargetStamp_links (clock : DcClock Event Cell) :
    clock.updateTargetStamp.links = clock.links := by
  unfold updateTargetStamp
  split <;> rfl

@[simp] theorem updateTargetStamp_whenOf (clock : DcClock Event Cell) :
    clock.updateTargetStamp.whenOf = clock.whenOf := by
  unfold updateTargetStamp
  split <;> rfl

/-- The links spell out the events `xs` in the order of their stamps. -/
structure Queue (clock : DcClock Event Cell) (xs : List Event) : Prop where
  spells : Spells clock.links xs
  sorted : xs.Pairwise (fun a b => clock.whenOf a ≤ clock.whenOf b)

/-- The scheduler represents the set `scheduled`. -/
structure Valid (clock : DcClock Event Cell) (scheduled : Finset Event) : Prop where
  separate : clock.stamps.Separate
  queue : ∃ xs, Queue clock xs ∧ xs.toFinset = scheduled
  target : ∀ event, clock.evNextPriv = some event → clock.targetStamp = clock.whenOf event

section
variable {clock clock' : DcClock Event Cell} {scheduled : Finset Event}

theorem valid_updateTargetStamp {xs : List Event} (queue : Queue clock xs)
    (same : xs.toFinset = scheduled) (apart : clock.stamps.Separate) :
    Valid clock.updateTargetStamp scheduled where
  separate := by
    unfold updateTargetStamp
    split <;> exact Stamps.separate_setTargetStamp _ apart
  queue := by
    refine ⟨xs, ⟨?_, ?_⟩, same⟩
    · simpa using queue.spells
    · simpa using queue.sorted
  target := by
    intro event head
    have head' : clock.evNextPriv = some event := by simpa [evNextPriv] using head
    simp [updateTargetStamp, head', DcClock.targetStamp]

variable {fuel : Nat}

theorem schedWalk_spec (clock : DcClock Event Cell) (stamp : DcCycleStamp) {ys : List Event}
    {p q : Link Event} (enough : ys.length < fuel) (path : Path clock.links p ys q)
    (last : clock.links.get q = none) :
    ∃ zs ws r, ys = zs ++ ws ∧ Path clock.links p zs r ∧
      schedWalk clock stamp fuel ys.head? p = some (ws.head?, r) ∧
      (∀ z ∈ zs, clock.whenOf z < stamp) ∧
      (∀ w, ws.head? = some w → ¬clock.whenOf w < stamp) := by
  induction ys generalizing p fuel with
  | nil =>
    obtain ⟨fuel, rfl⟩ : ∃ n, fuel = n + 1 := ⟨fuel - 1, by simp at enough; omega⟩
    exact ⟨[], [], p, rfl, rfl, rfl, by simp, by simp⟩
  | cons y ys ih =>
    obtain ⟨fuel, rfl⟩ : ∃ n, fuel = n + 1 := ⟨fuel - 1, by simp at enough; omega⟩
    obtain ⟨hget, hback, hrest⟩ := path
    by_cases early : clock.whenOf y < stamp
    · have hnext : clock.links.next y = ys.head? := path_get hrest last
      have enough' : ys.length < fuel := by simpa using enough
      obtain ⟨zs, ws, r, rfl, hzs, hwalk, hearly, hlate⟩ := ih enough' hrest
      refine ⟨y :: zs, ws, r, rfl, ⟨hget, hback, hzs⟩, ?_, ?_, hlate⟩
      · simp only [head?_cons, schedWalk, early, ↓reduceIte, hnext, hwalk]
      · simpa [early] using hearly
    · exact ⟨[], y :: ys, p, rfl, rfl, by simp [schedWalk, early], by simp, by simpa using early⟩

theorem schedWalk_mono {stamp : DcCycleStamp} {more : Nat} {nextPtr : Option Event}
    {pprevPtr : Link Event} {found : Option Event × Link Event} (le : fuel ≤ more)
    (h : schedWalk clock stamp fuel nextPtr pprevPtr = some found) :
    schedWalk clock stamp more nextPtr pprevPtr = some found := by
  induction fuel generalizing more nextPtr pprevPtr with
  | zero => cases h
  | succ fuel ih =>
    obtain ⟨more, rfl⟩ : ∃ n, more = n + 1 := ⟨more - 1, by omega⟩
    cases nextPtr with
    | none => exact h
    | some next =>
      by_cases early : clock.whenOf next < stamp
      · simp only [schedWalk, early, ↓reduceIte] at h ⊢
        exact ih (by omega) h
      · simpa only [schedWalk, early, ↓reduceIte] using h

variable {event : Event}

theorem schedEvent_mono {more : Nat} (le : fuel ≤ more)
    (h : schedEvent fuel clock event = some clock') :
    schedEvent more clock event = some clock' := by
  simp only [schedEvent, Option.bind_eq_bind, Option.bind_eq_some_iff] at h ⊢
  obtain ⟨found, hwalk, hfound⟩ := h
  exact ⟨found, schedWalk_mono le hwalk, hfound⟩

/-- Neither the time nor the stamps of the events moved. -/
structure SameTime (before after : DcClock Event Cell) : Prop where
  cycleStamp : after.cycleStamp = before.cycleStamp
  whenOf : after.whenOf = before.whenOf
  timesliceEndEvent : after.timesliceEndEvent = before.timesliceEndEvent

theorem valid_relinked {links : Links Event} {xs : List Event}
    (apart : clock.stamps.Separate) (queue : Queue { clock with links } xs)
    (same : xs.toFinset = scheduled) :
    Valid { clock with links }.updateTargetStamp scheduled ∧
      SameTime clock { clock with links }.updateTargetStamp := by
  refine ⟨valid_updateTargetStamp queue same apart, ?_, by simp, ?_⟩
  · unfold updateTargetStamp
    split <;> exact Stamps.cycleStamp_setTargetStamp _ apart
  · unfold updateTargetStamp
    split <;> rfl

theorem pairwise_insert {stamp : Event → DcCycleStamp} {zs ws : List Event}
    (sorted : (zs ++ ws).Pairwise (fun a b => stamp a ≤ stamp b))
    (early : ∀ z ∈ zs, stamp z < stamp event)
    (late : ∀ w, ws.head? = some w → ¬stamp w < stamp event) :
    (zs ++ event :: ws).Pairwise (fun a b => stamp a ≤ stamp b) := by
  obtain ⟨hzs, hws, hcross⟩ := pairwise_append.mp sorted
  have behind : ∀ w ∈ ws, stamp event ≤ stamp w := by
    cases ws with
    | nil => simp
    | cons b rest =>
      have hb : stamp event ≤ stamp b := UInt64.not_lt.mp (late b rfl)
      intro w hw
      rcases mem_cons.mp hw with rfl | hw
      · exact hb
      · exact UInt64.le_trans hb ((pairwise_cons.mp hws).1 w hw)
  refine pairwise_append.mpr ⟨hzs, pairwise_cons.mpr ⟨behind, hws⟩, ?_⟩
  intro z hz w hw
  rcases mem_cons.mp hw with rfl | hw
  · exact UInt64.le_of_lt (early z hz)
  · exact hcross z hz w hw

section
variable (valid : Valid clock scheduled)
include valid

theorem schedEvent_valid (fresh : event ∉ scheduled) (enough : scheduled.card < fuel) :
    ∃ clock', schedEvent fuel clock event = some clock' ∧
      Valid clock' (insert event scheduled) ∧ SameTime clock clock' := by
  obtain ⟨xs, queue, rfl⟩ := valid.queue
  obtain ⟨q, path, last⟩ := queue.spells.path
  have hlen : xs.length < fuel := by
    rwa [toFinset_card_of_nodup queue.spells.nodup] at enough
  obtain ⟨zs, ws, r, rfl, hzs, hwalk, hearly, hlate⟩ :=
    schedWalk_spec clock (clock.whenOf event) hlen path last
  rw [← queue.spells.head_eq] at hwalk
  let linked := { clock with links := clock.links.insertAt r ws.head? event }
  have hqueue : Queue linked (zs ++ event :: ws) :=
    ⟨spells_insertAt queue.spells (by simpa using fresh) hzs,
      pairwise_insert queue.sorted hearly hlate⟩
  have hsame : (zs ++ event :: ws).toFinset = insert event (zs ++ ws).toFinset := by
    ext a
    simp
  refine ⟨linked.updateTargetStamp, ?_, valid_relinked valid.separate hqueue hsame⟩
  simp [schedEvent, DcClock.evNextPriv, hwalk, linked]

theorem schedEvent_returned (fresh : event ∉ scheduled)
    (returned : schedEvent fuel clock event = some clock') :
    Valid clock' (insert event scheduled) ∧ SameTime clock clock' := by
  obtain ⟨clock'', hsched, hvalid⟩ :=
    schedEvent_valid valid fresh (Nat.lt_succ_of_le (Nat.le_max_right fuel scheduled.card))
  have hmore := schedEvent_mono
    (Nat.le_succ_of_le (Nat.le_max_left fuel scheduled.card)) returned
  obtain rfl : clock' = clock'' := Option.some.inj (hmore.symm.trans hsched)
  exact hvalid

theorem cancelEvent_valid (here : event ∈ scheduled) :
    ∃ clock', cancelEvent clock event = some clock' ∧
      Valid clock' (scheduled.erase event) ∧ SameTime clock clock' := by
  obtain ⟨xs, queue, rfl⟩ := valid.queue
  obtain ⟨zs, ws, rfl⟩ := append_of_mem (mem_toFinset.mp here)
  obtain ⟨links, hunlink, hspells⟩ := spells_unlink queue.spells
  obtain ⟨hfresh, -⟩ := nodup_cons.mp (nodup_middle.mp queue.spells.nodup)
  have hqueue : Queue { clock with links } (zs ++ ws) :=
    ⟨hspells, queue.sorted.sublist ((sublist_cons_self event ws).append_left zs)⟩
  have hsame : (zs ++ ws).toFinset = (zs ++ event :: ws).toFinset.erase event := by
    ext a
    by_cases ha : a = event
    · subst ha
      simpa using hfresh
    · simp [ha]
  refine ⟨_, ?_, valid_relinked valid.separate hqueue hsame⟩
  simp [cancelEvent, hunlink]

end

theorem popEvent_links {links : Links Event} (head : clock.evNextPriv = some event)
    (back : clock.links.pprev event = some .head) (alone : clock.links.next event ≠ some event)
    (unlinked : clock.links.unlink event = some links) :
    popEvent clock = ({ clock with links }.updateTargetStamp, some event) := by
  have hnext : ∀ x p, (clock.links.setPprevOf x p).next event = clock.links.next event :=
    fun x p => get_setPprevOf clock.links x p (.next event)
  have hback : (clock.links.setPprevOf (clock.links.next event) (some .head)).pprev event =
      some .head := by
    simp [alone, back]
  simp only [Links.unlink, back, hback, hnext, set_setPprevOf, Option.some.injEq] at unlinked
  simp only [popEvent, head, ← unlinked, set_setPprevOf]
  rfl

section
variable (valid : Valid clock scheduled)
include valid

theorem popEvent_valid (head : clock.evNextPriv = some event) :
    ∃ clock', popEvent clock = (clock', some event) ∧ Valid clock' (scheduled.erase event) ∧
      SameTime clock clock' := by
  obtain ⟨xs, queue, rfl⟩ := valid.queue
  obtain ⟨rest, rfl⟩ : ∃ rest, xs = event :: rest :=
    head?_eq_some_iff.mp (queue.spells.head_eq.symm.trans head)
  obtain ⟨q, ⟨-, back, hrest⟩, last⟩ := queue.spells.path
  have hspelled : Spells clock.links ([] ++ event :: rest) := queue.spells
  obtain ⟨links, hunlink, hspells⟩ := spells_unlink hspelled
  obtain ⟨hfresh, -⟩ := nodup_cons.mp queue.spells.nodup
  have alone : clock.links.next event ≠ some event := by
    have hget : clock.links.next event = rest.head? := path_get hrest last
    rw [hget]
    exact fun heq => hfresh (mem_of_mem_head? heq)
  have hqueue : Queue { clock with links } rest :=
    ⟨hspells, (pairwise_cons.mp queue.sorted).2⟩
  have hsame : rest.toFinset = (event :: rest).toFinset.erase event := by
    simp [hfresh]
  exact ⟨_, popEvent_links head back alone hunlink,
    valid_relinked valid.separate hqueue hsame⟩

theorem popEvent_empty (head : clock.evNextPriv = none) :
    ∃ clock', popEvent clock = (clock', none) ∧ Valid clock' scheduled ∧
      SameTime clock clock' := by
  obtain ⟨xs, queue, same⟩ := valid.queue
  refine ⟨clock.updateTargetStamp, ?_, valid_relinked valid.separate queue same⟩
  simp only [popEvent, head]

theorem Valid.head_least (head : clock.evNextPriv = some event) :
    event ∈ scheduled ∧ ∀ other ∈ scheduled, clock.whenOf event ≤ clock.whenOf other := by
  obtain ⟨xs, queue, rfl⟩ := valid.queue
  obtain ⟨rest, rfl⟩ : ∃ rest, xs = event :: rest :=
    head?_eq_some_iff.mp (queue.spells.head_eq.symm.trans head)
  refine ⟨by simp, fun other hother => ?_⟩
  rcases mem_cons.mp (mem_toFinset.mp hother) with rfl | hrest
  · exact UInt64.le_refl _
  · exact (pairwise_cons.mp queue.sorted).1 other hrest

theorem Valid.head_none_iff : clock.evNextPriv = none ↔ scheduled = ∅ := by
  obtain ⟨xs, queue, rfl⟩ := valid.queue
  simp [DcClock.evNextPriv, queue.spells.head_eq]

end

end

/-! ## Whole runs -/

/-- One call, next to the set of scheduled events kept from the calls alone. The stamp
of an event is its owner's to change while it is not scheduled, and the two redirected
stamps are never given one cell. -/
inductive Step : DcClock Event Cell × Finset Event → DcClock Event Cell × Finset Event → Prop
  | schedEvent {clock clock' scheduled event fuel} (fresh : event ∉ scheduled)
      (returned : schedEvent fuel clock event = some clock') :
      Step (clock, scheduled) (clock', insert event scheduled)
  | cancelEvent {clock clock' scheduled event} (here : event ∈ scheduled)
      (returned : cancelEvent clock event = some clock') :
      Step (clock, scheduled) (clock', scheduled.erase event)
  | popEvent {clock clock' scheduled event} (returned : popEvent clock = (clock', some event)) :
      Step (clock, scheduled) (clock', scheduled.erase event)
  | popNothing {clock clock' scheduled} (returned : popEvent clock = (clock', none)) :
      Step (clock, scheduled) (clock', scheduled)
  | setWhen {clock scheduled event stamp} (fresh : event ∉ scheduled) :
      Step (clock, scheduled) (clock.setWhen event stamp, scheduled)
  | setCycleStamp {clock scheduled val} :
      Step (clock, scheduled) (clock.setCycleStamp val, scheduled)
  | setTargetPointer {clock scheduled ptr}
      (apart : ∀ cell, clock.stamps.cycleStampPtrPriv = some cell → ptr ≠ some cell) :
      Step (clock, scheduled) (clock.setTargetPointer ptr, scheduled)
  | setCycleStampPointer {clock scheduled ptr}
      (apart : ∀ cell, ptr = some cell → clock.stamps.targetStampPtrPriv ≠ some cell) :
      Step (clock, scheduled) (clock.setCycleStampPointer ptr, scheduled)

theorem valid_init (clock : DcClock Event Cell) : Valid clock.init ∅ where
  separate := fun _ => nofun
  queue := ⟨[], ⟨spells_nil_iff.mpr rfl, List.Pairwise.nil⟩, rfl⟩
  target := fun _ => nofun

theorem Valid.restamp {clock : DcClock Event Cell} (valid : Valid clock scheduled)
    {stamps : Stamps Cell} (apart : stamps.Separate)
    (target : stamps.targetStamp = clock.stamps.targetStamp) :
    Valid { clock with stamps } scheduled where
  separate := apart
  queue := by
    obtain ⟨xs, queue, same⟩ := valid.queue
    exact ⟨xs, ⟨queue.spells, queue.sorted⟩, same⟩
  target := fun event head => target.trans (valid.target event head)

theorem Valid.setWhen {clock : DcClock Event Cell} {scheduled : Finset Event}
    (valid : Valid clock scheduled) {event : Event} (fresh : event ∉ scheduled)
    (stamp : DcCycleStamp) : Valid (clock.setWhen event stamp) scheduled := by
  have unchanged : ∀ other ∈ scheduled,
      (clock.setWhen event stamp).whenOf other = clock.whenOf other := by
    intro other hother
    have hne : other ≠ event := fun heq => fresh (heq ▸ hother)
    simp [DcClock.setWhen, hne]
  refine ⟨valid.separate, ?_, ?_⟩
  · obtain ⟨xs, queue, rfl⟩ := valid.queue
    refine ⟨xs, ⟨queue.spells, queue.sorted.imp_of_mem ?_⟩, rfl⟩
    intro a b ha hb hab
    rwa [unchanged a (mem_toFinset.mpr ha), unchanged b (mem_toFinset.mpr hb)]
  · intro other head
    rw [unchanged other (valid.head_least head).1]
    exact valid.target other head

variable {before after : DcClock Event Cell × Finset Event}

theorem step_valid (step : Step before after)
    (valid : Valid before.1 before.2) : Valid after.1 after.2 := by
  cases step with
  | schedEvent fresh returned => exact (schedEvent_returned valid fresh returned).1
  | cancelEvent here returned =>
    obtain ⟨clock'', hcancel, hvalid, -⟩ := cancelEvent_valid valid here
    obtain rfl := Option.some.inj (returned.symm.trans hcancel)
    exact hvalid
  | @popEvent clock clock' scheduled event returned =>
    have head : clock.evNextPriv = some event := congrArg Prod.snd returned
    obtain ⟨clock'', hpop, hvalid, -⟩ := popEvent_valid valid head
    cases returned.symm.trans hpop
    exact hvalid
  | @popNothing clock clock' scheduled returned =>
    have head : clock.evNextPriv = none := congrArg Prod.snd returned
    obtain ⟨clock'', hpop, hvalid, -⟩ := popEvent_empty valid head
    cases returned.symm.trans hpop
    exact hvalid
  | setWhen fresh => exact valid.setWhen fresh _
  | setCycleStamp =>
    exact valid.restamp (Stamps.separate_setCycleStamp _ valid.separate)
      (Stamps.targetStamp_setCycleStamp _ valid.separate)
  | setTargetPointer apart =>
    exact valid.restamp (Stamps.separate_setTargetPointer _ apart)
      (Stamps.targetStamp_setTargetPointer _)
  | setCycleStampPointer apart =>
    exact valid.restamp (Stamps.separate_setCycleStampPointer _ apart)
      (Stamps.targetStamp_setCycleStampPointer _ apart)

theorem run_valid
    (run : Relation.ReflTransGen Step before after) (valid : Valid before.1 before.2) :
    Valid after.1 after.2 := by
  induction run with
  | refl => exact valid
  | tail _ step ih => exact step_valid step ih

/-- After any calls the links spell out, in the order of their stamps, exactly the
events that are scheduled; the target is the stamp of the event that a pop returns,
which is a least one; and every further call returns. -/
theorem dcSched_refines_queue {start clock : DcClock Event Cell} {scheduled : Finset Event}
    (run : Relation.ReflTransGen Step (start.init, ∅) (clock, scheduled)) :
    (∃ xs, Spells clock.links xs ∧ xs.Pairwise (fun a b => clock.whenOf a ≤ clock.whenOf b) ∧
      xs.toFinset = scheduled) ∧
    (scheduled.Nonempty → ∃ event ∈ scheduled, clock.evNextPriv = some event ∧
      clock.targetStamp = clock.whenOf event ∧ (popEvent clock).2 = some event ∧
      ∀ other ∈ scheduled, clock.whenOf event ≤ clock.whenOf other) ∧
    (∀ event ∉ scheduled, ∀ fuel, scheduled.card < fuel →
      ∃ clock', schedEvent fuel clock event = some clock') ∧
    (∀ event ∈ scheduled, ∃ clock', cancelEvent clock event = some clock') := by
  have valid : Valid clock scheduled := run_valid run (valid_init start)
  refine ⟨?_, ?_, ?_, ?_⟩
  · obtain ⟨xs, queue, same⟩ := valid.queue
    exact ⟨xs, queue.spells, queue.sorted, same⟩
  · intro nonempty
    cases head : clock.evNextPriv with
    | none => exact absurd (valid.head_none_iff.mp head) nonempty.ne_empty
    | some event =>
      obtain ⟨here, least⟩ := valid.head_least head
      exact ⟨event, here, rfl, valid.target event head, head, least⟩
  · intro event fresh fuel enough
    obtain ⟨clock', hsched, -⟩ := schedEvent_valid valid fresh enough
    exact ⟨clock', hsched⟩
  · intro event here
    obtain ⟨clock', hcancel, -⟩ := cancelEvent_valid valid here
    exact ⟨clock', hcancel⟩

/-- Two events, the second one earlier, with the target behind a redirected pointer. -/
theorem dcSched_refines_queue_pair : ∃ clock : DcClock (Fin 3) Unit,
    clock.targetStamp = 3 ∧ ∃ event ∈ ({1, 0} : Finset (Fin 3)),
      clock.targetStamp = clock.whenOf event ∧ (popEvent clock).2 = some event := by
  let start : DcClock (Fin 3) Unit :=
    ⟨⟨0, none, 0, none, fun _ => 0⟩, Links.empty, fun event => if event = 0 then 5 else 3, 2⟩
  have first := Relation.ReflTransGen.single
    (@Step.schedEvent _ _ _ _ start.init _ ∅ 0 1 (by decide) rfl)
  have second := first.tail (@Step.schedEvent _ _ _ _ _ _ _ 1 2 (by decide) rfl)
  have run := second.tail (@Step.setTargetPointer _ _ _ _ _ _ (some ()) (fun _ => nofun))
  obtain ⟨event, here, -, target, popped, -⟩ := (dcSched_refines_queue run).2.1 (by decide)
  exact ⟨_, rfl, event, here, target, popped⟩

end DcSched
