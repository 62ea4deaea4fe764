import WashingtonDC.Sh4.Countdown

/-!
# When a timer underflows

`chan_event_sched_next` computes the stamp of the next underflow from the counter and the fraction of
a period, `tmu_chan_sync` finds the underflow in the time that has passed. The two agree if the
cycles of the whole countdown fit into the 32 bits of `chan_accum`. If they do not, then the event
finds no underflow, unless the channel has been brought up to date in between.
-/
namespace Sh4.Tmu

open EventSlot Chan UInt32

/-- The stamp that `chan_event_sched_next` computes. -/
def Chan.due (c : Chan) (div stamp : Nat) : Nat := (c.nextChanEvent div + stamp / tmuDiv) * tmuDiv

/-- `tmu_chan_sync` would report an underflow at a stamp. -/
def Chan.Reports (c : Chan) (stamp : Nat) : Prop :=
  ∃ c', { c with unf := false }.sync true (stamp / tmuDiv) = .ok c' ∧ c'.unf = true

def Chan.syncAll (c : Chan) (stamps : List Nat) : Except Fault Chan :=
  stamps.foldlM (fun c s => c.sync true (s / tmuDiv)) c

/-- The event of a channel that was up to date at `stamp` is due when it has to be: the underflow is
not reported before, bringing the channel up to date in between makes no difference, and the event
raises the flag and the interrupt. -/
structure PredictedRight (c : Chan) (div stamp due : Nat) : Prop where
  reports : c.Reports due
  first : ∀ s, stamp ≤ s → s < due → ¬c.Reports s
  steady : ∀ stamps s, (stamp :: (stamps ++ [s])).Pairwise (· ≤ ·) → s < due →
    ∃ c', c.syncAll (stamps ++ [s]) = .ok c' ∧ c.sync true (s / tmuDiv) = .ok c' ∧
      c'.due div s = due ∧ c'.unf = c.unf
  raises : ∀ stamps, (stamp :: stamps).Pairwise (· ≤ ·) → (∀ s ∈ stamps, s < due) →
    ∃ c₁ c₂, c.syncAll stamps = .ok c₁ ∧ c₁.tick true due = .ok c₂ ∧
      c₂.tcr = c.tcr ||| tcrUnfMask ∧ c₂.tcnt = c.tcor ∧ c₂.accum = 0 ∧
      c₂.interrupts = c.interrupts + if c.tcr &&& tcrUnieMask ≠ 0 then 1 else 0

section
variable {c c' : Chan} {div stamp now : Nat}

theorem reports_iff (hdiv : clockDiv c.tcr = some div) (fraction : c.accum < div) (s : Nat) :
    c.Reports s ↔ (c.tcnt.toNat + 1) * div ≤ c.total (s / tmuDiv) % 2 ^ 32 := by
  have hpos := clockDiv_pos hdiv
  have hone : div ≤ (c.tcnt.toNat + 1) * div := Nat.le_mul_of_pos_left _ (by omega)
  have hlt : ∀ n, (c.tcnt.toNat + 1) * div ≤ n ↔ c.tcnt.toNat < n / div := by
    intro n
    rw [← Nat.le_div_iff_mul_le hpos]
    exact Iff.rfl
  have hsmall : div < 2 ^ 32 := by
    rw [clockDiv] at hdiv
    split at hdiv <;> cases hdiv <;> decide
  by_cases helapsed : s / tmuDiv - c.stampLastSync = 0
  · have htotal : c.total (s / tmuDiv) % 2 ^ 32 = c.accum := by
      rw [total, helapsed, add_zero, Nat.mod_eq_of_lt (by omega)]
    rw [htotal]
    constructor
    · rintro ⟨c', hsync, hunf⟩
      rw [sync] at hsync
      simp only [helapsed, if_true] at hsync
      cases hsync
      cases hunf
    · intro hle
      omega
  · have hsync : { c with unf := false }.sync true (s / tmuDiv) = .ok
        (count { c with unf := false, stampLastSync := s / tmuDiv }
          (c.total (s / tmuDiv) % 2 ^ 32) div) := sync_elapsed hdiv helapsed
    rw [Reports, hsync, hlt]
    constructor
    · rintro ⟨c', hc', hunf⟩
      cases hc'
      rw [count] at hunf
      split at hunf
      · split at hunf
        · assumption
        · cases hunf
      · cases hunf
    · intro hover
      refine ⟨_, rfl, ?_⟩
      have hle : div ≤ c.total (s / tmuDiv) % 2 ^ 32 := hone.trans ((hlt _).mpr hover)
      rw [count, if_pos hle, if_pos hover]

/-- A channel counts down, and its event is due at `due`. -/
structure Counting (div stamp due : Nat) (c : Chan) : Prop where
  prescaler : clockDiv c.tcr = some div
  fraction : c.accum < div
  synced : c.stampLastSync = stamp / tmuDiv
  fits : (c.tcnt.toNat + 1) * div < 2 ^ 32
  due : c.due div stamp = due

theorem Chan.accum_lt (fraction : c.accum < div) : c.accum < (c.tcnt.toNat + 1) * div :=
  fraction.trans_le (Nat.le_mul_of_pos_left _ (by omega))

theorem due_div (c : Chan) (div stamp : Nat) :
    c.due div stamp / tmuDiv = c.nextChanEvent div + stamp / tmuDiv :=
  Nat.mul_div_cancel _ (by decide)

theorem total_due (fraction : c.accum < div) (synced : c.stampLastSync = stamp / tmuDiv) :
    c.total (c.due div stamp / tmuDiv) = (c.tcnt.toNat + 1) * div := by
  have hlt := accum_lt (c := c) fraction
  rw [due_div, total, synced, nextChanEvent]
  omega

variable {due s : Nat}

theorem total_lt_iff (fraction : c.accum < div) (synced : c.stampLastSync = stamp / tmuDiv) :
    c.total (s / tmuDiv) < (c.tcnt.toNat + 1) * div ↔ s < c.due div stamp := by
  have hlt := accum_lt (c := c) fraction
  have hbefore : s < c.due div stamp ↔ s / tmuDiv < c.nextChanEvent div + stamp / tmuDiv :=
    (Nat.div_lt_iff_lt_mul (by decide)).symm
  rw [hbefore, total, synced, nextChanEvent]
  omega

theorem upToDate_due (fraction : c.accum < div) (synced : c.stampLastSync = stamp / tmuDiv)
    (later : stamp ≤ s) (before : s < c.due div stamp) :
    (c.upToDate (s / tmuDiv) div).tcnt.toNat = c.tcnt.toNat - c.total (s / tmuDiv) / div ∧
      (c.upToDate (s / tmuDiv) div).due div s = c.due div stamp := by
  have hnot := (total_lt_iff fraction synced).mpr before
  have hstamp : stamp / tmuDiv ≤ s / tmuDiv := Nat.div_le_div_right later
  obtain ⟨htcnt, hexpand⟩ := upToDate_tcnt hnot
  refine ⟨htcnt, ?_⟩
  have hsplit := Nat.div_add_mod (c.total (s / tmuDiv)) div
  rw [Chan.due, Chan.due, nextChanEvent, nextChanEvent, htcnt, hexpand]
  show ((c.tcnt.toNat + 1) * div - div * (c.total (s / tmuDiv) / div) -
    c.total (s / tmuDiv) % div + s / tmuDiv) * tmuDiv = _
  congr 1
  rw [total, synced] at *
  omega

theorem Counting.sync (counting : Counting div stamp due c) (later : stamp ≤ s) (before : s < due) :
    c.sync true (s / tmuDiv) = .ok (c.upToDate (s / tmuDiv) div) ∧
      Counting div s due (c.upToDate (s / tmuDiv) div) := by
  obtain ⟨hdiv, fraction, synced, fits, rfl⟩ := counting
  have hnot := (total_lt_iff fraction synced).mpr before
  obtain ⟨htcnt, hdue⟩ := upToDate_due fraction synced later before
  refine ⟨sync_running hdiv fraction hnot (by omega), hdiv, ?_, rfl, ?_, hdue⟩
  · exact Nat.mod_lt _ (clockDiv_pos hdiv)
  · rw [htcnt]
    exact lt_of_le_of_lt (Nat.mul_le_mul_right div (Nat.succ_le_succ (Nat.sub_le _ _))) fits

theorem upToDate_upToDate (synced : c.stampLastSync ≤ now) {later : Nat} (le : now ≤ later) :
    (c.upToDate now div).upToDate later div = c.upToDate later div := by
  have htotal : (c.upToDate now div).total later = c.total now % div + (later - now) := rfl
  have hsum : c.total later = c.total now % div + (later - now) + div * (c.total now / div) := by
    have hsplit := Nat.div_add_mod (c.total now) div
    rw [total, total] at *
    omega
  have hmod : c.total later % div = (c.total now % div + (later - now)) % div := by
    rw [hsum, Nat.add_mul_mod_self_left]
  have hcount : c.tcnt - ofNat (c.total now / div) -
      ofNat ((c.total now % div + (later - now)) / div) =
      c.tcnt - ofNat (c.total later / div) := by
    rcases Nat.eq_zero_or_pos div with rfl | hpos
    · simp
    · rw [hsum, Nat.add_mul_div_left _ _ hpos, add_comm _ (c.total now / div), ofNat_add]
      grind
  rw [upToDate, htotal, ← hmod]
  show { c with
    stampLastSync := later
    tcnt := c.tcnt - ofNat (c.total now / div) -
      ofNat ((c.total now % div + (later - now)) / div)
    accum := c.total later % div } = _
  rw [hcount]
  rfl

theorem Counting.syncAll (counting : Counting div stamp due c) (stamps : List Nat) (s : Nat)
    (ordered : (stamp :: (stamps ++ [s])).Pairwise (· ≤ ·)) (before : s < due) :
    c.syncAll (stamps ++ [s]) = .ok (c.upToDate (s / tmuDiv) div) := by
  induction stamps generalizing c stamp with
  | nil =>
    have hle : stamp ≤ s := (List.pairwise_cons.mp ordered).1 s (by simp)
    simp [syncAll, (counting.sync hle before).1]
  | cons s₁ stamps ih =>
    obtain ⟨hfirst, hrest⟩ := List.pairwise_cons.mp ordered
    have hle : stamp ≤ s₁ := hfirst s₁ (by simp)
    have hle' : s₁ ≤ s := (List.pairwise_cons.mp hrest).1 s (by simp)
    obtain ⟨hsync, hcounting⟩ := counting.sync hle (by omega)
    have hnow : c.stampLastSync ≤ s₁ / tmuDiv := by
      rw [counting.synced]
      exact Nat.div_le_div_right hle
    have hall := ih hcounting hrest
    rw [upToDate_upToDate hnow (Nat.div_le_div_right hle')] at hall
    rw [syncAll, List.cons_append, List.foldlM_cons, hsync]
    exact hall

theorem Counting.syncAll_any (counting : Counting div stamp due c) (stamps : List Nat)
    (ordered : (stamp :: stamps).Pairwise (· ≤ ·)) (before : ∀ s ∈ stamps, s < due) :
    ∃ c' s, c.syncAll stamps = .ok c' ∧ Counting div s due c' ∧ c'.tcr = c.tcr ∧ c'.tcor = c.tcor ∧
      c'.event = c.event ∧ c'.interrupts = c.interrupts := by
  rcases List.eq_nil_or_concat stamps with rfl | ⟨stamps, s, rfl⟩
  · exact ⟨c, stamp, rfl, counting, rfl, rfl, rfl, rfl⟩
  · rw [List.concat_eq_append] at ordered before ⊢
    have hbefore : s < due := before s (by simp)
    have hle : stamp ≤ s := (List.pairwise_cons.mp ordered).1 s (by simp)
    exact ⟨_, s, counting.syncAll stamps s ordered hbefore, (counting.sync hle hbefore).2, rfl, rfl,
      rfl, rfl⟩

theorem eventSchedNext_eq (hdiv : clockDiv c.tcr = some div) (noEvent : c.event.event = none) :
    c.eventSchedNext true stamp = .ok { c with event := ⟨true, some (c.due div stamp)⟩ } := by
  have hclock : c.clockDiv = .ok div := by rw [Chan.clockDiv, hdiv]
  rw [eventSchedNext, if_neg (by decide), hclock]
  show (c.event.sched (c.due div stamp) >>= fun event => .ok { c with event := event }) = _
  rw [Flagged.sched_of_absent noEvent]
  rfl

theorem Counting.tick (counting : Counting div stamp due c) (event : c.event.event = some due) :
    ∃ c', c.tick true due = .ok c' ∧ c'.tcr = c.tcr ||| tcrUnfMask ∧ c'.tcnt = c.tcor ∧ c'.accum = 0 ∧
      c'.interrupts = c.interrupts + if c.tcr &&& tcrUnieMask ≠ 0 then 1 else 0 := by
  obtain ⟨hdiv, fraction, synced, fits, rfl⟩ := counting
  have htotal := total_due (c := c) fraction synced
  have hisDue : c.event.event.isDue (c.due div stamp) = true := by simp [event, Slot.isDue]
  have hsync := sync_underflow (c := { c with event := c.event.pop }) hdiv fraction htotal
    (by rw [← htotal] at fits; exact fits)
  have hprescaler : clockDiv (c.tcr ||| tcrUnfMask) = some div :=
    (clockDiv_congr (tpsc_or_unf c.tcr)).trans hdiv
  have hunie : (c.tcr ||| tcrUnfMask) &&& tcrUnieMask = c.tcr &&& tcrUnieMask := or_unf_and _ rfl
  have htcr : c.tcr ||| tcrUnfMask ||| tcrUnfMask = c.tcr ||| tcrUnfMask := by
    rw [UInt16.or_assoc, UInt16.or_self]
  have hsched : eventSchedNext { c with
      event := c.event.pop, stampLastSync := c.due div stamp / tmuDiv, unf := true, tcnt := c.tcor
      tcr := c.tcr ||| tcrUnfMask, accum := 0 } true (c.due div stamp) = _ :=
    eventSchedNext_eq hprescaler rfl
  rw [Chan.tick, if_pos hisDue, eventHandler, hsync]
  simp only [bind, Except.bind] at hsched ⊢
  rw [hsched]
  refine ⟨_, rfl, ?_⟩
  simp only [if_true, raiseUnf, hunie, htcr]
  by_cases henabled : c.tcr &&& tcrUnieMask ≠ 0
  · simp [henabled]
  · simp [henabled]

/-- The stamp is right if and only if the cycles of the countdown fit into 32 bits. -/
theorem predictedRight_iff (hdiv : clockDiv c.tcr = some div) (fraction : c.accum < div)
    (synced : c.stampLastSync = stamp / tmuDiv) (noEvent : c.event.event = none) :
    ∃ c', c.eventSchedNext true stamp = .ok c' ∧ ∃ due, c'.event.event = some due ∧
      (PredictedRight c' div stamp due ↔ (c.tcnt.toNat + 1) * div < 2 ^ 32) := by
  refine ⟨_, eventSchedNext_eq hdiv noEvent, _, rfl, ?_⟩
  generalize hc' : ({ c with event := ⟨true, some (c.due div stamp)⟩ } : Chan) = c'
  have hdue : c.due div stamp = c'.due div stamp := by rw [← hc']; rfl
  have hdiv' : clockDiv c'.tcr = some div := by rw [← hc']; exact hdiv
  have fraction' : c'.accum < div := by rw [← hc']; exact fraction
  have synced' : c'.stampLastSync = stamp / tmuDiv := by rw [← hc']; exact synced
  have htcnt : c.tcnt = c'.tcnt := by rw [← hc']
  have hevent : c'.event.event = some (c'.due div stamp) := by rw [← hdue, ← hc']
  rw [hdue, htcnt]
  constructor
  · intro right
    have hle := (reports_iff hdiv' fraction' _).mp right.reports
    rw [total_due fraction' synced'] at hle
    exact lt_of_le_of_lt hle (Nat.mod_lt _ (by decide))
  · intro fits
    have counting : Counting div stamp (c'.due div stamp) c' := ⟨hdiv', fraction', synced', fits, rfl⟩
    constructor
    · rw [reports_iff hdiv' fraction', total_due fraction' synced', Nat.mod_eq_of_lt fits]
    · intro s _ hs
      rw [reports_iff hdiv' fraction']
      have hlt := (total_lt_iff fraction' synced').mpr hs
      omega
    · intro stamps s ordered hs
      have hle : stamp ≤ s := (List.pairwise_cons.mp ordered).1 s (by simp)
      obtain ⟨hsync, hcounting⟩ := counting.sync hle hs
      exact ⟨_, counting.syncAll stamps s ordered hs, hsync, hcounting.due, rfl⟩
    · intro stamps ordered hs
      obtain ⟨c₁, s, hall, hcounting, htcr, htcor, hsame, hints⟩ :=
        counting.syncAll_any stamps ordered hs
      obtain ⟨c₂, htick, hraised⟩ := hcounting.tick (by rw [hsame]; exact hevent)
      rw [htcr, htcor, hints] at hraised
      exact ⟨c₁, c₂, hall, htick, hraised⟩

end

/-- A channel that has just been brought up to date, with the slowest prescaler. -/
def slowChan (tcnt : UInt32) : Chan where
  tcor := 9
  tcnt := tcnt
  tcr := 4
  stampLastSync := 0
  accum := 0
  unf := false
  event := .idle
  interrupts := 0

theorem predictedRight_short :
    ∃ c', (slowChan 2).eventSchedNext true 0 = .ok c' ∧ ∃ due, c'.event.event = some due ∧
      PredictedRight c' 1024 0 due := by
  obtain ⟨c', hsched, due, hdue, hright⟩ :=
    predictedRight_iff (show clockDiv (slowChan 2).tcr = some 1024 from rfl) (by decide)
      (show (slowChan 2).stampLastSync = 0 / tmuDiv from rfl) rfl
  exact ⟨c', hsched, due, hdue, hright.mpr (by decide)⟩

/-- A countdown of `2 ^ 32` cycles: the event comes at its end, but finds that no cycle has passed. -/
theorem longest_countdown_missed :
    ∃ c', (slowChan 0x3fffff).eventSchedNext true 0 = .ok c' ∧
      c'.event.event = some (2 ^ 32 * tmuDiv) ∧
      ∃ c₂, c'.tick true (2 ^ 32 * tmuDiv) = .ok c₂ ∧
        c₂.tcr = 4 ∧ c₂.tcnt = 0x3fffff ∧ c₂.interrupts = 0 := by
  refine ⟨_, rfl, rfl, ?_⟩
  rw [Chan.tick, if_pos (by decide)]
  exact ⟨_, rfl, rfl, rfl, rfl⟩

end Sh4.Tmu
