import WashingtonDC.Sh4.Scif

/-!
# Characters through the serial port

In every run the guest reads the characters that `rxq` accepted, in order and each once, and both
buffers keep to their length. Sent characters are taken in order as long as `send_char` never finds
`txq` full; it drops the character then, so that the condition is exact. What the port does to the
status flags and interrupts is modelled and nothing is claimed about it.
-/
namespace Sh4.Scif

open WhileLoop List Lockstep

namespace CharBuf

variable {b : CharBuf}

@[simp] theorem len_put (c : UInt8) : (b.put c).len = b.len + 1 := rfl

@[simp] theorem len_shift : b.shift.len = b.len - 1 := rfl

theorem contents_put (c : UInt8) : (b.put c).contents = b.contents ++ [c] := by
  have hold : (range b.len).map (Function.update b.buf b.len c) = b.contents := by
    apply map_congr_left
    intro i hi
    exact Function.update_of_ne (ne_of_lt (mem_range.mp hi)) ..
  simp only [contents, put, range_succ, map_append, map_singleton,
    Function.update_self]
  rw [hold, contents]

theorem contents_shift (some : 0 < b.len) (fits : b.len ≤ scifBufLen) :
    b.contents = b.buf 0 :: b.shift.contents := by
  obtain ⟨n, hn⟩ := Nat.exists_eq_succ_of_ne_zero (Nat.pos_iff_ne_zero.mp some)
  simp only [contents, shift, hn, Nat.succ_eq_add_one, Nat.add_sub_cancel,
    range_succ_eq_map, map_cons, map_map, List.cons.injEq, true_and]
  apply map_congr_left
  intro i hi
  have hlt : i < scifBufLen - 1 := by
    have := mem_range.mp hi
    omega
  simp [hlt]

theorem contents_nil (none : b.len = 0) : b.contents = [] := by
  rw [contents, none, range_zero, map_nil]

theorem length_contents : b.contents.length = b.len := by
  rw [contents, length_map, length_range]

end CharBuf

/-! ## What the server changes -/

namespace World

variable {w w' : World} {read written : List UInt8} {queue : List UInt8}

def SameButRings (w w' : World) : Prop :=
  w'.port = { w.port with txq := w'.port.txq, rxq := w'.port.rxq } ∧
    w.received <+: w'.received ∧ w'.drops = w.drops

theorem sameButRings_server (act : ServerAct) : w.SameButRings (w.server act) := by
  cases act with
  | rx ch =>
    simp only [server]
    split
    · exact ⟨rfl, prefix_append .., rfl⟩
    · exact ⟨rfl, prefix_rfl, rfl⟩
  | tx =>
    simp only [server]
    split <;> exact ⟨rfl, prefix_rfl, rfl⟩

theorem SameButRings.trans {w₁ w₂ w₃ : World} (h : w₁.SameButRings w₂) (h' : w₂.SameButRings w₃) :
    w₁.SameButRings w₃ := by
  refine ⟨?_, h.2.1.trans h'.2.1, h'.2.2.trans h.2.2⟩
  rw [h'.1, h.1]

/-- The characters that were received are those that were read, are in the buffer or in the ring. -/
structure Rx (w : World) (read queue : List UInt8) : Prop where
  holds : w.port.rxq.Holds queue
  received : w.received = read ++ w.port.rxBuf.contents ++ queue
  fits : w.port.rxBuf.len ≤ scifBufLen

/-- The characters that were written are counted in one place; their order is kept as long as none
was dropped. -/
structure Tx (w : World) (written queue : List UInt8) : Prop where
  holds : w.port.txq.Holds queue
  count : written.length = w.taken.length + queue.length + w.port.txBuf.len + w.drops
  order : w.drops = 0 → written = w.taken ++ queue ++ w.port.txBuf.contents
  fits : w.port.txBuf.len ≤ scifBufLen

/-- What holds of both directions with what the guest has read and written. -/
def Inv (w : World) (read written : List UInt8) : Prop :=
  (∃ queue, w.Rx read queue) ∧ ∃ queue, w.Tx written queue

section
variable (inv : w.Inv read written)
include inv

theorem Inv.server (act : ServerAct) : (w.server act).Inv read written := by
  obtain ⟨⟨rq, rx⟩, tq, tx⟩ := inv
  cases act with
  | rx ch =>
    by_cases hfull : rq.length + 1 = 2 ^ 10
    · simp only [World.server, rx.holds.produce_full hfull]
      exact ⟨⟨rq, rx⟩, tq, tx⟩
    · obtain ⟨hok, hholds⟩ := rx.holds.produce hfull ch
      rw [World.server, ← Prod.eta (w.port.rxq.produce ch), hok]
      refine ⟨⟨rq ++ [ch], hholds, ?_, rx.fits⟩, tq, tx.holds, tx.count, tx.order, tx.fits⟩
      simp only [rx.received, append_assoc]
  | tx =>
    cases tq with
    | nil =>
      simp only [World.server, tx.holds.consume_nil]
      exact ⟨⟨rq, rx⟩, [], tx⟩
    | cons ch tq =>
      obtain ⟨hsome, hholds⟩ := tx.holds.consume_cons
      rw [World.server, ← Prod.eta w.port.txq.consume, hsome]
      refine ⟨⟨rq, rx.holds, rx.received, rx.fits⟩, tq, hholds, ?_, ?_, tx.fits⟩
      · have hcount := tx.count
        simp only [length_append, length_cons, length_nil] at hcount ⊢
        omega
      · intro hdrops
        rw [tx.order hdrops]
        simp

theorem Inv.of_sched (sched : List (List ServerAct)) :
    { w with sched := sched }.Inv read written := by
  obtain ⟨⟨rq, rx⟩, tq, tx⟩ := inv
  exact ⟨⟨rq, rx.holds, rx.received, rx.fits⟩, tq, tx.holds, tx.count, tx.order, tx.fits⟩

theorem interfere_keeps : w.interfere.Inv read written ∧ w.SameButRings w.interfere := by
  have hfold : ∀ (acts : List ServerAct) (v : World), v.Inv read written →
      (acts.foldl server v).Inv read written ∧ v.SameButRings (acts.foldl server v) := by
    intro acts
    induction acts with
    | nil =>
      intro v hv
      exact ⟨hv, rfl, prefix_rfl, rfl⟩
    | cons act acts ih =>
      intro v hv
      obtain ⟨hinv, hsame⟩ := ih _ (hv.server act)
      exact ⟨hinv, (sameButRings_server act).trans hsame⟩
  rw [interfere]
  split
  · exact ⟨inv, rfl, prefix_rfl, rfl⟩
  · exact hfold _ _ (inv.of_sched _)

/-! ## One ring operation -/

theorem recvChar_keeps {more : Bool} (h : w.recvChar = (more, w')) :
    w'.Inv read written ∧ w.received <+: w'.received ∧
      (more = true → w.port.rxBuf.len < scifBufLen ∧ w'.port.rxBuf.len = w.port.rxBuf.len + 1) ∧
      (more = false → scifBufLen ≤ w'.port.rxBuf.len ∨ w'.Rx read []) := by
  simp only [recvChar] at h
  split at h
  · rename_i hlen
    cases h
    exact ⟨inv, prefix_rfl, nofun, fun _ => .inl hlen⟩
  · rename_i hlen
    obtain ⟨⟨⟨rq, rx⟩, tq, tx⟩, hport, hstarts, -⟩ := interfere_keeps inv
    have hbuf : w.interfere.port.rxBuf.len = w.port.rxBuf.len := by rw [hport]
    cases rq with
    | nil =>
      rw [rx.holds.consume_nil] at h
      cases h
      exact ⟨⟨⟨[], rx⟩, tq, tx⟩, hstarts, nofun, fun _ => .inr rx⟩
    | cons ch rq =>
      obtain ⟨hsome, hholds⟩ := rx.holds.consume_cons
      rw [← Prod.eta w.interfere.port.rxq.consume, hsome] at h
      cases h
      refine ⟨⟨⟨rq, hholds, ?_, ?_⟩, tq, tx.holds, tx.count, tx.order, tx.fits⟩, hstarts,
        fun _ => ⟨Nat.lt_of_not_le hlen, ?_⟩, nofun⟩
      · simp only [rx.received, CharBuf.contents_put, append_assoc, singleton_append]
      · simp only [CharBuf.len_put, hbuf]
        omega
      · simp only [CharBuf.len_put, hbuf]

theorem sendChar_true (h : w.sendChar = (true, w')) :
    w'.Inv read written ∧ w.received <+: w'.received ∧
      w'.port.txBuf.len < w.port.txBuf.len := by
  simp only [sendChar] at h
  split at h
  · cases h
  · rename_i hlen
    obtain ⟨⟨⟨rq, rx⟩, tq, tx⟩, hport, hstarts, -⟩ := interfere_keeps inv
    have hbuf : w.interfere.port.txBuf = w.port.txBuf := by rw [hport]
    have hpos : 0 < w.interfere.port.txBuf.len := by
      rw [hbuf]
      exact pos_of_ne_zero hlen
    have hcontents := CharBuf.contents_shift hpos tx.fits
    by_cases hfull : tq.length + 1 = 2 ^ 10
    · rw [tx.holds.produce_full hfull, if_pos (tx.holds.full_iff.mpr hfull)] at h
      cases h
      refine ⟨⟨⟨rq, rx.holds, rx.received, rx.fits⟩, tq, tx.holds, ?_, nofun, ?_⟩, hstarts, ?_⟩
      · rw [tx.count]
        simp only [CharBuf.len_shift]
        omega
      · exact (Nat.sub_le ..).trans tx.fits
      · simp only [CharBuf.len_shift, hbuf]
        omega
    · have hholds := (tx.holds.produce hfull (w.interfere.port.txBuf.buf 0)).2
      rw [if_neg (mt tx.holds.full_iff.mp hfull)] at h
      cases h
      refine ⟨⟨⟨rq, rx.holds, rx.received, rx.fits⟩, _, hholds, ?_, ?_, ?_⟩, hstarts, ?_⟩
      · rw [tx.count]
        simp only [CharBuf.len_shift, length_append, length_singleton]
        omega
      · intro hdrops
        rw [tx.order hdrops, hcontents]
        simp
      · exact (Nat.sub_le ..).trans tx.fits
      · simp only [CharBuf.len_shift, hbuf]
        omega

end

theorem sendChar_false (h : w.sendChar = (false, w')) : w' = w ∧ w.port.txBuf.len = 0 := by
  simp only [sendChar] at h
  split at h
  · rename_i hlen
    cases h
    exact ⟨rfl, hlen⟩
  · have htrue : true = false := congrArg Prod.fst h
    cases htrue

/-! ## Loops -/

section
variable (inv : w.Inv read written)
include inv

theorem fillRxBuf_keeps :
    w.fillRxBuf.Inv read written ∧ w.received <+: w.fillRxBuf.received ∧
      (scifBufLen ≤ w.fillRxBuf.port.rxBuf.len ∨ w.fillRxBuf.Rx read []) := by
  obtain ⟨t, ⟨ht, hstarts⟩, hexit⟩ := whileTrue_exits recvChar (scifBufLen + 1)
    (I := fun v => v.Inv read written ∧ w.received <+: v.received)
    (μ := fun v => scifBufLen - v.port.rxBuf.len)
    (by
      rintro v v' ⟨hv, hstarts⟩ hrecv
      obtain ⟨hinv, hgrew, hmore, -⟩ := recvChar_keeps hv hrecv
      obtain ⟨hlt, hlen⟩ := hmore rfl
      exact ⟨⟨hinv, hstarts.trans hgrew⟩, by omega⟩)
    ⟨inv, prefix_rfl⟩ (by omega)
  obtain ⟨hinv, hgrew, -, hstop⟩ := recvChar_keeps ht hexit
  exact ⟨hinv, hstarts.trans hgrew, hstop rfl⟩

theorem drainTxBuf_keeps :
    w.drainTxBuf.Inv read written ∧ w.received <+: w.drainTxBuf.received ∧
      w.drainTxBuf.port.txBuf.len = 0 := by
  obtain ⟨t, ⟨ht, hstarts⟩, hexit⟩ := whileTrue_exits sendChar (w.port.txBuf.len + 1)
    (I := fun v => v.Inv read written ∧ w.received <+: v.received)
    (μ := fun v => v.port.txBuf.len)
    (by
      rintro v v' ⟨hv, hstarts⟩ hsend
      obtain ⟨hinv, hgrew, hlt⟩ := sendChar_true hv hsend
      exact ⟨⟨hinv, hstarts.trans hgrew⟩, hlt⟩)
    ⟨inv, prefix_rfl⟩ (Nat.lt_succ_self _)
  obtain ⟨hsame, hempty⟩ := sendChar_false hexit
  rw [← hsame] at ht hstarts hempty
  exact ⟨ht, hstarts, hempty⟩

/-! ## Characters -/

theorem readChar_keeps :
    match w.readChar with
    | (some c, w') => w'.Inv (read ++ [c]) written
    | (none, w') => w'.Inv read written ∧ w.received = read := by
  obtain ⟨⟨⟨rq, rx⟩, tq, tx⟩, hstarts, hstop⟩ := fillRxBuf_keeps inv
  simp only [readChar]
  split
  · rename_i c v h
    split at h
    · rename_i hpos
      cases h
      refine (fillRxBuf_keeps ?_).1
      refine ⟨⟨rq, rx.holds, ?_, ?_⟩, tq, tx.holds, tx.count, tx.order, tx.fits⟩
      · rw [rx.received, CharBuf.contents_shift hpos rx.fits]
        simp
      · exact (Nat.sub_le ..).trans rx.fits
    · cases h
  · rename_i v h
    split at h
    · cases h
    · rename_i hlen
      cases h
      refine ⟨⟨⟨rq, rx⟩, tq, tx⟩, ?_⟩
      -- The loop ended with an empty buffer, so that the ring was empty.
      have hzero : w.fillRxBuf.port.rxBuf.len = 0 := Nat.eq_zero_of_not_pos hlen
      have hempty : w.fillRxBuf.Rx read [] := by
        refine hstop.resolve_left ?_
        rw [hzero]
        decide
      have hall : w.fillRxBuf.received = read := by
        rw [hempty.received, CharBuf.contents_nil hzero, append_nil, append_nil]
      rw [hall] at hstarts
      obtain ⟨⟨q, hw⟩, -⟩ := inv
      apply hstarts.eq_of_length_le
      rw [hw.received]
      simp only [length_append]
      omega

theorem writeChar_keeps (c : UInt8) :
    (w.writeChar c).1 = true ∧ (w.writeChar c).2.Inv read (written ++ [c]) ∧
      (w.writeChar c).2.port.txBuf.len = 0 := by
  obtain ⟨⟨hrx, tq, tx⟩, -, hempty⟩ := drainTxBuf_keeps inv
  have hroom : w.drainTxBuf.port.txBuf.len < scifBufLen := by
    rw [hempty]
    decide
  simp only [writeChar, hroom, if_true, true_and]
  have hput : World.Inv { w.drainTxBuf with
      port := { w.drainTxBuf.port with txBuf := w.drainTxBuf.port.txBuf.put c } } read
      (written ++ [c]) := by
    obtain ⟨rq, rx⟩ := hrx
    refine ⟨⟨rq, rx.holds, rx.received, rx.fits⟩, tq, tx.holds, ?_, ?_, hroom⟩
    · have hcount := tx.count
      simp only [length_append, length_singleton, CharBuf.len_put] at hcount ⊢
      omega
    · intro hdrops
      rw [tx.order hdrops, CharBuf.contents_put]
      simp
  obtain ⟨hinv, -, hdone⟩ := drainTxBuf_keeps hput
  exact ⟨hinv, hdone⟩

end

/-! ## Register handlers -/

def SameQueues (p p' : Port) : Prop :=
  p'.txq = p.txq ∧ p'.rxq = p.rxq ∧ p'.txBuf = p.txBuf ∧ p'.rxBuf = p.rxBuf

theorem Inv.onPort (inv : w.Inv read written) {f : Port → Port} (same : SameQueues w.port (f w.port)) :
    (w.onPort f).Inv read written := by
  obtain ⟨htxq, hrxq, htxBuf, hrxBuf⟩ := same
  obtain ⟨⟨rq, rx⟩, tq, tx⟩ := inv
  refine ⟨⟨rq, ?_, ?_, ?_⟩, tq, ?_, ?_, ?_, ?_⟩
  · simpa only [World.onPort, hrxq] using rx.holds
  · simpa only [World.onPort, hrxBuf] using rx.received
  · simpa only [World.onPort, hrxBuf] using rx.fits
  · simpa only [World.onPort, htxq] using tx.holds
  · simpa only [World.onPort, htxBuf] using tx.count
  · simpa only [World.onPort, htxBuf] using tx.order
  · simpa only [World.onPort, htxBuf] using tx.fits

theorem sameQueues_rxTrig (p : Port) : SameQueues p p.rxTrig := by
  rw [Port.rxTrig]
  split <;> exact ⟨rfl, rfl, rfl, rfl⟩

theorem sameQueues_checkTxTrig (p : Port) : SameQueues p p.checkTxTrig := by
  rw [Port.checkTxTrig]
  split <;> exact ⟨rfl, rfl, rfl, rfl⟩

theorem sameQueues_periodicFlags (p : Port) : SameQueues p p.periodicFlags := by
  simp only [Port.periodicFlags]
  split <;> split <;> exact ⟨rfl, rfl, rfl, rfl⟩

theorem Inv.triggers (inv : w.Inv read written) :
    (w.checkRxTrig.onPort Port.checkTxTrig).Inv read written := by
  have hfill := (fillRxBuf_keeps inv).1
  exact (hfill.onPort (sameQueues_rxTrig _)).onPort (sameQueues_checkTxTrig _)

theorem rxReset_eq_some (h : w.rxReset = some w') : w' = w := by
  rw [rxReset] at h
  split at h
  · exact (Option.some.inj h).symm
  · cases h

end World

namespace Session

variable {s s' : Session} {val : UInt32}

def Inv (s : Session) : Prop := s.world.Inv s.read s.written

theorem inv_init : init.Inv := by
  refine ⟨⟨[], TextRing.Holds.init _, rfl, Nat.zero_le _⟩, [], TextRing.Holds.init _, rfl, ?_, Nat.zero_le _⟩
  intro _
  rfl

/-- A read of a character shows the next one, unless there is none. -/
def Shows (h : Handler) (s : Session) (val : UInt32) (s' : Session) : Prop :=
  match h with
  | .readScfrdr2 =>
    s'.read = s.read ++ [val.toUInt8] ∨ s'.read = s.read ∧ s.world.received = s.read
  | _ => s'.read = s.read

theorem Inv.onPort (inv : s.Inv) {f : Port → Port}
    (same : World.SameQueues s.world.port (f s.world.port)) : (s.onPort f).Inv :=
  World.Inv.onPort inv same

theorem toUInt8_signExtend (c : UInt8) : (World.signExtend c).toUInt8 = c := by
  apply UInt8.toBitVec_inj.mp
  ext i hi
  show (((c.toBitVec).signExtend 32).setWidth 8)[i] = c.toBitVec[i]
  rw [BitVec.getElem_setWidth, BitVec.getLsbD_signExtend, if_pos hi, BitVec.getLsbD_eq_getElem hi]
  simp
  omega

theorem Inv.handle (inv : s.Inv) {h : Handler} (handled : s.handle h = some (val, s')) :
    s'.Inv ∧ Shows h s val s' := by
  cases h with
  | connectServer | readScfsr2 | rxiInt | txiInt =>
    cases handled
    exact ⟨inv.onPort ⟨rfl, rfl, rfl, rfl⟩, rfl⟩
  | readScfrdr2 =>
    have hread := World.readChar_keeps inv
    simp only [Session.handle, World.scfrdr2RegRead] at handled
    split at hread
    · rename_i c w hc
      rw [hc] at handled
      cases handled
      refine ⟨World.Inv.onPort hread ?_, .inl ?_⟩
      · split <;> exact ⟨rfl, rfl, rfl, rfl⟩
      · rw [toUInt8_signExtend]
    · rename_i w hc
      rw [hc] at handled
      cases handled
      exact ⟨hread.1, .inr ⟨rfl, hread.2⟩⟩
  | writeScftdr2 val =>
    simp only [Session.handle, World.scftdr2RegWrite] at handled
    by_cases hconnected : s.world.port.serSrvConnected = true
    · obtain ⟨hok, hinv, -⟩ := World.writeChar_keeps inv val.toUInt8
      rw [if_pos hconnected, ← Prod.eta (s.world.writeChar _), hok] at handled
      cases handled
      exact ⟨hinv, rfl⟩
    · rw [if_neg hconnected] at handled
      cases handled
      exact ⟨inv, rfl⟩
  | readScfdr2 =>
    cases handled
    exact ⟨inv, rfl⟩
  | writeScfsr2 val =>
    cases handled
    refine ⟨?_, rfl⟩
    have hfill := (World.fillRxBuf_keeps inv).1
    exact hfill.onPort (f := fun p => p.scfsr2Write val) ⟨rfl, rfl, rfl, rfl⟩
  | writeScscr2 val =>
    cases handled
    exact ⟨(World.Inv.onPort inv ⟨rfl, rfl, rfl, rfl⟩).triggers, rfl⟩
  | writeScfcr2 val =>
    obtain ⟨w, hreset, hw⟩ := Option.map_eq_some_iff.mp handled
    cases hw
    rw [World.rxReset_eq_some hreset]
    exact ⟨(World.Inv.onPort inv ⟨rfl, rfl, rfl, rfl⟩).triggers, rfl⟩
  | periodic =>
    simp only [Session.handle, World.periodic, Option.map_map] at handled
    obtain ⟨w, hreset, hw⟩ := Option.map_eq_some_iff.mp handled
    cases hw
    rw [World.rxReset_eq_some hreset]
    have hdrain := (World.drainTxBuf_keeps (World.fillRxBuf_keeps inv).1).1
    exact ⟨hdrain.triggers.onPort (World.sameQueues_periodicFlags _), rfl⟩

theorem Inv.act (inv : s.Inv) {a : Action} (acted : s.act a = some (val, s')) :
    s'.Inv ∧ ∀ h sched, a = .guest h sched → Shows h s val s' := by
  cases a with
  | server act =>
    cases acted
    exact ⟨World.Inv.server inv act, nofun⟩
  | guest h sched =>
    obtain ⟨hinv, hshows⟩ := Inv.handle
      (s := { s with world := { s.world with sched := sched } }) (inv.of_sched sched) acted
    refine ⟨hinv, ?_⟩
    rintro h' sched' ⟨⟩
    cases h <;> exact hshows

/-- What was written and not taken is in the ring and in the buffer. -/
def TxInOrder (s : Session) : Prop :=
  ∃ queue, s.world.port.txq.Holds queue ∧
    s.written = s.world.taken ++ queue ++ s.world.port.txBuf.contents

theorem Inv.txInOrder_iff (inv : s.Inv) : s.TxInOrder ↔ s.world.drops = 0 := by
  obtain ⟨-, queue, tx⟩ := inv
  constructor
  · rintro ⟨queue', hholds, horder⟩
    have hcount := tx.count
    have hlen := hholds.length_eq tx.holds
    rw [horder] at hcount
    simp only [length_append, CharBuf.length_contents] at hcount
    omega
  · intro hdrops
    exact ⟨queue, tx.holds, tx.order hdrops⟩

end Session

/-! ## Every run -/

namespace Moved

variable (m : Moved)

/-- What was received and not read is in the buffer and in the ring, and a read shows the next
character unless there is none. -/
def RxInOrder : Prop :=
  (∃ queue, m.after.world.port.rxq.Holds queue ∧
    m.after.world.received = m.after.read ++ m.after.world.port.rxBuf.contents ++ queue) ∧
  ∀ h sched, m.action = .guest h sched → Session.Shows h m.before m.val m.after

def Fits : Prop :=
  m.after.world.port.rxBuf.len ≤ scifBufLen ∧ m.after.world.port.txBuf.len ≤ scifBufLen

def TxInOrder : Prop := m.after.TxInOrder

end Moved

/-- The guest reads what was received and the buffers fit, always; and the server takes what was
written exactly in the runs in which no character finds `txq` full. -/
theorem trace_in_order (actions : List Action) :
    (∀ m ∈ trace actions, m.RxInOrder ∧ m.Fits) ∧
      ((∀ m ∈ trace actions, m.TxInOrder) ↔ ∀ m ∈ trace actions, m.after.world.drops = 0) := by
  constructor
  · refine run_observes_of_invariant (I := Session.Inv) (P := fun _ => True) ?_
      (fun _ _ => trivial) Session.inv_init
    rintro s a m s' hstep - inv
    obtain ⟨⟨val, t⟩, hact, hmoved⟩ := Option.map_eq_some_iff.mp hstep
    cases hmoved
    obtain ⟨hinv, hshows⟩ := inv.act hact
    obtain ⟨⟨queue, rx⟩, _, tx⟩ := id hinv
    exact ⟨⟨⟨⟨queue, rx.holds, rx.received⟩, hshows⟩, rx.fits, tx.fits⟩, hinv⟩
  · refine run_observes_iff (I := Session.Inv) ?_ Session.inv_init
    rintro s a m s' hstep inv
    obtain ⟨⟨val, t⟩, hact, hmoved⟩ := Option.map_eq_some_iff.mp hstep
    cases hmoved
    obtain ⟨hinv, -⟩ := inv.act hact
    exact ⟨hinv.txInOrder_iff, fun _ => hinv⟩

/-! ## A server that does not take characters -/

/-- The server is connected and has not taken a character, and it will not do anything. -/
structure World.Quiet (w : World) : Prop where
  sched : w.sched = []
  taken : w.taken = []
  connected : w.port.serSrvConnected = true

theorem World.Quiet.sendChar {w : World} (quiet : w.Quiet) : w.sendChar.2.Quiet := by
  have hsame : w.interfere = w := by rw [World.interfere, quiet.sched]
  simp only [World.sendChar, hsame]
  split
  · exact quiet
  · exact ⟨quiet.sched, quiet.taken, quiet.connected⟩

theorem World.Quiet.drainTxBuf {w : World} (quiet : w.Quiet) : w.drainTxBuf.Quiet :=
  whileTrue_invariant World.Quiet.sendChar quiet

theorem World.Quiet.writeChar {w : World} (quiet : w.Quiet) (c : UInt8) : (w.writeChar c).2.Quiet := by
  have hdrain := quiet.drainTxBuf
  simp only [World.writeChar]
  split
  · dsimp only
    apply World.Quiet.drainTxBuf
    exact ⟨hdrain.sched, hdrain.taken, hdrain.connected⟩
  · exact hdrain

theorem Session.Inv.length_written_le {s : Session} (inv : s.Inv) (quiet : s.world.Quiet)
    (drained : s.world.port.txBuf.len = 0) (inOrder : s.TxInOrder) {vals : List UInt32}
    (allInOrder : ∀ m ∈ (run Session.step s
      (vals.map fun val => .guest (.writeScftdr2 val) [])).1, m.TxInOrder) :
    s.written.length + vals.length < 2 ^ 10 := by
  induction vals generalizing s with
  | nil =>
    obtain ⟨queue, hholds, horder⟩ := inOrder
    rw [horder, quiet.taken, CharBuf.contents_nil drained]
    simpa using hholds.length_lt
  | cons val vals ih =>
    obtain ⟨hok, hinv, hdrained⟩ := World.writeChar_keeps inv val.toUInt8
    have hquiet := quiet.writeChar val.toUInt8
    have hsched : { s.world with sched := [] } = s.world := by rw [← quiet.sched]
    cases hwrite : s.world.writeChar val.toUInt8 with
    | mk ok w =>
      rw [hwrite] at hok hinv hdrained hquiet
      cases hok
      have hstep : s.step (.guest (.writeScftdr2 val) []) = some
          (⟨.guest (.writeScftdr2 val) [], s, 0, ⟨w, s.read, s.written ++ [val.toUInt8]⟩⟩,
            ⟨w, s.read, s.written ++ [val.toUInt8]⟩) := by
        simp only [Session.step, Session.act, hsched, Session.handle, World.scftdr2RegWrite,
          quiet.connected, if_true, hwrite, Option.map_some]
      simp only [map_cons, run, hstep, forall_mem_cons] at allInOrder
      have hrest := ih (s := ⟨w, s.read, s.written ++ [val.toUInt8]⟩) hinv hquiet hdrained
        allInOrder.1 allInOrder.2
      simp only [length_append, length_cons, length_nil] at hrest ⊢
      omega

/-- The ring holds 1023 characters, and the next one is lost. -/
theorem loses_char_of_full :
    ¬∀ m ∈ trace (.guest .connectServer [] ::
      (replicate 1024 0x41).map fun val => .guest (.writeScftdr2 val) []), m.TxInOrder := by
  intro h
  let start : Session := Session.init.onPort fun p => { p with serSrvConnected := true }
  have hinv : start.Inv := Session.inv_init.onPort ⟨rfl, rfl, rfl, rfl⟩
  have hquiet : start.world.Quiet := ⟨rfl, rfl, rfl⟩
  have hbound := hinv.length_written_le hquiet rfl (hinv.txInOrder_iff.mpr rfl)
    (forall_mem_cons.mp h).2
  rw [length_replicate] at hbound
  exact absurd hbound (by decide)

end Sh4.Scif
