import WashingtonDC.Gdrom.Transfer
import WashingtonDC.Lockstep

/-!
# Which commands the drive answers

Every packet should take the drive out of the state in which it waits for a packet, and request the
event that tells the host so. SEEK and PLAY leave the state as it is, and a READ that fails requests
nothing. On the other hand the event must not fire while the host reads the data of a phase; only
SET FEATURES requests it in that state.

The event can fire at any time here, not only after its delay.
-/
namespace Gdrom

open EventSlot BufferQueue

namespace Drive

variable {env : Env} {d : Drive}

/-! ## Small facts -/

@[simp] theorem delayedProcessing_pending (d : Drive) :
    d.delayedProcessing.intRaiseEvent.pending = true :=
  Known.pending_request _ _

@[simp] theorem raiseInt_intRaiseEvent (d : Drive) :
    d.raiseInt.intRaiseEvent = d.intRaiseEvent := by
  unfold raiseInt
  split <;> rfl

theorem postDelay_eq_error_iff {f : Fault} :
    d.postDelayGdromDelayedProcessing = .error f ↔ d.state = .pioReading ∧ f = .integrity := by
  unfold postDelayGdromDelayedProcessing
  cases d.state <;> simp [eq_comm]

/-! ## Packets -/

/-- The drive leaves the state in which it waits for a packet, and puts the event in the list, where
it was not before. -/
def Completes (env : Env) (d : Drive) : Prop :=
  ∃ d', d.inputPacket env = .ok d' ∧ d'.state ≠ .inputPkt ∧ d.intRaiseEvent.event = none ∧
    d'.intRaiseEvent.event = some (d.stamp + gdromIntDelay)

def CompletesWhen (env : Env) (d : Drive) : PktCmd → Prop
  | .play | .seek => False
  | .read =>
    d.pktBuf 1 >>> 4 = 2 ∧ d.pktBuf 1 &&& 1 = 0 ∧ Readable env d.sectorCount d.firstSector
  | .readToc => env.disc.isSome = true
  | .subcode => d.pktLen ≤ bufqLen
  | _ => True

theorem pushSectors_fst_iff {n : Nat} {fad : UInt32} {q : List (Buffer UInt8)} :
    (pushSectors env n fad q).1 = true ↔ Readable env n fad := by
  induction n generalizing fad q with
  | zero => simp [pushSectors, Readable]
  | succ n ih =>
    rw [pushSectors, readable_succ]
    cases hdat : env.readSector fad with
    | none => simp
    | some dat => simp [ih]

/-- The drive goes to a state and requests the event once. -/
def Answers (d : Drive) (s : DriveState) (d' : Drive) : Prop :=
  d'.state = s ∧ d'.intRaiseEvent = d.intRaiseEvent.request (d.stamp + gdromIntDelay)

section
variable {d' : Drive} {cmd : PktCmd} (command : PktCmd.ofByte (d.pktBuf 0) = some cmd)
include command

theorem completes_ok_iff (h : d.received.inputPktCmd env cmd = .ok d') :
    Completes env d ↔ d'.state ≠ .inputPkt ∧ d.intRaiseEvent.event = none ∧
      d'.intRaiseEvent.event = some (d.stamp + gdromIntDelay) := by
  have hinput : d.inputPacket env = .ok d' := by
    rw [inputPacket, command]
    exact h
  constructor
  · rintro ⟨d'', hinput', hdone⟩
    cases hinput.symm.trans hinput'
    exact hdone
  · intro hdone
    exact ⟨d', hinput, hdone⟩

/-- The event is requested once. It is put in the list unless it is there already. -/
theorem completes_of_answer {s : DriveState} (ne : s ≠ .inputPkt)
    (h : d.received.inputPktCmd env cmd = .ok d') (answer : d.received.Answers s d') :
    Completes env d ↔ d.intRaiseEvent.event = none := by
  obtain ⟨hstate, hevent⟩ := answer
  rw [completes_ok_iff command h, hevent, Known.event_request]
  constructor
  · exact fun hdone => hdone.2.1
  · intro hidle
    refine ⟨hstate ▸ ne, hidle, ?_⟩
    rw [show d.received.intRaiseEvent.event = none from hidle, Option.getD_none]
    rfl

theorem not_completes_of_error {f : Fault} (h : d.received.inputPktCmd env cmd = .error f) :
    ¬Completes env d := by
  rintro ⟨d', hinput, -⟩
  rw [inputPacket, command] at hinput
  cases h.symm.trans hinput

end

theorem answers_inputReqModePacket (d : Drive) :
    d.Answers .pioReadDelay (d.inputReqModePacket env) := by
  unfold inputReqModePacket
  dsimp only
  split <;> exact ⟨rfl, rfl⟩

theorem answers_inputReqErrorPacket (d : Drive) :
    d.Answers .pioReadDelay d.inputReqErrorPacket := by
  unfold inputReqErrorPacket
  dsimp only
  split <;> exact ⟨rfl, rfl⟩

theorem answers_inputTestUnitPacket (d : Drive) :
    d.Answers .norm (d.inputTestUnitPacket env) := by
  unfold inputTestUnitPacket
  dsimp only
  split <;> exact ⟨rfl, rfl⟩

theorem answers_readOutcome (pio : d.feat.dmaEnable = false) (n : Nat) (q : List (Buffer UInt8)) :
    d.Answers .pioReadDelay (d.readOutcome n (true, q)) := by
  simp only [readOutcome, pio]
  exact ⟨rfl, rfl⟩

theorem completes_read_iff (command : PktCmd.ofByte (d.pktBuf 0) = some .read)
    (pio : d.feat.dmaEnable = false) :
    Completes env d ↔ d.intRaiseEvent.event = none ∧ CompletesWhen env d .read := by
  have hread : d.received.inputPktCmd env .read = d.received.inputReadPacket env := rfl
  unfold inputReadPacket at hread
  dsimp only at hread
  split at hread
  · rename_i hsel
    refine iff_of_false (not_completes_of_error command hread) ?_
    rintro ⟨-, h, -⟩
    exact hsel h
  · rename_i hsel
    split at hread
    · rename_i htp
      refine iff_of_false (not_completes_of_error command hread) ?_
      rintro ⟨-, -, h, -⟩
      exact htp h
    · rename_i htp
      have hreadable := @pushSectors_fst_iff env d.sectorCount d.firstSector []
      change d.received.inputPktCmd env .read = .ok (d.received.readOutcome d.sectorCount
        (pushSectors env d.sectorCount d.firstSector [])) at hread
      generalize pushSectors env d.sectorCount d.firstSector [] = outcome at hread hreadable
      obtain ⟨ok, q⟩ := outcome
      cases ok with
      | false =>
        -- The event is left as it is.
        rw [completes_ok_iff command hread]
        refine iff_of_false ?_ fun h => Bool.false_ne_true (hreadable.mpr h.2.2.2)
        rintro ⟨-, hidle, hevent⟩
        cases hidle.symm.trans hevent
      | true =>
        rw [completes_of_answer command (by decide) hread
          (answers_readOutcome (d := d.received) pio _ q)]
        exact ⟨fun h => ⟨h, not_not.mp hsel, not_not.mp htp, hreadable.mp rfl⟩, And.left⟩

/-- In the state in which it waits for a packet, without DMA, the drive completes a packet of a
supported command exactly when the event is not in the list yet, under the condition of that
command. -/
theorem completes_iff (env : Env) (d : Drive) (cmd : PktCmd)
    (command : PktCmd.ofByte (d.pktBuf 0) = some cmd) (state : d.state = .inputPkt)
    (pio : d.feat.dmaEnable = false) :
    Completes env d ↔ d.intRaiseEvent.event = none ∧ CompletesWhen env d cmd := by
  have always : ∀ {s d'}, s ≠ .inputPkt → d.received.inputPktCmd env cmd = .ok d' →
      d.received.Answers s d' → CompletesWhen env d cmd →
      (Completes env d ↔ d.intRaiseEvent.event = none ∧ CompletesWhen env d cmd) := by
    intro s d' hne h hanswer hwhen
    rw [completes_of_answer command hne h hanswer]
    exact (and_iff_left hwhen).symm
  cases cmd with
  | testUnit => exact always (by decide) rfl (answers_inputTestUnitPacket d.received) trivial
  | reqStat | startDisk => exact always (s := .norm) (by decide) rfl ⟨rfl, rfl⟩ trivial
  | reqMode => exact always (by decide) rfl (answers_inputReqModePacket d.received) trivial
  | setMode =>
    have hset : d.received.inputPktCmd env .setMode = .ok _ := if_neg (Bool.eq_false_iff.mp pio)
    exact always (s := .setMode) (by decide) hset ⟨rfl, rfl⟩ trivial
  | reqError => exact always (by decide) rfl (answers_inputReqErrorPacket d.received) trivial
  | readToc =>
    have htoc : d.received.inputPktCmd env .readToc = d.received.inputReadTocPacket env := rfl
    unfold inputReadTocPacket at htoc
    cases hdisc : env.disc with
    | none =>
      rw [hdisc] at htoc
      refine iff_of_false (not_completes_of_error command htoc) ?_
      rw [CompletesWhen, hdisc]
      simp
    | some disc =>
      rw [hdisc] at htoc
      refine always (s := .pioReadDelay) (by decide) htoc ⟨rfl, rfl⟩ ?_
      rw [CompletesWhen, hdisc]
      rfl
  | read => exact completes_read_iff command pio
  | play =>
    rw [completes_ok_iff command rfl]
    exact iff_of_false (fun h => h.1 state) And.right
  | seek =>
    have hseek : d.received.inputPktCmd env .seek = d.received.inputSeekPacket := rfl
    unfold inputSeekPacket at hseek
    split at hseek
    · rw [completes_ok_iff command hseek]
      exact iff_of_false (fun h => h.1 state) And.right
    · exact iff_of_false (not_completes_of_error command hseek) And.right
  | subcode =>
    have hsub : d.received.inputPktCmd env .subcode = d.received.inputReadSubcodePacket := rfl
    unfold inputReadSubcodePacket at hsub
    split at hsub
    · rename_i hlen
      exact iff_of_false (not_completes_of_error command hsub) fun h => not_le.mpr hlen h.2
    · rename_i hlen
      exact always (s := .pioReadDelay) (by decide) hsub ⟨rfl, rfl⟩ (Nat.le_of_not_lt hlen)
  | unknown71 => exact always (s := .pioReadDelay) (by decide) rfl ⟨rfl, rfl⟩ trivial

theorem completes_read_sector :
    CompletesWhen blankEnv (packetDrive [0x30, 0x20, 0, 0, 0, 0, 0, 0, 0, 0, 1]) .read ∧
      Completes blankEnv (packetDrive [0x30, 0x20, 0, 0, 0, 0, 0, 0, 0, 0, 1]) := by
  have hwhen : CompletesWhen blankEnv (packetDrive [0x30, 0x20, 0, 0, 0, 0, 0, 0, 0, 0, 1]) .read :=
    ⟨rfl, rfl, readable_blankEnv _ _⟩
  exact ⟨hwhen, (completes_iff blankEnv _ .read rfl rfl rfl).mpr ⟨rfl, hwhen⟩⟩

/-- After SEEK and PLAY the drive waits for another packet, and the host is never told of a sector
that cannot be read. -/
theorem seek_play_read_incomplete :
    (∃ d', (packetDrive [0x21, 4]).inputPacket blankEnv = .ok d' ∧ d'.state = .inputPkt) ∧
      (∃ d', (packetDrive [0x20]).inputPacket blankEnv = .ok d' ∧ d'.state = .inputPkt) ∧
      ∃ d', (packetDrive [0x30, 0x20, 0, 0, 0, 0, 0, 0, 0, 0, 1]).inputPacket
          { blankEnv with disc := none } = .ok d' ∧ d'.intRaiseEvent.pending = false :=
  ⟨⟨_, rfl, rfl⟩, ⟨_, rfl, rfl⟩, ⟨_, rfl, rfl⟩⟩

end Drive

end Gdrom
