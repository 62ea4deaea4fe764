import WashingtonDC.Gdrom.Completion

/-!
# The event during a transfer

Sequences of accesses by the guest, with the event in between at any time. The handler of the event
has no transition for the state in which the host reads the data of a phase. The event is requested
in that state by one command only, SET FEATURES.
-/
namespace Gdrom

open EventSlot BufferQueue ByteMemory Lockstep

/-- An access of the guest, the passage of time, or the event if it is in the list. -/
inductive Op
  | advance (cycles : Nat)
  | regRead (offs nBytes : Nat)
  | regWrite (offs : Nat) (dat : List UInt8)
  | dmaRegWrite (reg : DmaReg) (val : UInt32)
  | event

namespace Drive

def step (d : Drive) (env : Env) : Op → Except Fault Drive
  | .advance cycles => .ok { d with stamp := d.stamp + cycles }
  | .regRead offs nBytes => (d.regRead env offs nBytes).map Prod.snd
  | .regWrite offs dat => d.regWrite env offs dat
  | .dmaRegWrite reg val => .ok (d.dmaRegWrite val reg).2
  | .event =>
    if d.intRaiseEvent.pending then d.postDelayGdromDelayedProcessing else .ok d

/-- The state before an operation, the operation and the state after it. -/
structure Moved where
  before : Drive
  op : Op
  after : Drive

def move (d : Drive) (a : Env × Op) : Option (Moved × Drive) :=
  (d.step a.1 a.2).toOption.map fun d' => (⟨d, a.2, d'⟩, d')

namespace Moved

variable (m : Moved)

def HandlesEvent : Prop :=
  m.after.intRaiseEvent.pending = true →
    m.after.postDelayGdromDelayedProcessing ≠ .error .integrity

/-- SET FEATURES has been issued while the host reads the data of a phase. -/
def SetsFeaturesInPhase : Prop :=
  m.before.state = .pioReading ∧ m.before.feat.setFeatEnable = true ∧
    match m.op with
    | .regWrite offs dat =>
      AtaReg.ofIdx (offs / 4) = some .status ∧
        load (storeBytes m.before.regs offs dat) (4 * AtaReg.status.idx) 4 = AtaCmd.setFeat.code
    | _ => False

end Moved

variable {d d' : Drive} {env : Env}

/-! ## What the operations do to the state and the event -/

def Quiet (d : Drive) : Prop := d.state = .pioReading → d.intRaiseEvent.pending = false

def Calm (d d' : Drive) : Prop :=
  d'.state = d.state ∧ d'.intRaiseEvent = d.intRaiseEvent ∨ d'.state ≠ .pioReading

theorem Quiet.of_calm (quiet : d.Quiet) (calm : Calm d d') : d'.Quiet := by
  intro hstate
  obtain ⟨hsame, hevent⟩ | hne := calm
  · rw [hevent]
    exact quiet (hsame ▸ hstate)
  · exact absurd hstate hne

theorem calm_same (state : d'.state = d.state) (event : d'.intRaiseEvent = d.intRaiseEvent) :
    Calm d d' :=
  .inl ⟨state, event⟩

theorem calm_of_state {s : DriveState} (ne : s ≠ .pioReading) (state : d'.state = s) : Calm d d' :=
  .inr (state ▸ ne)

theorem readOutcome_ne (state : d.state ≠ .pioReading) (n : Nat)
    (outcome : Bool × List (Buffer UInt8)) : (d.readOutcome n outcome).state ≠ .pioReading := by
  unfold readOutcome
  dsimp only
  split
  · exact fun h => by cases h
  · split
    · exact state
    · exact fun h => by cases h

theorem state_ne_of_eq {s : DriveState} (state : d.state = s) (ne : s ≠ .pioReading) :
    d.state ≠ .pioReading :=
  state ▸ ne

theorem inputPktCmd_state {cmd : PktCmd} (h : d.inputPktCmd env cmd = .ok d')
    (state : d.state ≠ .pioReading) : d'.state ≠ .pioReading := by
  cases cmd with
  | testUnit =>
    cases h
    exact state_ne_of_eq (answers_inputTestUnitPacket d).1 (by decide)
  | reqStat | startDisk =>
    cases h
    exact state_ne_of_eq (s := .norm) rfl (by decide)
  | reqMode =>
    cases h
    exact state_ne_of_eq (answers_inputReqModePacket d).1 (by decide)
  | setMode =>
    simp only [inputPktCmd, inputSetModePacket] at h
    split at h
    · cases h
    · cases h
      exact state_ne_of_eq (s := .setMode) rfl (by decide)
  | reqError =>
    cases h
    exact state_ne_of_eq (answers_inputReqErrorPacket d).1 (by decide)
  | readToc =>
    simp only [inputPktCmd, inputReadTocPacket] at h
    split at h
    · cases h
    · cases h
      exact state_ne_of_eq (s := .pioReadDelay) rfl (by decide)
  | read =>
    simp only [inputPktCmd, inputReadPacket] at h
    split at h
    · cases h
    · split at h
      · cases h
      · cases h
        exact readOutcome_ne state _ _
  | play =>
    cases h
    exact state
  | seek =>
    simp only [inputPktCmd, inputSeekPacket] at h
    split at h
    · cases h
      exact state
    · cases h
  | subcode =>
    simp only [inputPktCmd, inputReadSubcodePacket] at h
    split at h
    · cases h
    · cases h
      exact state_ne_of_eq (s := .pioReadDelay) rfl (by decide)
  | unknown71 =>
    cases h
    exact state_ne_of_eq (s := .pioReadDelay) rfl (by decide)

theorem calm_readBytes (n : Nat) (d : Drive) :
    (readBytes n d).2.state = d.state ∧ (readBytes n d).2.intRaiseEvent = d.intRaiseEvent := by
  induction n generalizing d with
  | zero => exact ⟨rfl, rfl⟩
  | succ n ih => exact ih _

theorem calm_readData {n : Nat} {dat : List UInt8} (h : d.readData n = .ok (dat, d')) :
    Calm d d' := by
  unfold readData at h
  split at h
  · cases h
    exact calm_same rfl rfl
  · obtain ⟨hstate, hevent⟩ := calm_readBytes n d
    dsimp only at h
    split at h
    · cases h
      unfold phaseDone
      split
      · exact calm_of_state (s := .norm) (by decide) rfl
      · exact calm_of_state (s := .pioReadDelay) (by decide) rfl
    · split at h
      · cases h
      · cases h
        exact calm_same hstate hevent

theorem calm_writeData {n dat : Nat} (h : d.writeData env n dat = .ok d') : Calm d d' := by
  unfold writeData at h
  split at h
  · rename_i hstate
    dsimp only at h
    split at h
    · unfold inputPacket at h
      split at h
      · exact .inr (inputPktCmd_state h (state_ne_of_eq hstate (by decide)))
      · cases h
    · cases h
      exact calm_same rfl rfl
  · rename_i hstate
    dsimp only at h
    split at h
    · cases h
      exact calm_of_state (s := .norm) (by decide) rfl
    · cases h
      exact calm_same rfl rfl
  · cases h
    exact calm_same rfl rfl

theorem calm_preRead {idx n : Nat} (h : d.preRead env idx n = .ok d') : Calm d d' := by
  have hbyteCnt : ∀ r val, d.readByteCnt r val = .ok d' → Calm d d' := by
    intro r val h
    unfold readByteCnt at h
    split at h
    · cases h
      exact calm_same rfl rfl
    · cases h
  unfold preRead at h
  split at h
  case h_1 =>
    obtain ⟨⟨dat, d1⟩, hread, h⟩ := bind_eq_ok h
    cases h
    have hcalm := calm_readData hread
    exact hcalm
  case h_5 | h_6 => exact hbyteCnt _ _ h
  all_goals cases h
  all_goals exact calm_same rfl rfl

theorem calm_inputCmd {cmd : Nat} (h : d.inputCmd env cmd = .ok d')
    (good : ¬(d.state = .pioReading ∧ d.feat.setFeatEnable = true ∧ cmd = AtaCmd.setFeat.code)) :
    Calm d d' := by
  unfold inputCmd at h
  split at h
  · cases h
    exact calm_of_state (s := .inputPkt) (by decide) rfl
  · rename_i hcmd
    cases h
    have hcode : cmd = AtaCmd.setFeat.code := by
      have hfound := List.find?_some hcmd
      exact (of_decide_eq_true hfound).symm
    unfold cmdSetFeatures
    split
    · rename_i henable
      exact .inr fun hstate => good ⟨hstate, henable, hcode⟩
    · exact calm_same rfl rfl
  · cases h
    exact calm_of_state (s := .norm) (by decide) rfl
  · cases h
    exact calm_same rfl rfl
  · cases h

theorem calm_dmaRegWrite (val : UInt32) (reg : DmaReg) : Calm d (d.dmaRegWrite val reg).2 := by
  cases reg with
  | gdapro =>
    simp only [dmaRegWrite]
    split
    · exact calm_same rfl rfl
    · exact calm_same rfl rfl
  | gdstar | gdlen => exact calm_same rfl rfl
  | gdst => exact calm_of_state (s := .dmaReading) (by decide) rfl

theorem calm_postWrite {idx n : Nat} (h : d.postWrite env idx n = .ok d')
    (good : ¬(d.state = .pioReading ∧ d.feat.setFeatEnable = true ∧
      AtaReg.ofIdx idx = some .status ∧ d.word .status = AtaCmd.setFeat.code)) : Calm d d' := by
  unfold postWrite at h
  split at h
  case h_1 => exact calm_writeData h
  case h_3 =>
    unfold setSectCntReg at h
    split at h
    · cases h
      exact calm_same rfl rfl
    · cases h
  case h_7 hreg => exact calm_inputCmd h fun hbad => good ⟨hbad.1, hbad.2.1, hreg, hbad.2.2⟩
  all_goals
    cases h
    exact calm_same rfl rfl

theorem quiet_postDelay (h : d.postDelayGdromDelayedProcessing = .ok d') : d'.Quiet := by
  intro _
  have hidle : d'.intRaiseEvent = .idle := by
    unfold postDelayGdromDelayedProcessing at h
    split at h
    · cases h
    · cases h
      obtain ⟨s, r, hstatus, -⟩ := phaseStatus_eq d.popped.nextPhase
      rw [raiseInt_intRaiseEvent, hstatus]
      unfold nextPhase
      dsimp only
      split
      · rfl
      · split <;> rfl
    · cases h
      exact raiseInt_intRaiseEvent _
    · cases h
      exact raiseInt_intRaiseEvent _
  rw [hidle]
  rfl

/-! ## Runs -/

theorem step_of_toOption {x : Except Fault Drive} (h : x.toOption = some d) : x = .ok d := by
  cases x with
  | error f => cases h
  | ok d => exact congrArg Except.ok (Option.some.inj h)

theorem quiet_step {op : Op} (h : d.step env op = .ok d')
    (good : ¬Moved.SetsFeaturesInPhase ⟨d, op, d'⟩) (quiet : d.Quiet) : d'.Quiet := by
  cases op with
  | advance cycles =>
    cases h
    exact quiet.of_calm (calm_same rfl rfl)
  | regRead offs nBytes =>
    obtain ⟨⟨dat, d1⟩, hread, rfl⟩ := map_eq_ok h
    unfold regRead at hread
    split at hread
    · obtain ⟨d2, hpre, hpair⟩ := map_eq_ok hread
      cases hpair
      exact quiet.of_calm (calm_preRead hpre)
    · cases hread
  | regWrite offs dat =>
    simp only [step, regWrite] at h
    split at h
    · have hcalm := calm_postWrite h fun hbad => good ⟨hbad.1, hbad.2.1, hbad.2.2⟩
      exact quiet.of_calm hcalm
    · cases h
  | dmaRegWrite reg val =>
    cases h
    exact quiet.of_calm (calm_dmaRegWrite val reg)
  | event =>
    simp only [step] at h
    split at h
    · exact quiet_postDelay h
    · cases h
      exact quiet

theorem Moved.handlesEvent_iff_quiet (m : Moved) : m.HandlesEvent ↔ m.after.Quiet := by
  unfold HandlesEvent Quiet
  rw [ne_eq, postDelay_eq_error_iff]
  cases m.after.intRaiseEvent.pending <;> simp

theorem not_quiet_of_setsFeatures {op : Op} (h : d.step env op = .ok d')
    (bad : Moved.SetsFeaturesInPhase ⟨d, op, d'⟩) : ¬d'.Quiet := by
  obtain ⟨hstate, henable, hop⟩ := bad
  cases op with
  | regWrite offs dat =>
    obtain ⟨hreg, hcode⟩ := hop
    simp only [step, regWrite] at h
    split at h
    · generalize hd1 : ({ d with regs := storeBytes d.regs offs dat } : Drive) = d1 at h
      have hfeat : d1.feat.setFeatEnable = true := hd1 ▸ henable
      have hword : d1.word .status = AtaCmd.setFeat.code := hd1 ▸ hcode
      simp only [postWrite, hreg, hword] at h
      have hset : d' = d1.cmdSetFeatures := (Except.ok.inj h).symm
      rw [cmdSetFeatures, if_pos hfeat] at hset
      intro hquiet
      have hidle : d'.intRaiseEvent.pending = false := hquiet (by rw [hset, ← hd1]; exact hstate)
      rw [hset] at hidle
      cases (delayedProcessing_pending _).symm.trans hidle
    · cases h
  | _ => cases hop

/-- In every run from `gdrom_init` the event finds a transition whenever it may fire, exactly if SET
FEATURES is never issued while the host reads the data of a phase. -/
theorem handlesEvent_iff (as : List (Env × Op)) :
    (∀ m ∈ (run move .init as).1, m.HandlesEvent) ↔
      ∀ m ∈ (run move .init as).1, ¬m.SetsFeaturesInPhase := by
  constructor
  · intro handles m hm hbad
    have hnot : ∀ m ∈ (run move .init as).1, m.SetsFeaturesInPhase → ¬m.after.Quiet := by
      refine run_observes ?_ _ as
      intro d a m d' hmove
      obtain ⟨d1, hstep, hpair⟩ := Option.map_eq_some_iff.mp hmove
      cases hpair
      exact not_quiet_of_setsFeatures (step_of_toOption hstep)
    exact hnot m hm hbad (m.handlesEvent_iff_quiet.mp (handles m hm))
  · intro good
    refine run_observes_of_invariant (I := Quiet) ?_ good (fun h => by cases h)
    intro d a m d' hmove hgood hquiet
    obtain ⟨d1, hstep, hpair⟩ := Option.map_eq_some_iff.mp hmove
    cases hpair
    have hnext := quiet_step (step_of_toOption hstep) hgood hquiet
    exact ⟨(Moved.handlesEvent_iff_quiet _).mpr hnext, hnext⟩

def readPacket : List (List UInt8) := [[0x30, 0x20], [0, 0], [0, 0], [0, 0], [0, 0], [1, 0]]

/-- A READ of one sector up to the phase, and then SET FEATURES with 3 in the features register. -/
def setFeaturesInPhase : List Op :=
  [.regWrite 0x9c [0xa0]] ++ readPacket.map (.regWrite 0x80 ·) ++
    [.event, .regWrite 0x84 [3], .regWrite 0x9c [0xef]]

/-- The event then fires during the phase. -/
theorem event_in_phase :
    ∃ d, (run move .init (setFeaturesInPhase.map (blankEnv, ·))).2 = some d ∧
      d.intRaiseEvent.pending = true ∧ d.postDelayGdromDelayedProcessing = .error .integrity :=
  ⟨_, rfl, rfl, rfl⟩

end Drive

end Gdrom
