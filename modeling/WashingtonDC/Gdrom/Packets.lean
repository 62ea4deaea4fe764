import WashingtonDC.Gdrom.Drive

/-!
# Buffers filled by packets

The handlers of the packets fill buffers of `GDROM_BUFQ_LEN` bytes by copying a part of a reply.
The copies are listed here with the reply that they read from; the bytes of a buffer are the ones
that its copy reads. For every packet the copies stay inside of the reply and of the buffer, with
one exception: the length of `GDROM_PKT_SUBCODE` is not clipped.
-/
namespace Gdrom

open BufferQueue List

/-- A part of a reply is copied to a new buffer. Filling a buffer with zeroes is a copy of as many
zeroes. -/
structure Copy where
  reply : List UInt8
  start : Nat
  len : Nat

def Copy.node (c : Copy) : Buffer UInt8 := ⟨0, (c.reply.drop c.start).take c.len⟩

/-- Only the reply is read and only the buffer is written. -/
structure Copy.Within (c : Copy) : Prop where
  read : c.start + c.len ≤ c.reply.length
  write : c.len ≤ bufqLen

theorem Copy.Within.node {c : Copy} (within : c.Within) :
    c.node.idx ≤ c.node.dat.length ∧ c.node.dat.length ≤ bufqLen := by
  refine ⟨Nat.zero_le _, ?_⟩
  exact le_trans (length_take_le _ _) within.write

namespace Drive

variable (env : Env) (d : Drive)

/-- The sectors that `gdrom_input_read_packet` reads. -/
def sectorCopies : Nat → UInt32 → List Copy
  | 0, _ => []
  | n + 1, fad =>
    match env.readSector fad with
    | none => []
    | some dat => ⟨dat.toList, 0, cdromFrameDataSize⟩ :: sectorCopies n (fad + 1)

def reqErrorCopies : List Copy :=
  let reply := [0xf0, 0, UInt8.ofNat (d.error.senseKey % 16), 0, 0, 0, 0, 0,
    d.additionalSense.code, 0]
  let len := min (d.pktBuf 4).toNat 10
  if len ≠ 0 then [⟨reply, 0, len⟩] else []

def reqModeCopies : List Copy :=
  let startingAddr := (d.pktBuf 2).toNat
  let len := (d.pktBuf 4).toNat
  if len ≠ 0 then
    let firstIdx := min startingAddr 31
    let lastIdx := min (startingAddr + (len - 1)) 31
    [⟨env.reqModeResp.toList, firstIdx, lastIdx - firstIdx + 1⟩]
  else []

def readTocCopies : List Copy :=
  match env.disc with
  | none => []
  | some disc =>
    [⟨(disc.toc ((d.pktBuf 1 &&& 1) != 0)).toList, 0, min d.pktLen cdromTocSize⟩]

def copies : PktCmd → List Copy
  | .reqMode => d.reqModeCopies env
  | .reqError => d.reqErrorCopies
  | .readToc => d.readTocCopies env
  | .read =>
    if d.pktBuf 1 >>> 4 ≠ 2 ∨ d.pktBuf 1 &&& 1 ≠ 0 then []
    else sectorCopies env (d.pktBytes 8 9 10).toNat (d.pktBytes 2 3 4)
  | .subcode => [⟨replicate d.pktLen 0, 0, d.pktLen⟩]
  | .unknown71 => [⟨env.pkt71Resp.toList, 0, 960⟩]
  | _ => []

/-! ## The queue holds the copies -/

theorem pushSectors_copies (n : Nat) (fad : UInt32) (q : List (Buffer UInt8)) :
    (pushSectors env n fad q).2 = q ++ (sectorCopies env n fad).map Copy.node := by
  induction n generalizing fad q with
  | zero => simp [pushSectors, sectorCopies]
  | succ n ih =>
    rw [pushSectors, sectorCopies]
    cases env.readSector fad with
    | none => simp
    | some dat =>
      dsimp only
      rw [ih, append_assoc]
      simp [Copy.node]

theorem readOutcome_bufq (transLen : Nat) (outcome : Bool × List (Buffer UInt8)) :
    (d.readOutcome transLen outcome).bufq = outcome.2 := by
  unfold readOutcome
  dsimp only
  split
  · rfl
  · split <;> rfl

theorem inputPktCmd_bufq {d d' : Drive} {cmd : PktCmd} (run : d.inputPktCmd env cmd = .ok d') :
    d'.bufq = d.bufq ∨ d'.bufq = (d.copies env cmd).map Copy.node := by
  cases cmd with
  | testUnit =>
    cases run
    left
    dsimp only [inputTestUnitPacket]
    split <;> rfl
  | reqStat | startDisk | play => cases run; exact .inl rfl
  | setMode =>
    simp only [inputPktCmd, inputSetModePacket] at run
    split at run
    · cases run
    · cases run; exact .inl rfl
  | seek =>
    simp only [inputPktCmd, inputSeekPacket] at run
    split at run
    · cases run; exact .inl rfl
    · cases run
  | reqMode =>
    cases run
    right
    dsimp only [inputReqModePacket, copies, reqModeCopies]
    split <;> rfl
  | reqError =>
    cases run
    right
    dsimp only [inputReqErrorPacket, copies, reqErrorCopies]
    split <;> rfl
  | unknown71 =>
    cases run
    right
    simp [copies, Copy.node, inputPacket71, replyPio, bufqPush, bufqClear, stateTransferPioRead,
      clearError, delayedProcessing]
  | readToc =>
    rw [inputPktCmd, inputReadTocPacket] at run
    rw [copies, readTocCopies]
    cases hdisc : env.disc with
    | none =>
      rw [hdisc] at run
      cases run
    | some disc =>
      rw [hdisc] at run
      cases run
      exact .inr rfl
  | subcode =>
    simp only [inputPktCmd, inputReadSubcodePacket] at run
    split at run
    · cases run
    · cases run
      right
      simp [copies, Copy.node, replyPio, bufqPush, bufqClear, stateTransferPioRead, clearError,
        delayedProcessing]
  | read =>
    simp only [inputPktCmd, inputReadPacket] at run
    split at run
    · cases run
    · rename_i hsel
      split at run
      · cases run
      · rename_i htp
        cases run
        right
        rw [readOutcome_bufq, pushSectors_copies, nil_append, copies,
          if_neg (not_or.mpr ⟨hsel, htp⟩)]

/-! ## Bounds -/

theorem sectorCopies_within {n : Nat} {fad : UInt32} {c : Copy} (mem : c ∈ sectorCopies env n fad) :
    c.Within := by
  induction n generalizing fad with
  | zero => cases mem
  | succ n ih =>
    rw [sectorCopies] at mem
    split at mem
    · cases mem
    · obtain rfl | hmem := mem_cons.mp mem
      · exact ⟨by simp, show cdromFrameDataSize ≤ bufqLen by decide⟩
      · exact ih hmem

theorem copies_within {cmd : PktCmd} {c : Copy} (mem : c ∈ d.copies env cmd) :
    c.Within ∨ cmd = .subcode ∧ bufqLen < d.pktLen := by
  cases cmd with
  | testUnit | reqStat | startDisk | play | setMode | seek => cases mem
  | reqMode =>
    dsimp only [copies, reqModeCopies] at mem
    split at mem
    · cases mem_singleton.mp mem
      left
      exact ⟨by simp only [Vector.length_toList]; omega, by dsimp only [bufqLen]; omega⟩
    · cases mem
  | reqError =>
    dsimp only [copies, reqErrorCopies] at mem
    split at mem
    · cases mem_singleton.mp mem
      left
      exact ⟨by simp, by dsimp only [bufqLen]; omega⟩
    · cases mem
  | readToc =>
    dsimp only [copies, readTocCopies] at mem
    split at mem
    · cases mem
    · cases mem_singleton.mp mem
      left
      exact ⟨by simp, by dsimp only [bufqLen, cdromTocSize]; omega⟩
  | unknown71 =>
    cases mem_singleton.mp mem
    exact .inl ⟨by simp, show 960 ≤ bufqLen by decide⟩
  | subcode =>
    cases mem_singleton.mp mem
    by_cases hlen : bufqLen < d.pktLen
    · exact .inr ⟨rfl, hlen⟩
    · exact .inl ⟨by simp, Nat.le_of_not_lt hlen⟩
  | read =>
    rw [copies] at mem
    split at mem
    · cases mem
    · exact .inl (sectorCopies_within env mem)

def packetCopies : List Copy :=
  match PktCmd.ofByte (d.pktBuf 0) with
  | some cmd => d.received.copies env cmd
  | none => []

/-- The buffers that a packet adds to the queue are within their bounds and so are the copies, unless
it asks for more bytes of the subcode than a buffer has. -/
theorem packet_within_iff (env : Env) (d : Drive) :
    ((∀ c ∈ d.packetCopies env, c.Within) ∧
        ∀ d', d.inputPacket env = .ok d' →
          ∀ b ∈ d'.bufq, b ∈ d.bufq ∨ b.idx ≤ b.dat.length ∧ b.dat.length ≤ bufqLen) ↔
      ¬(PktCmd.ofByte (d.pktBuf 0) = some .subcode ∧ bufqLen < d.pktLen) := by
  rw [packetCopies, inputPacket]
  constructor
  · rintro ⟨hcopies, -⟩ ⟨hcmd, hlen⟩
    rw [hcmd] at hcopies
    exact absurd (hcopies _ mem_cons_self).write (Nat.not_le_of_lt hlen)
  · intro hother
    cases hcmd : PktCmd.ofByte (d.pktBuf 0) with
    | none => exact ⟨fun c hc => (not_mem_nil hc).elim, fun d' run => nomatch run⟩
    | some cmd =>
      have hwithin (c : Copy) (hc : c ∈ d.received.copies env cmd) : c.Within := by
        obtain hwithin | ⟨rfl, hlen⟩ := d.received.copies_within env hc
        · exact hwithin
        · exact absurd ⟨hcmd, hlen⟩ hother
      refine ⟨hwithin, fun d' run b hb => ?_⟩
      obtain hsame | hnew := inputPktCmd_bufq env run
      · rw [hsame] at hb
        exact .inl hb
      · rw [hnew] at hb
        obtain ⟨c, hc, rfl⟩ := mem_map.mp hb
        exact .inr (hwithin c hc).node

def subcodeRequest : Drive :=
  { init with pktBuf := fun i => if i = 0 then 0x40 else if i = 3 ∨ i = 4 then 0xff else 0 }

def noDisc : Env := ⟨none, Vector.replicate 32 0, Vector.replicate 960 0, Vector.replicate 80 0⟩

/-- A buffer of 2352 bytes is filled with 65535 zeroes. -/
theorem subcode_overflows :
    (∃ c ∈ subcodeRequest.packetCopies noDisc, bufqLen < c.len) ∧
      subcodeRequest.inputPacket noDisc = .error .overflow := by
  refine ⟨⟨_, mem_cons_self, ?_⟩, rfl⟩
  decide

end Drive
end Gdrom
