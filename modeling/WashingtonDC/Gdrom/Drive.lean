import WashingtonDC.EventSlot
import WashingtonDC.BufferQueue
import WashingtonDC.ByteMemory
import Mathlib.Data.UInt

/-!
# The GD-ROM drive

`gdrom.c`: the registers of the drive as the guest accesses them, the ATA and packet commands, and
the event by which the drive answers some time later. The event can be in the list of the clock at
most once; the drive knows whether it is, so that this is a property of the type of the event here.

The image in the drive and the fixed replies are parameters. A buffer holds as many bytes as are
valid in the source; reading further, which the source would allow for a buffer without any bytes,
gives zero. Writes to memory by DMA are listed as they are passed to `sh4_dmac_transfer_to_mem`.
Messages to the log, the registers that are only stored (`SB_G1GDRC`, `SB_GDDIR`, `SB_GDEN`) and the
attributes of errors are left out.
-/
namespace Gdrom

open EventSlot BufferQueue ByteMemory

/-! ## Data -/

/-- `CDROM_FRAME_SIZE`, the length of a buffer. -/
abbrev bufqLen : Nat := 2352

/-- `CDROM_FRAME_DATA_SIZE`. -/
abbrev cdromFrameDataSize : Nat := 2048

/-- `CDROM_TOC_SIZE`. -/
abbrev cdromTocSize : Nat := 408

/-- `GDROM_INT_DELAY`. -/
abbrev gdromIntDelay : Nat := 5273437

inductive Fault
  | unimplemented
  | integrity
  /-- A register outside of the range. -/
  | outOfBounds
  /-- The source writes past the end of a buffer. -/
  | overflow
deriving DecidableEq

inductive DriveState
  | norm | inputPkt | setMode | pioReadDelay | pioReading | dmaReading
deriving DecidableEq

structure Status where
  bsy : Bool
  drdy : Bool
  df : Bool
  dsc : Bool
  drq : Bool
  corr : Bool
  check : Bool

structure ErrorReg where
  ili : Bool
  eomf : Bool
  abrt : Bool
  mcr : Bool
  senseKey : Nat

structure Features where
  dmaEnable : Bool
  setFeatEnable : Bool

inductive TransMode
  | pioDflt | pioFlowCtrl | singleWordDma | multiWordDma | pseudoDma
deriving DecidableEq

structure SectorCount where
  transMode : TransMode
  modeVal : Nat

structure IntReason where
  cod : Bool
  io : Bool

structure DevCtrl where
  nien : Bool
  srst : Bool

inductive AdditionalSense
  | noError | noDisc

def AdditionalSense.code : AdditionalSense → UInt8
  | .noError => 0
  | .noDisc => 0x3a

/-- A mounted image. -/
structure Disc where
  readSector : UInt32 → Option (Vector UInt8 cdromFrameDataSize)
  /-- The encoded table of contents of a session. -/
  toc : Bool → Vector UInt8 cdromTocSize

/-- What the drive reads besides its own state. -/
structure Env where
  disc : Option Disc
  reqModeResp : Vector UInt8 32
  pkt71Resp : Vector UInt8 960
  identResp : Vector UInt8 80

/-- `mount_read_sectors` for one sector. -/
def Env.readSector (env : Env) (fad : UInt32) : Option (Vector UInt8 cdromFrameDataSize) :=
  env.disc.bind (·.readSector fad)

inductive PktCmd
  | testUnit | reqStat | reqMode | setMode | reqError | readToc | read | play | seek | subcode
  | startDisk | unknown71
deriving DecidableEq

def PktCmd.code : PktCmd → UInt8
  | .testUnit => 0x00
  | .reqStat => 0x10
  | .reqMode => 0x11
  | .setMode => 0x12
  | .reqError => 0x13
  | .readToc => 0x14
  | .read => 0x30
  | .play => 0x20
  | .seek => 0x21
  | .subcode => 0x40
  | .startDisk => 0x70
  | .unknown71 => 0x71

def PktCmd.ofByte (b : UInt8) : Option PktCmd :=
  [testUnit, reqStat, reqMode, setMode, reqError, readToc, read, play, seek, subcode, startDisk,
    unknown71].find? (·.code = b)

inductive AtaCmd
  | pkt | setFeat | identify | nop
deriving DecidableEq

def AtaCmd.code : AtaCmd → Nat
  | .pkt => 0xa0
  | .setFeat => 0xef
  | .identify => 0xa1
  | .nop => 0

def AtaCmd.ofWord (n : Nat) : Option AtaCmd := [pkt, setFeat, identify, nop].find? (·.code = n)

/-- The registers of `gdrom_pre_read` and `gdrom_post_write`, some of which have another meaning
for writes. -/
inductive AtaReg
  | altStatus | rwData | feat | intReason | secNum | byteCntLo | byteCntHi | driveSel | status
deriving DecidableEq

def AtaReg.idx : AtaReg → Nat
  | .altStatus => 6
  | .rwData => 32
  | .feat => 33
  | .intReason => 34
  | .secNum => 35
  | .byteCntLo => 36
  | .byteCntHi => 37
  | .driveSel => 38
  | .status => 39

def AtaReg.ofIdx (i : Nat) : Option AtaReg :=
  [altStatus, rwData, feat, intReason, secNum, byteCntLo, byteCntHi, driveSel, status].find?
    (·.idx = i)

/-- The registers of the DMA. -/
inductive DmaReg
  | gdapro | gdstar | gdlen | gdst

/-- A call of `sh4_dmac_transfer_to_mem`: the first bytes of a buffer are copied to an address. -/
structure DmaWrite where
  addr : UInt32
  nBytes : UInt32
  dat : List UInt8

structure Drive where
  stamp : Nat
  intRaiseEvent : Known
  regs : Memory
  stat : Status
  error : ErrorReg
  feat : Features
  sectCnt : SectorCount
  intReason : IntReason
  devCtrl : DevCtrl
  dataByteCount : Nat
  gdapro : UInt32
  dmaStartAddr : UInt32
  dmaLen : UInt32
  dmaStart : UInt32
  gdlend : UInt32
  driveSel : UInt32
  additionalSense : AdditionalSense
  transModeVals : TransMode → Nat
  state : DriveState
  byteCount : Nat
  bytesRead : Nat
  setModeBytesRemaining : Int
  pktBuf : Nat → UInt8
  nBytesReceived : Nat
  bufq : List (Buffer UInt8)
  /-- `HOLLY_EXT_INT_GDROM` is set in the interrupt controller. -/
  extInt : Bool

/-- `gdrom_init`. -/
def Drive.init : Drive where
  stamp := 0
  intRaiseEvent := .idle
  regs := fun _ => 0
  stat := ⟨false, false, false, false, false, false, false⟩
  error := ⟨true, false, false, false, 0⟩
  feat := ⟨false, false⟩
  sectCnt := ⟨.pioDflt, 1⟩
  intReason := ⟨false, false⟩
  devCtrl := ⟨false, false⟩
  dataByteCount := 0xeb14
  gdapro := 0x7f00
  dmaStartAddr := 0
  dmaLen := 0
  dmaStart := 0
  gdlend := 0
  driveSel := 0
  additionalSense := .noError
  transModeVals := fun _ => 0
  state := .norm
  byteCount := 0
  bytesRead := 0
  setModeBytesRemaining := 0
  pktBuf := fun _ => 0
  nBytesReceived := 0
  bufq := []
  extInt := false

namespace Drive

variable (env : Env) (d : Drive)

/-! ## The event -/

def delayedProcessing : Drive :=
  { d with intRaiseEvent := d.intRaiseEvent.request (d.stamp + gdromIntDelay) }

/-- `holly_raise_ext_int`, unless interrupts are off. -/
def raiseInt : Drive := if d.devCtrl.nien then d else { d with extInt := true }

def nextPhase : Drive :=
  let d := { d with bytesRead := 0 }
  if d.byteCount = 0 then
    { d with stat := { d.stat with drq := false }, state := .norm, dataByteCount := 0 }
  else if 0x8000 < d.byteCount then
    { d with
      dataByteCount := 0x8000, byteCount := d.byteCount - 0x8000
      stat := { d.stat with drq := true }, state := .pioReading }
  else
    { d with
      dataByteCount := d.byteCount, byteCount := 0
      stat := { d.stat with drq := true }, state := .pioReading }

/-- The status after `nextPhase`. -/
def phaseStatus : Drive :=
  let d := { d with stat := { d.stat with bsy := false } }
  if d.stat.drq then { d with intReason := ⟨false, true⟩ }
  else { d with stat := { d.stat with drdy := true }, intReason := ⟨true, true⟩ }

/-- The clock has taken the event from its list and the flag is cleared. -/
def popped : Drive := { d with intRaiseEvent := .idle }

def dmaDone : Drive :=
  { d with
    intReason := ⟨true, true⟩
    stat := { d.stat with drdy := true, drq := false, bsy := false }
    state := .norm }

def postDelayGdromDelayedProcessing : Except Fault Drive :=
  match d.state with
  | .pioReading => .error .integrity
  | .pioReadDelay => .ok d.popped.nextPhase.phaseStatus.raiseInt
  | .dmaReading => .ok d.popped.dmaDone.raiseInt
  | _ => .ok d.popped.raiseInt

/-! ## The queue of buffers -/

def bufqClear : Drive := { d with bufq := [] }

def bufqPush (dat : List UInt8) : Drive := { d with bufq := d.bufq ++ [⟨0, dat⟩] }

def bufqConsumeByte : Option UInt8 × Drive :=
  ((consume d.bufq).1, { d with bufq := (consume d.bufq).2 })

def clearError : Drive := { d with error := ⟨false, false, false, false, 0⟩ }

/-! ## DMA -/

def dmaProtTop : UInt32 := (((d.gdapro &&& 0x7f00) >>> 8) <<< 20) ||| 0x08000000

def dmaProtBot : UInt32 := ((d.gdapro &&& 0x7f) <<< 20) ||| 0x080fffff

/-- The part of a buffer that lies in the window, and the address after it. -/
def dmaChunk (addr chunkSz : UInt32) (dat : List UInt8) : List DmaWrite × UInt32 :=
  if addr < d.dmaProtTop ∧ chunkSz + addr < d.dmaProtTop then ([], addr + chunkSz)
  else
    let chunkSz := if addr < d.dmaProtTop then chunkSz - (d.dmaProtTop - addr) else chunkSz
    let addr := if addr < d.dmaProtTop then d.dmaProtTop else addr
    let chunkSz := if d.dmaProtBot < addr + chunkSz - 1 then d.dmaProtBot - addr + 1 else chunkSz
    ([⟨addr, chunkSz, dat⟩], addr + chunkSz)

/-- The loop of `gdrom_complete_dma`: the bytes transmitted, the calls and what is left of the
queue. -/
def dmaLoop (toTransmit : UInt32) :
    List (Buffer UInt8) → (transmitted addr : UInt32) → UInt32 × List DmaWrite × List (Buffer UInt8)
  | [], transmitted, _ => (transmitted, [], [])
  | b :: q, transmitted, addr =>
    if transmitted < toTransmit then
      let len := UInt32.ofNat b.dat.length
      let chunkSz := if toTransmit < len + transmitted then toTransmit - transmitted else len
      let chunk := d.dmaChunk addr chunkSz b.dat
      let more := dmaLoop toTransmit q (transmitted + chunkSz) chunk.2
      (more.1, chunk.1 ++ more.2.1, more.2.2)
    else (transmitted, [], b :: q)

def completeDma : List DmaWrite × Drive :=
  let result := d.dmaLoop d.dmaLen d.bufq 0 d.dmaStartAddr
  (result.2.1, { d with bufq := result.2.2, gdlend := result.1, dmaStart := 0 })

def startDma : List DmaWrite × Drive :=
  let done :=
    if d.dmaStart ≠ 0 then
      ({ d with stat := { d.stat with drq := false, bsy := true } } : Drive).completeDma
    else ([], d)
  let d := done.2
  (done.1,
    ({ d with
      state := .dmaReading
      stat := { d.stat with check := false } } : Drive).clearError.delayedProcessing)

/-! ## Packets -/

def stateTransferPioRead (byteCount : Nat) : Drive :=
  ({ d with
    state := .pioReadDelay, byteCount := byteCount
    stat := { d.stat with bsy := true, drq := false, check := false } } : Drive).clearError
    |>.delayedProcessing

def replyPio (dat : List UInt8) : Drive :=
  (d.bufqClear.bufqPush dat).stateTransferPioRead dat.length

def pktBytes (i j k : Nat) : UInt32 :=
  ((d.pktBuf i).toUInt32 <<< 16) ||| ((d.pktBuf j).toUInt32 <<< 8) ||| (d.pktBuf k).toUInt32

def pktLen : Nat := 256 * (d.pktBuf 3).toNat + (d.pktBuf 4).toNat

/-- The sectors that can be read before the first that cannot are put in the queue. -/
def pushSectors : Nat → UInt32 → List (Buffer UInt8) → Bool × List (Buffer UInt8)
  | 0, _, q => (true, q)
  | n + 1, fad, q =>
    match env.readSector fad with
    | none => (false, q)
    | some dat => pushSectors n (fad + 1) (q ++ [⟨0, dat.toList⟩])

def readFailed : Drive :=
  { d with
    error := { d.error with senseKey := 5 }
    stat := { d.stat with check := true }
    state := .norm }

/-- The queue is new. What follows the loop over the sectors depends on its outcome; a DMA transfer
waits for `SB_GDST`. -/
def readOutcome (transLen : Nat) (outcome : Bool × List (Buffer UInt8)) : Drive :=
  let d := { d with bufq := outcome.2, dataByteCount := 0 }
  if !outcome.1 then d.readFailed
  else if d.feat.dmaEnable then d
  else d.stateTransferPioRead (cdromFrameDataSize * transLen % 2 ^ 32)

def inputReadPacket : Except Fault Drive :=
  let startAddr := d.pktBytes 2 3 4
  let transLen := (d.pktBytes 8 9 10).toNat
  if d.pktBuf 1 >>> 4 ≠ 2 then .error .unimplemented
  else if d.pktBuf 1 &&& 1 ≠ 0 then .error .unimplemented
  else .ok (d.readOutcome transLen (pushSectors env transLen startAddr []))

def commandDone : Drive :=
  { d with
    intReason := ⟨true, true⟩
    stat := { d.stat with drdy := true, bsy := false, drq := false } }

def inputTestUnitPacket : Drive :=
  let d := ({ d.commandDone.delayedProcessing with state := .norm } : Drive).clearError
  if env.disc.isSome then { d with stat := { d.stat with check := false } }
  else
    { d with
      stat := { d.stat with check := true }
      error := { d.error with senseKey := 2 }
      additionalSense := .noDisc }

def inputReqStatPacket : Drive := ({ d with state := .norm } : Drive).delayedProcessing

def inputReqErrorPacket : Drive :=
  let reply := [0xf0, 0, UInt8.ofNat (d.error.senseKey % 16), 0, 0, 0, 0, 0,
    d.additionalSense.code, 0]
  let len := min (d.pktBuf 4).toNat 10
  if len ≠ 0 then d.replyPio (reply.take len) else d.bufqClear.stateTransferPioRead 0

def inputStartDiskPacket : Drive :=
  let d := { d.commandDone with state := .norm }
  ({ d with stat := { d.stat with check := false } } : Drive).clearError.delayedProcessing

def inputPacket71 : Drive := d.replyPio env.pkt71Resp.toList

def inputSetModePacket : Except Fault Drive :=
  let d := { d with setModeBytesRemaining := d.dataByteCount }
  if d.feat.dmaEnable then .error .unimplemented
  else
    .ok ({ d with
      intReason := ⟨false, true⟩
      stat := { d.stat with drq := true }
      state := .setMode } : Drive).delayedProcessing

def inputReqModePacket : Drive :=
  let startingAddr := (d.pktBuf 2).toNat
  let len := (d.pktBuf 4).toNat
  if len ≠ 0 then
    let firstIdx := min startingAddr 31
    let lastIdx := min (startingAddr + (len - 1)) 31
    d.replyPio ((env.reqModeResp.toList.drop firstIdx).take (lastIdx - firstIdx + 1))
  else d.bufqClear.stateTransferPioRead 0

def inputReadTocPacket : Except Fault Drive :=
  let session := (d.pktBuf 1) &&& 1
  match env.disc with
  | none => .error .integrity
  | some disc =>
    .ok (d.replyPio ((disc.toc (session != 0)).toList.take (min d.pktLen cdromTocSize)))

def inputReadSubcodePacket : Except Fault Drive :=
  if bufqLen < d.pktLen then .error .overflow else .ok (d.replyPio (List.replicate d.pktLen 0))

def inputSeekPacket : Except Fault Drive :=
  if (d.pktBuf 1) &&& 0xf = 4 then .ok d.delayedProcessing else .error .unimplemented

def inputPlayPacket : Drive := d.delayedProcessing

def inputPktCmd : PktCmd → Except Fault Drive
  | .testUnit => .ok (d.inputTestUnitPacket env)
  | .reqStat => .ok d.inputReqStatPacket
  | .reqMode => .ok (d.inputReqModePacket env)
  | .setMode => d.inputSetModePacket
  | .reqError => .ok d.inputReqErrorPacket
  | .readToc => d.inputReadTocPacket env
  | .read => d.inputReadPacket env
  | .play => .ok d.inputPlayPacket
  | .seek => d.inputSeekPacket
  | .subcode => d.inputReadSubcodePacket
  | .startDisk => .ok d.inputStartDiskPacket
  | .unknown71 => .ok (d.inputPacket71 env)

/-- The status when all twelve bytes of a packet have been received. -/
def received : Drive := { d with stat := { d.stat with drq := false, bsy := false } }

def inputPacket : Except Fault Drive :=
  match PktCmd.ofByte (d.pktBuf 0) with
  | some cmd => d.received.inputPktCmd env cmd
  | none => .error .unimplemented

/-! ## Commands -/

def cmdSetFeatures : Drive :=
  if d.feat.setFeatEnable then
    let d := { d with
      transModeVals := Function.update d.transModeVals d.sectCnt.transMode d.sectCnt.modeVal
      stat := { d.stat with check := false } }
    let d := d.clearError
    ({ d with intReason := { d.intReason with cod := true } } : Drive).delayedProcessing
  else d

def cmdIdentify : Drive :=
  let d := { d with state := .norm, stat := { d.stat with bsy := false, drq := true } }
  let d := d.delayedProcessing.bufqClear
  let d := { d with dataByteCount := env.identResp.size }.bufqPush env.identResp.toList
  ({ d with stat := { d.stat with check := false } } : Drive).clearError

def cmdBeginPacket : Drive :=
  { d with
    stat := { d.stat with check := false, drq := true }
    intReason := ⟨true, false⟩
    nBytesReceived := 0
    state := .inputPkt }

def inputCmd (cmd : Nat) : Except Fault Drive :=
  match AtaCmd.ofWord cmd with
  | some .pkt => .ok d.cmdBeginPacket
  | some .setFeat => .ok d.cmdSetFeatures
  | some .identify => .ok (d.cmdIdentify env)
  | some .nop => .ok d
  | none => .error .unimplemented

/-! ## The data register -/

/-- The loop of `gdrom_read_data`. -/
def readBytes : Nat → Drive → List UInt8 × Drive
  | 0, d => ([], d)
  | n + 1, d =>
    let taken := d.bufqConsumeByte
    let byte := if d.bytesRead < d.dataByteCount then taken.1.getD 0 else 0
    let more := readBytes n { taken.2 with bytesRead := d.bytesRead + 1 }
    (byte :: more.1, more.2)

def phaseDone : Drive :=
  if d.byteCount = 0 then
    ({ d with
      stat := { d.stat with drq := false, bsy := false, drdy := true }
      intReason := ⟨true, true⟩
      state := .norm } : Drive).delayedProcessing
  else
    ({ d with
      stat := { d.stat with drq := false, bsy := true }
      state := .pioReadDelay } : Drive).delayedProcessing

def readData (nBytes : Nat) : Except Fault (List UInt8 × Drive) :=
  if d.state ≠ .pioReading then .ok (List.replicate nBytes 0, d)
  else
    let read := readBytes nBytes d
    let d := read.2
    if d.bytesRead = d.dataByteCount then .ok (read.1, d.phaseDone)
    else if d.dataByteCount < d.bytesRead then .error .unimplemented
    else .ok (read.1, d)

/-- `dat` has at most four bytes. -/
def writeData (nBytes dat : Nat) : Except Fault Drive :=
  match d.state with
  | .inputPkt =>
    let pktBuf := Function.update (Function.update d.pktBuf d.nBytesReceived (UInt8.ofNat dat))
      (d.nBytesReceived + 1) (UInt8.ofNat (dat / 256))
    let d := { d with pktBuf := pktBuf, nBytesReceived := d.nBytesReceived + 2 }
    if 12 ≤ d.nBytesReceived then inputPacket env { d with nBytesReceived := 0 } else .ok d
  | .setMode =>
    let d := { d with setModeBytesRemaining := d.setModeBytesRemaining - nBytes }
    if d.setModeBytesRemaining ≤ 0 then
      .ok ({ d with stat := { d.stat with drq := false }, state := .norm } : Drive).delayedProcessing
    else .ok d
  | _ => .ok d

/-! ## Registers -/

def getErrorReg : Nat :=
  16 * (d.error.senseKey % 16) + 8 * d.error.mcr.toNat + 4 * d.error.abrt.toNat +
    2 * d.error.eomf.toNat + d.error.ili.toNat

def getIntReasonReg : Nat := 2 * d.intReason.io.toNat + d.intReason.cod.toNat

def getStatusReg : Nat :=
  128 * d.stat.bsy.toNat + 64 * d.stat.drdy.toNat + 32 * d.stat.df.toNat + 16 * d.stat.dsc.toNat +
    8 * d.stat.drq.toNat + 4 * d.stat.corr.toNat + d.stat.check.toNat

def setFeaturesReg (val : Nat) : Drive :=
  { d with feat := ⟨val % 2 = 1, val % 128 = 3⟩ }

def setDevCtrlReg (val : Nat) : Drive :=
  { d with devCtrl := ⟨val.testBit 1, val.testBit 2⟩ }

/-- The transfer mode that a value of the sector count register selects. -/
def transModeOf (val : Nat) : Option TransMode :=
  if val &&& 0xfe = 0x00 then some .pioDflt
  else if val &&& 0xf8 = 0x08 then some .pioFlowCtrl
  else if val &&& 0xf8 = 0x10 then some .singleWordDma
  else if val &&& 0xf8 = 0x20 then some .multiWordDma
  else if val &&& 0xf8 = 0x18 then some .pseudoDma
  else none

def setSectCntReg (val : Nat) : Except Fault Drive :=
  match transModeOf val with
  | some mode => .ok { d with sectCnt := ⟨mode, val % 16⟩ }
  | none => .error .unimplemented

def word (r : AtaReg) : Nat := load d.regs (4 * r.idx) 4

def setWord (r : AtaReg) (val : Nat) : Drive := { d with regs := store d.regs (4 * r.idx) 4 val }

def storeBytes (mem : Memory) (a : Nat) (dat : List UInt8) : Memory := fun x =>
  if a ≤ x ∧ x < a + dat.length then dat.getD (x - a) 0 else mem x

/-- Reading the byte count is an error if it has more than sixteen bits. -/
def readByteCnt (r : AtaReg) (val : Nat) : Except Fault Drive :=
  if d.dataByteCount < 2 ^ 16 then .ok (d.setWord r val) else .error .unimplemented

def preRead (idx nBytes : Nat) : Except Fault Drive :=
  match AtaReg.ofIdx idx with
  | some .rwData => do
    let (dat, d) ← (d.setWord .rwData 0).readData nBytes
    .ok { d with regs := storeBytes d.regs (4 * AtaReg.rwData.idx) dat }
  | some .feat => .ok (d.setWord .feat d.getErrorReg)
  | some .intReason => .ok (d.setWord .intReason d.getIntReasonReg)
  | some .secNum => .ok (d.setWord .secNum (if env.disc.isSome then 0x81 else 0x07))
  | some .byteCntLo => d.readByteCnt .byteCntLo (d.dataByteCount % 256)
  | some .byteCntHi => d.readByteCnt .byteCntHi (d.dataByteCount / 256 % 256)
  | some .driveSel => .ok (d.setWord .driveSel d.driveSel.toNat)
  | some .status => .ok ({ d with extInt := false }.setWord .status d.getStatusReg)
  | some .altStatus => .ok (d.setWord .altStatus d.getStatusReg)
  | none => .error .unimplemented

def postWrite (idx nBytes : Nat) : Except Fault Drive :=
  match AtaReg.ofIdx idx with
  | some .rwData =>
    let n := min nBytes 4
    d.writeData env n (load d.regs (4 * AtaReg.rwData.idx) n)
  | some .feat => .ok (d.setFeaturesReg (d.word .feat))
  | some .intReason => d.setSectCntReg (d.word .intReason)
  | some .byteCntLo =>
    .ok { d with dataByteCount := (d.dataByteCount &&& 0xffffff00) ||| d.word .byteCntLo % 256 }
  | some .byteCntHi =>
    .ok { d with
      dataByteCount := (d.dataByteCount &&& 0xffff00ff) ||| 256 * (d.word .byteCntHi % 256) }
  | some .driveSel => .ok { d with driveSel := UInt32.ofNat (d.word .driveSel) }
  | some .status => d.inputCmd env (d.word .status)
  | some .altStatus => .ok (d.setDevCtrlReg (d.word .altStatus))
  | some .secNum | none => .ok d

/-- `gdrom_check_addr`. Offsets are counted from the first register. -/
def inRange (offs nBytes : Nat) : Bool := offs < 0x100 && offs + nBytes ≤ 0x100

/-- `gdrom_reg_read_8` and its siblings for other widths. -/
def regRead (offs nBytes : Nat) : Except Fault (List UInt8 × Drive) :=
  if inRange offs nBytes then
    (d.preRead env (offs / 4) nBytes).map fun d => ((List.range nBytes).map (d.regs <| offs + ·), d)
  else .error .outOfBounds

/-- `gdrom_reg_write_8` and its siblings for other widths. -/
def regWrite (offs : Nat) (dat : List UInt8) : Except Fault Drive :=
  if inRange offs dat.length then
    postWrite env { d with regs := storeBytes d.regs offs dat } (offs / 4) dat.length
  else .error .outOfBounds

def dmaRegWrite (val : UInt32) : DmaReg → List DmaWrite × Drive
  | .gdapro =>
    ([], if val &&& 0xffff0000 = 0x88430000 then { d with gdapro := val } else d)
  | .gdstar => ([], { d with dmaStartAddr := val &&& 0x1fffffff })
  | .gdlen => ([], { d with dmaLen := val })
  | .gdst => ({ d with dmaStart := val } : Drive).startDma

end Drive

end Gdrom
