import WashingtonDC.TextRing
import WashingtonDC.WhileLoop

/-!
# The serial port

`sh4_scif.c` with its two rings. The serial server runs in a thread of its own: it may use the rings
before every ring operation of the emulator, also inside of a loop of a register handler. A ring
operation is one step here, as the ring is a queue under every interleaving of its smaller steps. A
handler comes with the server's operations before each of its own ring operations.

The events that raise the interrupts are kept only as far as `sh4_scif.c` knows of them, that is
whether they are scheduled. A handler that finds a reset of the receive queue requested is not
modelled, and a run stops there.
-/
namespace Sh4.Scif

open WhileLoop

def scifBufLen : Nat := 16

/-- A buffer of `SCIF_BUF_LEN` characters of which the first `len` are used. -/
structure CharBuf where
  buf : Nat → UInt8
  len : Nat

namespace CharBuf

variable (b : CharBuf)

def put (c : UInt8) : CharBuf := ⟨Function.update b.buf b.len c, b.len + 1⟩

/-- The `memmove` by one character, which drops the first. -/
def shift : CharBuf :=
  ⟨fun i => if i < scifBufLen - 1 then b.buf (i + 1) else b.buf i, b.len - 1⟩

def contents : List UInt8 := (List.range b.len).map b.buf

end CharBuf

structure Port where
  txq : TextRing UInt8 10
  rxq : TextRing UInt8 10
  txBuf : CharBuf
  rxBuf : CharBuf
  tendRead : Bool
  drRead : Bool
  tdfeRead : Bool
  rdfRead : Bool
  serSrvConnected : Bool
  scscr2 : UInt32
  scfsr2 : UInt32
  scfcr2 : UInt32
  rxiIntEventScheduled : Bool
  txiIntEventScheduled : Bool

/-! ## Registers -/

def scscr2TieMask : UInt32 := 0x80
def scscr2RieMask : UInt32 := 0x40
def scfsr2TendMask : UInt32 := 0x40
def scfsr2TdfeMask : UInt32 := 0x20
def scfsr2RdfMask : UInt32 := 0x2
def scfsr2DrMask : UInt32 := 0x1
def scfcr2RfrstMask : UInt32 := 0x2

namespace Port

variable (p : Port)

def txInterruptEnabled : Bool := p.scscr2 &&& scscr2TieMask != 0

def rxInterruptEnabled : Bool := p.scscr2 &&& scscr2RieMask != 0

def txFifoTrigger : Nat :=
  match (p.scfcr2 >>> 4 &&& 3).toNat with
  | 0 => 8
  | 1 => 4
  | 2 => 2
  | _ => 1

def rxFifoTrigger : Nat :=
  match (p.scfcr2 >>> 6 &&& 3).toNat with
  | 0 => 1
  | 1 => 4
  | 2 => 8
  | _ => 14

/-- `check_rx_trig` after it has filled the buffer. -/
def rxTrig : Port :=
  if p.rxFifoTrigger ≤ p.rxBuf.len then
    { p with scfsr2 := p.scfsr2 ||| scfsr2RdfMask,
             rxiIntEventScheduled := p.rxInterruptEnabled || p.rxiIntEventScheduled }
  else p

def checkTxTrig : Port :=
  if p.txBuf.len ≤ p.txFifoTrigger then
    { p with scfsr2 := p.scfsr2 ||| scfsr2TdfeMask,
             txiIntEventScheduled := p.txInterruptEnabled || p.txiIntEventScheduled }
  else p

def scfdr2RegRead : UInt32 :=
  UInt32.ofNat (min p.rxBuf.len 16) ||| UInt32.ofNat (min p.txBuf.len 16) <<< 8

def scfsr2RegRead : UInt32 × Port :=
  (p.scfsr2,
    { p with tendRead := p.tendRead || p.scfsr2 &&& scfsr2TendMask != 0,
             drRead := p.drRead || p.scfsr2 &&& scfsr2DrMask != 0,
             tdfeRead := p.tdfeRead || p.scfsr2 &&& scfsr2TdfeMask != 0,
             rdfRead := p.rdfRead || p.scfsr2 &&& scfsr2RdfMask != 0 })

/-- A flag that a write clears after it was read is set again if its condition still holds. -/
def restore (mask : UInt32) (seen still : Bool) (val : UInt32) : UInt32 :=
  if val &&& mask = 0 ∧ p.scfsr2 &&& mask ≠ 0 ∧ seen ∧ still then val ||| mask else val

/-- `sh4_scfsr2_reg_write_handler` after it has filled the buffer; the register has 16 bits. -/
def scfsr2Write (val : UInt32) : Port :=
  let newVal := val &&& 0xffff
  let newVal := p.restore scfsr2TendMask p.tendRead (p.txBuf.len == 0) newVal
  let newVal := p.restore scfsr2DrMask p.drRead (p.rxBuf.len < p.rxFifoTrigger) newVal
  let newVal := p.restore scfsr2TdfeMask p.tdfeRead (p.txBuf.len ≤ p.txFifoTrigger) newVal
  let newVal := p.restore scfsr2RdfMask p.rdfRead (p.rxFifoTrigger ≤ p.rxBuf.len) newVal
  { p with scfsr2 := newVal }

/-- The end of `sh4_scif_periodic`. -/
def periodicFlags : Port :=
  let p := if p.txBuf.len = 0 then { p with scfsr2 := p.scfsr2 ||| scfsr2TendMask } else p
  if p.rxFifoTrigger ≤ p.rxBuf.len then { p with scfsr2 := p.scfsr2 &&& ~~~scfsr2DrMask } else p

end Port

/-! ## The serial server -/

inductive ServerAct
  | rx (ch : UInt8)
  | tx

/-- The port, the server's operations before each of the next ring operations, the characters that
`rxq` accepted, the characters that the server took from `txq`, and how often a character was sent
to `txq` while it was full. -/
structure World where
  port : Port
  sched : List (List ServerAct)
  received : List UInt8
  taken : List UInt8
  drops : Nat

namespace World

variable (w : World)

def server : ServerAct → World
  | .rx ch =>
    match w.port.rxq.produce ch with
    | (true, rxq) =>
      { w with port := { w.port with rxq := rxq }, received := w.received ++ [ch] }
    | (false, _) => w
  | .tx =>
    match w.port.txq.consume with
    | (some ch, txq) => { w with port := { w.port with txq := txq }, taken := w.taken ++ [ch] }
    | (none, _) => w

def interfere : World :=
  match w.sched with
  | [] => w
  | acts :: sched => acts.foldl server { w with sched := sched }

/-! ## Buffers and rings -/

def recvChar : Bool × World :=
  if scifBufLen ≤ w.port.rxBuf.len then (false, w)
  else
    let w := w.interfere
    match w.port.rxq.consume with
    | (some ch, rxq) =>
      (true, { w with port := { w.port with rxq := rxq, rxBuf := w.port.rxBuf.put ch } })
    | (none, _) => (false, w)

/-- The result of `text_ring_produce` is not looked at. -/
def sendChar : Bool × World :=
  if w.port.txBuf.len = 0 then (false, w)
  else
    let w := w.interfere
    let txq := (w.port.txq.produce (w.port.txBuf.buf 0)).2
    (true, { w with port := { w.port with txq := txq, txBuf := w.port.txBuf.shift },
                    drops := if w.port.txq.Full then w.drops + 1 else w.drops })

def fillRxBuf : World := whileTrue recvChar (scifBufLen + 1) w

def drainTxBuf : World := whileTrue sendChar (w.port.txBuf.len + 1) w

def readChar : Option UInt8 × World :=
  let w := w.fillRxBuf
  if 0 < w.port.rxBuf.len then
    (some (w.port.rxBuf.buf 0),
      fillRxBuf { w with port := { w.port with rxBuf := w.port.rxBuf.shift } })
  else (none, w)

def writeChar (c : UInt8) : Bool × World :=
  let w := w.drainTxBuf
  if w.port.txBuf.len < scifBufLen then
    (true, drainTxBuf { w with port := { w.port with txBuf := w.port.txBuf.put c } })
  else (false, w)

def onPort (f : Port → Port) : World := { w with port := f w.port }

/-! ## Register handlers -/

def checkRxTrig : World := w.fillRxBuf.onPort Port.rxTrig

/-- A C `char` is signed; the register has eight bits. -/
def signExtend (c : UInt8) : UInt32 := c.toInt8.toInt32.toUInt32

def scfrdr2RegRead : Option UInt8 × World :=
  match w.readChar with
  | (some val, w) =>
    (some val, w.onPort fun p =>
      if p.rxFifoTrigger ≤ p.rxBuf.len then
        { p with scfsr2 := p.scfsr2 ||| scfsr2DrMask, drRead := false }
      else p)
  | (none, w) => (none, w)

def scftdr2RegWrite (val : UInt32) : Bool × World :=
  if w.port.serSrvConnected then w.writeChar val.toUInt8 else (false, w)

def rxReset : Option World :=
  if w.port.scfcr2 &&& scfcr2RfrstMask = 0 then some w else none

def scfcr2RegWrite (val : UInt32) : Option World :=
  (((w.onPort fun p => { p with scfcr2 := val }).checkRxTrig).onPort Port.checkTxTrig).rxReset

def scscr2RegWrite (val : UInt32) : World :=
  ((w.onPort fun p => { p with scscr2 := val }).checkRxTrig).onPort Port.checkTxTrig

def scfsr2RegWrite (val : UInt32) : World := w.fillRxBuf.onPort fun p => p.scfsr2Write val

def periodic : Option World :=
  w.fillRxBuf.drainTxBuf.rxReset.map fun w =>
    (w.checkRxTrig.onPort Port.checkTxTrig).onPort Port.periodicFlags

end World

/-! ## Runs -/

inductive Handler
  | connectServer
  | readScfrdr2
  | writeScftdr2 (val : UInt32)
  | readScfdr2
  | readScfsr2
  | writeScfsr2 (val : UInt32)
  | writeScscr2 (val : UInt32)
  | writeScfcr2 (val : UInt32)
  | periodic
  | rxiInt
  | txiInt

inductive Action
  | server (act : ServerAct)
  | guest (handler : Handler) (sched : List (List ServerAct))

/-- The characters that the guest read while there were any, and those for which `write_char`
returned true. -/
structure Session where
  world : World
  read : List UInt8
  written : List UInt8

structure Moved where
  action : Action
  before : Session
  val : UInt32
  after : Session

namespace Session

variable (s : Session)

def onPort (f : Port → Port) : Session := { s with world := s.world.onPort f }

def handle : Handler → Option (UInt32 × Session)
  | .connectServer => some (0, s.onPort fun p => { p with serSrvConnected := true })
  | .readScfrdr2 =>
    match s.world.scfrdr2RegRead with
    | (some c, w) => some (World.signExtend c, { s with world := w, read := s.read ++ [c] })
    | (none, w) => some (0, { s with world := w })
  | .writeScftdr2 val =>
    match s.world.scftdr2RegWrite val with
    | (true, w) => some (0, { s with world := w, written := s.written ++ [val.toUInt8] })
    | (false, w) => some (0, { s with world := w })
  | .readScfdr2 => some (s.world.port.scfdr2RegRead, s)
  | .readScfsr2 => some (s.world.port.scfsr2, s.onPort fun p => p.scfsr2RegRead.2)
  | .writeScfsr2 val => some (0, { s with world := s.world.scfsr2RegWrite val })
  | .writeScscr2 val => some (0, { s with world := s.world.scscr2RegWrite val })
  | .writeScfcr2 val => (s.world.scfcr2RegWrite val).map fun w => (0, { s with world := w })
  | .periodic => s.world.periodic.map fun w => (0, { s with world := w })
  | .rxiInt => some (0, s.onPort fun p => { p with rxiIntEventScheduled := false })
  | .txiInt => some (0, s.onPort fun p => { p with txiIntEventScheduled := false })

def act : Action → Option (UInt32 × Session)
  | .server act => some (0, { s with world := s.world.server act })
  | .guest handler sched => handle { s with world := { s.world with sched := sched } } handler

def step (a : Action) : Option (Moved × Session) :=
  (s.act a).map fun r => (⟨a, s, r.1, r.2⟩, r.2)

/-- `sh4_scif_init`, with the registers at reset. -/
def init : Session :=
  let ring : TextRing UInt8 10 :=
    TextRing.init ⟨⟨0, Nat.two_pow_pos 10⟩, ⟨0, Nat.two_pow_pos 10⟩, fun _ => 0⟩
  let port : Port := ⟨ring, ring, ⟨fun _ => 0, 0⟩, ⟨fun _ => 0, 0⟩, false, false, false, false, false,
    0, 0x60, 0, false, false⟩
  ⟨⟨port, [], [], [], 0⟩, [], []⟩

end Session

def trace (actions : List Action) : List Moved := (Lockstep.run Session.step Session.init actions).1

end Sh4.Scif
