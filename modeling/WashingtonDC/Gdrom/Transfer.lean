import WashingtonDC.Gdrom.Drive

/-!
# Reading sectors through the data register

A READ packet without DMA puts the sectors in the queue and the drive then offers them in phases,
each of which starts with the event and ends when the host has read as many bytes as were
advertised. The host may read them one or two at a time. All bytes arrive if the number of bytes
fits in the 32 bits in which the source computes it.

The host here reads nothing but the advertised bytes and always waits for the event. Nothing is
said about a host that issues another command during a transfer.
-/
namespace Gdrom

open BufferQueue ByteMemory List UInt32

/-! ## The host -/

/-- How a host divides the bytes of a phase into reads. It may decide anew in each phase. -/
structure Mix where
  sizes : (phase advertised : Nat) → List Nat
  widths : ∀ k n, ∀ w ∈ sizes k n, w = 1 ∨ w = 2
  exact : ∀ k n, (sizes k n).sum = n

/-- What was advertised and read in a phase. -/
structure Phase where
  advertised : Nat
  data : List UInt8

namespace Drive

variable (env : Env)

abbrev dataOffs : Nat := 0x80

def readSizes : List Nat → Drive → Except Fault (List UInt8 × Drive)
  | [], d => .ok ([], d)
  | n :: ns, d => do
    let (dat, d) ← d.regRead env dataOffs n
    let (more, d) ← readSizes ns d
    .ok (dat ++ more, d)

/-- The host waits for the event and reads, until no data is offered. -/
def phases (mix : Mix) : (fuel phase : Nat) → Drive → Option (List Phase × Drive)
  | 0, _, _ => none
  | fuel + 1, k, d => do
    let d ← d.postDelayGdromDelayedProcessing.toOption
    if d.stat.drq then
      let (dat, d') ← (readSizes env (mix.sizes k d.dataByteCount) d).toOption
      let (ps, d') ← phases mix fuel (k + 1) d'
      some (⟨d.dataByteCount, dat⟩ :: ps, d')
    else some ([], d)

def hostTransfer (mix : Mix) (d : Drive) : Option (List Phase × Drive) :=
  phases env mix (d.byteCount + 1) 0 d

end Drive

def contents (env : Env) : Nat → UInt32 → List UInt8
  | 0, _ => []
  | n + 1, fad => ((env.readSector fad).elim [] Vector.toList) ++ contents env n (fad + 1)

def Readable (env : Env) (n : Nat) (fad : UInt32) : Prop :=
  ∀ i < n, (env.readSector (fad + ofNat i)).isSome = true

/-- Whatever the host does, it gets the bytes, in phases of a sensible size, and leaves the drive
idle. -/
def Delivers (env : Env) (d : Drive) (bytes : List UInt8) : Prop :=
  ∀ mix, ∃ ps d', d.hostTransfer env mix = some (ps, d') ∧ ps.flatMap Phase.data = bytes ∧
    (∀ p ∈ ps, 1 ≤ p.advertised ∧ p.advertised ≤ 0x8000) ∧
    d'.state = .norm ∧ d'.stat.drq = false ∧ d'.bufq = []

variable {n : Nat} {fad : UInt32}

theorem readable_succ {env : Env} :
    Readable env (n + 1) fad ↔ ∃ dat, env.readSector fad = some dat ∧ Readable env n (fad + 1) := by
  have hnext : ∀ i, fad + ofNat (i + 1) = fad + 1 + ofNat i := by
    intro i
    rw [ofNat_add, UInt32.add_comm (ofNat i), ← UInt32.add_assoc]
    rfl
  have hfirst : fad + ofNat 0 = fad := UInt32.add_zero fad
  constructor
  · intro readable
    have hsome := readable 0 (Nat.succ_pos n)
    rw [hfirst] at hsome
    obtain ⟨dat, hdat⟩ := Option.isSome_iff_exists.mp hsome
    refine ⟨dat, hdat, fun i hi => ?_⟩
    rw [← hnext]
    exact readable (i + 1) (Nat.succ_lt_succ hi)
  · rintro ⟨dat, hdat, hrest⟩ (_ | i) hi
    · rw [hfirst, hdat]
      rfl
    · rw [hnext]
      exact hrest i (Nat.lt_of_succ_lt_succ hi)

theorem length_contents {env : Env} (readable : Readable env n fad) :
    (contents env n fad).length = cdromFrameDataSize * n := by
  induction n generalizing fad with
  | zero => rfl
  | succ n ih =>
    obtain ⟨dat, hdat, hrest⟩ := readable_succ.mp readable
    rw [contents, hdat, length_append, ih hrest]
    rw [Option.elim_some, Vector.length_toList, Nat.mul_succ, add_comm]

namespace Drive

variable {env : Env} {d : Drive}

/-! ## One phase -/

/-- `left` bytes of a phase have not been read, `b` bytes are to follow in later phases. -/
structure Reading (d : Drive) (left b : Nat) (bytes : List UInt8) : Prop where
  state : d.state = .pioReading
  count : d.bytesRead + left = d.dataByteCount
  byteCount : d.byteCount = b
  solid : Solid d.bufq
  rest : rest d.bufq = bytes

/-- `b` bytes are to follow, after the event. -/
structure Waiting (d : Drive) (b : Nat) (bytes : List UInt8) : Prop where
  state : d.state = .pioReadDelay ∧ d.byteCount = b ∨ d.state = .norm ∧ d.stat.drq = false ∧ b = 0
  solid : Solid d.bufq
  rest : rest d.bufq = bytes

variable {left b : Nat} {xs ys : List UInt8}

theorem Reading.readBytes (reading : d.Reading left b (xs ++ ys)) (le : xs.length ≤ left) :
    ∃ q, Drive.readBytes xs.length d =
        (xs, { d with bufq := q, bytesRead := d.bytesRead + xs.length }) ∧
      Solid q ∧ BufferQueue.rest q = ys := by
  induction xs generalizing d left with
  | nil => exact ⟨d.bufq, rfl, reading.solid, reading.rest⟩
  | cons x xs ih =>
    obtain ⟨q, hconsume, hrest, hsolid⟩ := reading.solid.consume reading.rest
    have hlt : d.bytesRead < d.dataByteCount := by
      have hcount := reading.count
      rw [length_cons] at le
      omega
    have hnext : ({ d with bufq := q, bytesRead := d.bytesRead + 1 } : Drive).Reading (left - 1) b
        (xs ++ ys) := by
      refine ⟨reading.state, ?_, reading.byteCount, hsolid, hrest⟩
      have hcount := reading.count
      rw [length_cons] at le
      dsimp only
      omega
    obtain ⟨q', hread, hsolid', hrest'⟩ := ih hnext (by rw [length_cons] at le; omega)
    refine ⟨q', ?_, hsolid', hrest'⟩
    simp only [length_cons, Drive.readBytes, bufqConsumeByte, hconsume, hread, if_pos hlt,
      Option.getD_some, add_assoc, add_comm 1]

theorem Reading.readData (reading : d.Reading left b (xs ++ ys)) (le : xs.length ≤ left) :
    ∃ d', d.readData xs.length = .ok (xs, d') ∧
      (xs.length < left → d'.Reading (left - xs.length) b ys) ∧
      (xs.length = left → d'.Waiting b ys) := by
  obtain ⟨q, hread, hsolid, hrest⟩ := reading.readBytes le
  have hcount := reading.count
  unfold Drive.readData
  rw [if_neg (by rw [reading.state]; decide)]
  simp only [hread]
  by_cases hlast : xs.length = left
  · rw [if_pos (by omega)]
    refine ⟨_, rfl, fun h => absurd hlast (by omega), fun _ => ?_⟩
    unfold phaseDone
    split
    · rename_i hzero
      exact ⟨.inr ⟨rfl, rfl, by rw [← reading.byteCount]; exact hzero⟩, hsolid, hrest⟩
    · exact ⟨.inl ⟨rfl, reading.byteCount⟩, hsolid, hrest⟩
  · rw [if_neg (by omega), if_neg (by omega)]
    refine ⟨_, rfl, fun _ => ?_, fun h => absurd h hlast⟩
    exact ⟨reading.state, by dsimp only; omega, reading.byteCount, hsolid, hrest⟩

theorem map_storeBytes (mem : Memory) (a : Nat) (dat : List UInt8) :
    (range dat.length).map (fun i => storeBytes mem a dat (a + i)) = dat := by
  apply ext_getElem
  · simp
  · intro i hi hi'
    simp [storeBytes, hi']

theorem Reading.regRead (reading : d.Reading left b (xs ++ ys)) (env : Env) (le : xs.length ≤ left)
    (width : xs.length ≤ 4) :
    ∃ d', d.regRead env dataOffs xs.length = .ok (xs, d') ∧
      (xs.length < left → d'.Reading (left - xs.length) b ys) ∧
      (xs.length = left → d'.Waiting b ys) := by
  have hcleared : (d.setWord .rwData 0).Reading left b (xs ++ ys) :=
    ⟨reading.state, reading.count, reading.byteCount, reading.solid, reading.rest⟩
  obtain ⟨d', hread, hmore, hlast⟩ := hcleared.readData le
  refine ⟨{ d' with regs := storeBytes d'.regs (4 * AtaReg.rwData.idx) xs }, ?_, fun h => ?_,
    fun h => ?_⟩
  · have hrange : inRange dataOffs xs.length = true := by
      simp only [inRange, dataOffs, Bool.and_eq_true, decide_eq_true_eq]
      omega
    have hpre : d.preRead env (dataOffs / 4) xs.length =
        .ok { d' with regs := storeBytes d'.regs (4 * AtaReg.rwData.idx) xs } := by
      change (do let (dat, d) ← (d.setWord .rwData 0).readData xs.length; _) = _
      rw [hread]
      rfl
    rw [Drive.regRead, if_pos hrange, hpre]
    exact congrArg (fun l => Except.ok (l, _)) (map_storeBytes d'.regs dataOffs xs)
  · obtain ⟨h1, h2, h3, h4, h5⟩ := hmore h
    exact ⟨h1, h2, h3, h4, h5⟩
  · obtain ⟨h1, h2, h3⟩ := hlast h
    exact ⟨h1, h2, h3⟩

theorem Reading.readSizes {sizes : List Nat} (reading : d.Reading left b (xs ++ ys)) (env : Env)
    (pos : 0 < left) (all : xs.length = left) (exact : sizes.sum = left)
    (widths : ∀ w ∈ sizes, w = 1 ∨ w = 2) :
    ∃ d', Drive.readSizes env sizes d = .ok (xs, d') ∧ d'.Waiting b ys := by
  induction sizes generalizing d left xs with
  | nil =>
    rw [sum_nil] at exact
    omega
  | cons w ws ih =>
    have hw := widths w mem_cons_self
    rw [sum_cons] at exact
    have hsplit : xs = xs.take w ++ xs.drop w := (take_append_drop w xs).symm
    have hlen : (xs.take w).length = w := by
      rw [length_take]
      omega
    have hreading : d.Reading left b (xs.take w ++ (xs.drop w ++ ys)) := by
      rw [← append_assoc, ← hsplit]
      exact reading
    obtain ⟨d', hread, hmore, hlast⟩ := hreading.regRead env (by omega) (by omega)
    rw [hlen] at hread hmore hlast
    by_cases hend : w = left
    · have hws : ws = [] := by
        cases ws with
        | nil => rfl
        | cons w' ws =>
          have hw' := widths w' (by simp)
          rw [sum_cons] at exact
          omega
      subst hws
      have hdrop : xs.drop w = [] := drop_eq_nil_of_le (by omega)
      have htake : xs.take w = xs := take_of_length_le (by omega)
      rw [htake] at hread
      rw [hdrop, nil_append] at hlast
      refine ⟨d', ?_, hlast hend⟩
      simp only [Drive.readSizes, hread, append_nil, Except.bind, bind]
    · have hmoreLen : (xs.drop w).length = left - w := by
        rw [length_drop]
        omega
      obtain ⟨d'', hrest, hwaiting⟩ := ih (hmore (by omega)) (by omega) hmoreLen (by omega)
        fun w' hw' => widths w' (mem_cons_of_mem w hw')
      refine ⟨d'', ?_, hwaiting⟩
      simp only [Drive.readSizes, hread, hrest, Except.bind, bind, ← hsplit]

/-! ## All phases -/

theorem raiseInt_eq (d : Drive) : ∃ x, d.raiseInt = { d with extInt := x } := by
  unfold raiseInt
  split
  · exact ⟨d.extInt, rfl⟩
  · exact ⟨true, rfl⟩

theorem phaseStatus_eq (d : Drive) :
    ∃ s r, d.phaseStatus = { d with stat := s, intReason := r } ∧ s.drq = d.stat.drq := by
  unfold phaseStatus
  dsimp only
  split
  · exact ⟨_, _, rfl, rfl⟩
  · exact ⟨_, _, rfl, rfl⟩

theorem nextPhase_of_zero (d : Drive) (zero : d.byteCount = 0) :
    d.nextPhase = { d with
      bytesRead := 0, stat := { d.stat with drq := false }, state := .norm, dataByteCount := 0 } := by
  unfold nextPhase
  dsimp only
  rw [if_pos zero]

theorem nextPhase_of_pos (d : Drive) (pos : 0 < d.byteCount) :
    d.nextPhase = { d with
      bytesRead := 0, dataByteCount := min d.byteCount 0x8000
      byteCount := d.byteCount - min d.byteCount 0x8000
      stat := { d.stat with drq := true }, state := .pioReading } := by
  unfold nextPhase
  dsimp only
  rw [if_neg (by omega)]
  split
  · rename_i hbig
    rw [min_eq_right hbig.le]
  · rename_i hsmall
    rw [Nat.min_eq_left (Nat.le_of_not_lt hsmall), Nat.sub_self]

variable {bytes : List UInt8}

theorem Waiting.fire_done (waiting : d.Waiting 0 bytes) :
    ∃ d', d.postDelayGdromDelayedProcessing = .ok d' ∧ d'.stat.drq = false ∧ d'.state = .norm ∧
      Solid d'.bufq ∧ BufferQueue.rest d'.bufq = bytes := by
  rw [postDelayGdromDelayedProcessing]
  obtain ⟨hstate, hcount⟩ | ⟨hstate, hdrq, -⟩ := waiting.state
  · rw [hstate]
    refine ⟨_, rfl, ?_⟩
    obtain ⟨s, r, hstatus, hs⟩ := phaseStatus_eq d.popped.nextPhase
    obtain ⟨x, hraise⟩ := raiseInt_eq d.popped.nextPhase.phaseStatus
    rw [hraise, hstatus]
    rw [nextPhase_of_zero d.popped hcount] at hs ⊢
    exact ⟨hs, rfl, waiting.solid, waiting.rest⟩
  · obtain ⟨x, hraise⟩ := raiseInt_eq d.popped
    rw [hstate]
    refine ⟨_, rfl, ?_⟩
    rw [hraise]
    exact ⟨hdrq, hstate, waiting.solid, waiting.rest⟩

theorem Waiting.fire_phase (waiting : d.Waiting b bytes) (pos : 0 < b) :
    ∃ d', d.postDelayGdromDelayedProcessing = .ok d' ∧ d'.stat.drq = true ∧
      d'.dataByteCount = min b 0x8000 ∧ d'.Reading (min b 0x8000) (b - min b 0x8000) bytes := by
  obtain ⟨hstate, rfl⟩ | ⟨-, -, rfl⟩ := waiting.state
  · rw [postDelayGdromDelayedProcessing, hstate]
    refine ⟨_, rfl, ?_⟩
    obtain ⟨s, r, hstatus, hs⟩ := phaseStatus_eq d.popped.nextPhase
    obtain ⟨x, hraise⟩ := raiseInt_eq d.popped.nextPhase.phaseStatus
    rw [hraise, hstatus]
    rw [nextPhase_of_pos d.popped pos] at hs ⊢
    exact ⟨hs, rfl, rfl, zero_add _, rfl, waiting.solid, waiting.rest⟩
  · cases pos

theorem Waiting.phases {fuel k : Nat} (waiting : d.Waiting b bytes) (le : b ≤ bytes.length)
    (enough : b < fuel) (mix : Mix) :
    ∃ ps d', Drive.phases env mix fuel k d = some (ps, d') ∧ ps.flatMap Phase.data = bytes.take b ∧
      (∀ p ∈ ps, 1 ≤ p.advertised ∧ p.advertised ≤ 0x8000) ∧
      d'.state = .norm ∧ d'.stat.drq = false ∧ Solid d'.bufq ∧
      BufferQueue.rest d'.bufq = bytes.drop b := by
  induction fuel generalizing d b k bytes with
  | zero => omega
  | succ fuel ih =>
    obtain rfl | hpos := Nat.eq_zero_or_pos b
    · obtain ⟨d1, hfire, hdrq, hstate, hsolid, hrest⟩ := waiting.fire_done
      refine ⟨[], d1, ?_, rfl, by simp, hstate, hdrq, hsolid, hrest⟩
      simp [Drive.phases, hfire, Except.toOption, hdrq]
    · obtain ⟨d1, hfire, hdrq, hcount, hreading⟩ := waiting.fire_phase hpos
      generalize hc : min b 0x8000 = c at hcount hreading
      have hsplit : bytes.take c ++ bytes.drop c = bytes := take_append_drop c bytes
      rw [← hsplit] at hreading
      obtain ⟨d2, hread, hwaiting⟩ := hreading.readSizes env (by omega)
        (by rw [length_take]; omega) (mix.exact k c) (mix.widths k c)
      obtain ⟨ps, d3, hphases, hdata, hsizes, hstate, hdrq', hsolid, hrest⟩ :=
        ih (k := k + 1) hwaiting (by rw [length_drop]; omega) (by omega)
      refine ⟨⟨c, bytes.take c⟩ :: ps, d3, ?_, ?_, ?_, hstate, hdrq', hsolid, ?_⟩
      · simp [Drive.phases, hfire, Except.toOption, hdrq, hcount, hread, hphases]
      · rw [flatMap_cons, hdata, ← take_add]
        congr 1
        omega
      · intro p hp
        obtain rfl | hp := mem_cons.mp hp
        · dsimp only
          omega
        · exact hsizes p hp
      · rw [hrest, drop_drop]
        congr 1
        omega

/-! ## The packet -/

theorem pushSectors_eq {q : List (Buffer UInt8)}
    (readable : Readable env n fad) (solid : Solid q) :
    ∃ q', pushSectors env n fad q = (true, q') ∧ Solid q' ∧
      BufferQueue.rest q' = BufferQueue.rest q ++ contents env n fad := by
  induction n generalizing q fad with
  | zero => exact ⟨q, rfl, solid, (append_nil _).symm⟩
  | succ n ih =>
    obtain ⟨dat, hdat, hrest⟩ := readable_succ.mp readable
    have hsolid : Solid (q ++ [⟨0, dat.toList⟩]) := by
      refine solid.append ?_
      intro b hb
      rw [mem_singleton.mp hb]
      simp
    obtain ⟨q', hpush, hq, hbytes⟩ := ih hrest hsolid
    refine ⟨q', ?_, hq, ?_⟩
    · rw [pushSectors, hdat]
      exact hpush
    · rw [hbytes, contents, hdat, rest_append, append_assoc]
      simp [Buffer.rest]

variable (d)

/-- The packet asks for sectors, without DMA and in the only format that is supported. -/
structure IsPioRead : Prop where
  command : d.pktBuf 0 = PktCmd.read.code
  dataSel : d.pktBuf 1 >>> 4 = 2
  paramTp : d.pktBuf 1 &&& 1 = 0
  pio : d.feat.dmaEnable = false

def firstSector : UInt32 := d.pktBytes 2 3 4

def sectorCount : Nat := (d.pktBytes 8 9 10).toNat

variable {d}

theorem IsPioRead.inputPacket (isRead : d.IsPioRead)
    (readable : Readable env d.sectorCount d.firstSector) :
    ∃ d', d.inputPacket env = .ok d' ∧
      d'.byteCount = cdromFrameDataSize * d.sectorCount % 2 ^ 32 ∧
      d'.Waiting (cdromFrameDataSize * d.sectorCount % 2 ^ 32)
        (contents env d.sectorCount d.firstSector) := by
  have hcmd : PktCmd.ofByte (d.pktBuf 0) = some .read := by
    rw [isRead.command]
    decide
  obtain ⟨q, hpush, hsolid, hbytes⟩ := pushSectors_eq readable solid_nil
  have hinput : d.inputPacket env =
      .ok (d.received.readOutcome d.sectorCount (true, q)) := by
    rw [Drive.inputPacket, hcmd, ← hpush]
    exact (if_neg (not_not.mpr isRead.dataSel)).trans (if_neg (not_not.mpr isRead.paramTp))
  have hpio : d.received.readOutcome d.sectorCount (true, q) =
      ({ d.received with bufq := q, dataByteCount := 0 } : Drive).stateTransferPioRead
        (cdromFrameDataSize * d.sectorCount % 2 ^ 32) :=
    if_neg (Bool.eq_false_iff.mp isRead.pio)
  rw [hpio] at hinput
  exact ⟨_, hinput, rfl, .inl ⟨rfl, rfl⟩, hsolid, hbytes⟩

end Drive

/-! ## Whole transfers -/

section
variable {env : Env} {d : Drive}

theorem Drive.Waiting.hostTransfer {bytes : List UInt8} (waiting : d.Waiting d.byteCount bytes)
    (env : Env) (le : d.byteCount ≤ bytes.length) (mix : Mix) :
    ∃ ps d', d.hostTransfer env mix = some (ps, d') ∧
      ps.flatMap Phase.data = bytes.take d.byteCount ∧
      (∀ p ∈ ps, 1 ≤ p.advertised ∧ p.advertised ≤ 0x8000) ∧
      d'.state = .norm ∧ d'.stat.drq = false ∧ Solid d'.bufq ∧
      BufferQueue.rest d'.bufq = bytes.drop d.byteCount :=
  waiting.phases le (Nat.lt_succ_self _) mix

def Mix.single : Mix where
  sizes _ n := replicate n 1
  widths := by
    intro k n w hw
    exact .inl (eq_of_mem_replicate hw)
  exact := by simp

theorem not_delivers_of_short {bytes : List UInt8} (waiting : d.Waiting d.byteCount bytes)
    (short : d.byteCount < bytes.length) : ¬Delivers env d bytes := by
  intro delivers
  obtain ⟨ps, d', htransfer, hdata, -⟩ := delivers .single
  obtain ⟨ps', d'', htransfer', hdata', -⟩ := waiting.hostTransfer env short.le .single
  cases htransfer.symm.trans htransfer'
  have hlength := congrArg length (hdata.symm.trans hdata')
  rw [length_take] at hlength
  omega

/-- A READ packet without DMA for readable sectors delivers them exactly if there are less than
`2 ^ 21` of them. -/
theorem pio_read_delivers_iff (env : Env) (d : Drive) (isRead : d.IsPioRead)
    (readable : Readable env d.sectorCount d.firstSector) :
    (∃ d', d.inputPacket env = .ok d' ∧
      Delivers env d' (contents env d.sectorCount d.firstSector)) ↔ d.sectorCount < 2 ^ 21 := by
  obtain ⟨d', hinput, hcount, hwaiting⟩ := isRead.inputPacket readable
  have hlength := length_contents readable
  rw [← hcount] at hwaiting
  constructor
  · rintro ⟨d'', hinput', hdelivers⟩
    cases hinput.symm.trans hinput'
    by_contra hbig
    refine not_delivers_of_short hwaiting ?_ hdelivers
    rw [hcount, hlength]
    unfold cdromFrameDataSize at *
    omega
  · intro hsmall
    have hall : d'.byteCount = (contents env d.sectorCount d.firstSector).length := by
      rw [hcount, hlength]
      unfold cdromFrameDataSize
      omega
    refine ⟨d', hinput, fun mix => ?_⟩
    obtain ⟨ps, d'', htransfer, hdata, hsizes, hstate, hdrq, hsolid, hrest⟩ :=
      hwaiting.hostTransfer env hall.le mix
    rw [hall, take_length] at hdata
    rw [hall, drop_length] at hrest
    exact ⟨ps, d'', htransfer, hdata, hsizes, hstate, hdrq, hsolid.nil_of_rest hrest⟩

def blankEnv : Env where
  disc := some ⟨fun _ => some (Vector.replicate _ 0), fun _ => Vector.replicate _ 0⟩
  reqModeResp := Vector.replicate _ 0
  pkt71Resp := Vector.replicate _ 0
  identResp := Vector.replicate _ 0

theorem readable_blankEnv (n : Nat) (fad : UInt32) : Readable blankEnv n fad := fun _ _ => rfl

def packetDrive (packet : List UInt8) : Drive :=
  { Drive.init with state := .inputPkt, pktBuf := fun i => packet.getD i 0 }

/-- A READ packet for `65536 * high` sectors. -/
def readDrive (high : UInt8) : Drive := packetDrive [0x30, 0x20, 0, 0, 0, 0, 0, 0, high]

theorem pio_read_delivers_65536 :
    (readDrive 1).sectorCount = 65536 ∧
      ∃ d', (readDrive 1).inputPacket blankEnv = .ok d' ∧
        Delivers blankEnv d' (contents blankEnv (readDrive 1).sectorCount (readDrive 1).firstSector) :=
  ⟨by decide, (pio_read_delivers_iff blankEnv (readDrive 1) ⟨rfl, rfl, rfl, rfl⟩
    (readable_blankEnv _ _)).mpr (by decide)⟩

/-- For `2 ^ 21` sectors the drive counts no bytes at all. -/
theorem pio_read_2097152_fails :
    (readDrive 0x20).sectorCount = 2 ^ 21 ∧
      ¬∃ d', (readDrive 0x20).inputPacket blankEnv = .ok d' ∧
        Delivers blankEnv d'
          (contents blankEnv (readDrive 0x20).sectorCount (readDrive 0x20).firstSector) := by
  refine ⟨by decide, ?_⟩
  rintro ⟨d', hinput, hdelivers⟩
  have isRead : (readDrive 0x20).IsPioRead := ⟨rfl, rfl, rfl, rfl⟩
  obtain ⟨d'', hinput', hcount, hwaiting⟩ := isRead.inputPacket (readable_blankEnv _ _)
  cases hinput.symm.trans hinput'
  rw [← hcount] at hwaiting
  refine not_delivers_of_short hwaiting ?_ hdelivers
  rw [hcount, length_contents (readable_blankEnv _ _)]
  decide

end

end Gdrom
