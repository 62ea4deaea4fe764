import Mathlib.Data.UInt
import Mathlib.Tactic.IntervalCases

/-!
# Channels of the sound chip

One channel of `aica.c`: its registers, key-on and key-off, and what `aica_process_sample` does to it.
The position in the sample and the amplitude envelope are apart, since they only meet in the number
of samples that have been played. The sound itself is left out, with the state of the decoder.

Registers are written by bytes or words in the source; an event here has the word that is read back.
-/
namespace Aica

open UInt32 Nat Function

inductive EnvState
  | attack | decay | sustain | release
deriving DecidableEq

inductive Fmt
  | s16 | s8 | adpcm | invalid
deriving DecidableEq

def Fmt.ofBits (bits : UInt32) : Fmt :=
  if bits = 0 then .s16 else if bits = 1 then .s8 else if bits = 2 then .adpcm else .invalid

/-- The position in the sample. -/
structure Wave where
  fmt : Fmt
  addrStart : UInt32
  addrCur : UInt32
  loopStart : UInt32
  loopEnd : UInt32
  loopEn : Bool
  samplePos : UInt32
  samplePartial : UInt32
  octave : UInt32
  fns : UInt32
  loopEndPlaystatusFlag : Bool
  loopEndSignaled : Bool

structure Envelope where
  atten : UInt32
  state : EnvState
  readyKeyon : Bool
  playing : Bool
  stepNo : UInt32
  sampleNo : UInt32
  attackRate : Nat
  decayRate : Nat
  sustainRate : Nat
  krs : Nat
  decayLevel : UInt32
  releaseRate : Nat

structure Chan where
  wave : Wave
  env : Envelope

/-- `aica_init`. -/
def Chan.init : Chan :=
  ⟨⟨.s16, 0, 0, 0, 0, false, 0, 0, 0, 0, false, false⟩, ⟨0, .attack, false, false, 0, 0, 0, 0, 0, 0, 0, 0⟩⟩

/-! ## The position -/

namespace Wave

variable (w : Wave)

/-- `get_sample_rate_multiplier`. The octave is a number of four bits in two's complement, and the
shift is to the left for all of them. -/
def sampleRate : UInt32 := (w.fns ^^^ 0x400) <<< ((w.octave ^^^ 8) + 2)

/-- `AICA_SAMPLE_POS_UNIT`. -/
abbrev unit : Nat := 2 ^ 20

/-- The loop over the whole samples in `sample_partial`, for samples of one or two bytes. -/
def advancePcm (size : UInt32) : Wave × Bool :=
  let total := w.samplePartial + w.sampleRate
  let count := ofNat (total.toNat / unit)
  ({ w with
    samplePartial := ofNat (total.toNat % unit), addrCur := w.addrCur + size * count
    samplePos := w.samplePos + count }, count ≠ 0)

/-- Two samples of four bits are in a byte. At most one sample is played at a time. -/
def advanceAdpcm : Wave × Bool :=
  let total := w.samplePartial + w.sampleRate
  if unit ≤ total.toNat then
    ({ w with
      samplePartial := ofNat (total.toNat - unit)
      addrCur := if w.samplePos % 2 = 1 then w.addrCur + 1 else w.addrCur
      samplePos := w.samplePos + 1 }, true)
  else ({ w with samplePartial := total }, false)

def advance : Wave × Bool :=
  match w.fmt with
  | .s16 => w.advancePcm 2
  | .s8 => w.advancePcm 1
  | _ => w.advanceAdpcm

def wrapLoop : Wave :=
  if w.loopEnd < w.samplePos then
    let w := { w with loopEndPlaystatusFlag := w.loopEndPlaystatusFlag || !w.loopEndSignaled }
    if w.loopEn then
      { w with samplePos := w.loopStart, addrCur := w.addrStart + w.loopStart * 2 }
    else { w with samplePos := w.loopEnd, addrCur := w.loopEnd, loopEndSignaled := true }
  else w

def sample : Wave × Bool := (w.advance.1.wrapLoop, w.advance.2)

end Wave

/-! ## The envelope -/

/-- `aica_samples_per_step`. The tables of the source have one form for the rates that differ by four:
each starts with the larger of two numbers. -/
def samplesPerStep (rate stepNo : Nat) : Nat :=
  if rate < 2 then 0
  else if 48 ≤ rate then 2
  else
    let large := 8192 / 2 ^ (rate / 4)
    let small := 4096 / 2 ^ (rate / 4)
    match rate % 4 with
    | 0 => large
    | 1 => if stepNo % 5 < 3 then large else small
    | 2 => if stepNo % 3 < 1 then large else small
    | _ => if stepNo % 7 < 1 then large else small

def attackStepDelta : List (List UInt32) :=
  [[4, 4, 4, 4], [3, 4, 4, 4], [3, 4, 3, 4], [3, 3, 3, 4], [3, 3, 3, 3], [2, 3, 3, 3], [2, 3, 2, 3],
    [2, 2, 2, 3], [2, 2, 2, 2], [1, 2, 2, 2], [1, 2, 1, 2], [1, 1, 1, 1], [1, 1, 1, 1]]

def decayStepDelta : List (List UInt32) :=
  [[1, 1, 1, 1], [2, 1, 1, 1], [2, 1, 2, 1], [2, 2, 2, 1], [2, 2, 2, 2], [4, 2, 2, 2], [4, 2, 4, 2],
    [4, 4, 4, 2], [4, 4, 4, 4], [8, 4, 4, 4], [8, 4, 8, 4], [8, 8, 8, 4], [8, 8, 8, 8]]

def rateIdx (rate : Nat) : Nat := min (rate - 0x30) 12

def delta (table : List (List UInt32)) (rate stepNo : Nat) : UInt32 :=
  (table.getD (rateIdx rate) []).getD (stepNo % 4) 0

namespace Envelope

variable (e : Envelope)

/-- `aica_chan_effective_rate`, with bit 9 of the frequency. -/
def effectiveRate (fns : UInt32) : Nat :=
  let rate := match e.state with
    | .attack => e.attackRate
    | .decay => e.decayRate
    | .sustain => e.sustainRate
    | .release => e.releaseRate
  if e.krs = 15 then rate * 2 else (e.krs + rate) * 2 + ((fns >>> 9) &&& (1 : UInt32)).toNat

def attacked (rate : Nat) : UInt32 := e.atten - (e.atten >>> delta attackStepDelta rate e.stepNo.toNat + 1)

def decayed (rate : Nat) : UInt32 :=
  let atten := e.atten + delta decayStepDelta rate e.stepNo.toNat
  if 0x3bf ≤ atten then 0x1fff else atten

def envStep (rate : Nat) : Envelope :=
  let e' := match e.state with
    | .attack =>
      { e with atten := e.attacked rate, state := if e.attacked rate = 0 then .decay else .attack }
    | .decay =>
      { e with
        atten := e.decayed rate
        state := if e.decayLevel ≤ e.decayed rate then .sustain else .decay }
    | _ => { e with atten := e.decayed rate, playing := e.playing && !decide (0x3bf ≤ e.decayed rate) }
  { e' with sampleNo := 0, stepNo := e.stepNo + 1 }

def tick (fns : UInt32) : Envelope :=
  let rate := e.effectiveRate fns
  let samples := samplesPerStep rate e.stepNo.toNat
  let e := { e with sampleNo := e.sampleNo + 1 }
  if samples ≠ 0 ∧ samples ≤ e.sampleNo.toNat then e.envStep rate else e

end Envelope

namespace Chan

variable (c : Chan)

/-- `aica_do_keyon` for one channel. -/
def doKeyon : Chan :=
  if c.env.readyKeyon ∧ (¬c.env.playing ∨ c.env.state = .release) then
    ⟨{ c.wave with
        samplePos := 0, samplePartial := 0, addrCur := c.wave.addrStart
        loopEndPlaystatusFlag := false, loopEndSignaled := false },
      { c.env with playing := true, stepNo := 0, sampleNo := 0, state := .attack, atten := 0x280 }⟩
  else if ¬c.env.readyKeyon ∧ c.env.playing ∧ c.env.state ≠ .release then
    { c with env := { c.env with state := .release } }
  else c

/-- `aica_chan_playctrl_write`. -/
def playctrlWrite (val : UInt32) : Chan :=
  let start := (c.wave.addrStart &&& (0xffff : UInt32)) ||| (val &&& (0x7f : UInt32)) <<< (16 : UInt32)
  let c : Chan :=
    ⟨{ c.wave with
        fmt := Fmt.ofBits ((val >>> 7) &&& (3 : UInt32)), addrStart := start, addrCur := start
        loopEn := val &&& 0x200 ≠ 0 },
      { c.env with readyKeyon := val &&& 0x4000 ≠ 0 }⟩
  if val &&& 0x8000 ≠ 0 then c.doKeyon else c

/-- The part of `aica_process_sample` for one channel. -/
def processSample : Chan :=
  if c.env.playing then
    ⟨c.wave.sample.1, if c.wave.sample.2 then c.env.tick c.wave.fns else c.env⟩
  else c

end Chan

/-- Writes to the registers of a channel, a key-on by the register of another channel, and samples. -/
inductive Event
  | playCtrl (val : UInt32)
  | keyon
  | sampleAddrLow (val : UInt32)
  | loopStart (val : UInt32)
  | loopEnd (val : UInt32)
  | ampEnv1 (val : UInt32)
  | ampEnv2 (val : UInt32)
  | sampleRatePitch (val : UInt32)
  | sample

/-- Both envelope registers are read from the second one in the source, so that `val` is its word. -/
def Chan.step (c : Chan) : Event → Chan
  | .playCtrl val => c.playctrlWrite val
  | .keyon => c.doKeyon
  | .sampleAddrLow val =>
    let start := (c.wave.addrStart &&& (0xffff0000 : UInt32)) ||| (val &&& (0xffff : UInt32))
    { c with wave := { c.wave with addrStart := start, addrCur := start } }
  | .loopStart val => { c with wave := { c.wave with loopStart := val } }
  | .loopEnd val => { c with wave := { c.wave with loopEnd := val } }
  | .ampEnv1 val =>
    { c with env := { c.env with
      attackRate := val.toNat % 32, decayRate := val.toNat / 64 % 32
      sustainRate := val.toNat / 2048 % 32 } }
  | .ampEnv2 val =>
    { c with env := { c.env with
      krs := val.toNat / 1024 % 16, decayLevel := val &&& 0x3e0, releaseRate := val.toNat % 32 } }
  | .sampleRatePitch val =>
    { c with wave := { c.wave with fns := val &&& 0x7ff, octave := (val >>> 11) &&& (0xf : UInt32) } }
  | .sample => c.processSample

def Chan.run (es : List Event) : Chan := es.foldl step .init

/-! ## The attenuation -/

theorem delta_mem (table : List (List UInt32)) (p : UInt32 → Prop)
    (all : ∀ i < 13, ∀ j < 4, p ((table.getD i []).getD j 0)) (rate stepNo : Nat) :
    p (delta table rate stepNo) :=
  all _ (by rw [rateIdx]; omega) _ (mod_lt _ (by decide))

theorem delta_attack (rate stepNo : Nat) :
    1 ≤ (delta attackStepDelta rate stepNo).toNat ∧
      (delta attackStepDelta rate stepNo).toNat < 32 :=
  delta_mem attackStepDelta (fun d => 1 ≤ d.toNat ∧ d.toNat < 32) (by decide) rate stepNo

theorem delta_decay (rate stepNo : Nat) :
    1 ≤ (delta decayStepDelta rate stepNo).toNat ∧ (delta decayStepDelta rate stepNo).toNat ≤ 8 :=
  delta_mem decayStepDelta (fun d => 1 ≤ d.toNat ∧ d.toNat ≤ 8) (by decide) rate stepNo

namespace Envelope

variable {e : Envelope}

/-- What holds of a channel at all times. -/
structure Sound (e : Envelope) : Prop where
  bounded : e.atten.toNat < 0x3bf ∨ e.atten = 0x1fff
  attack : e.playing = true → e.state = .attack → 0 < e.atten.toNat ∧ e.atten.toNat ≤ 0x280

theorem attacked_lt (rate : Nat) (pos : 0 < e.atten.toNat) :
    (e.attacked rate).toNat < e.atten.toNat := by
  obtain ⟨hone, hlt⟩ := delta_attack rate e.stepNo.toNat
  have hshift : (e.atten >>> delta attackStepDelta rate e.stepNo.toNat).toNat ≤ e.atten.toNat / 2 := by
    rw [UInt32.toNat_shiftRight, mod_eq_of_lt hlt, shiftRight_eq_div_pow]
    exact div_le_div_left (by simpa using Nat.pow_le_pow_right (by decide : 0 < 2) hone)
      (by decide)
  have hmost := e.atten.toNat_lt
  have hsum : (e.atten >>> delta attackStepDelta rate e.stepNo.toNat + 1).toNat =
      (e.atten >>> delta attackStepDelta rate e.stepNo.toNat).toNat + 1 := by
    rw [UInt32.toNat_add]
    change (_ + 1) % 2 ^ 32 = _
    omega
  rw [attacked, UInt32.toNat_sub_of_le _ _ (le_iff_toNat_le.mpr (by omega))]
  omega

theorem decayed_cases (e : Envelope) (rate : Nat) :
    e.decayed rate = 0x1fff ∨
      (e.decayed rate).toNat < 0x3bf ∧ e.decayed rate = e.atten + delta decayStepDelta rate e.stepNo.toNat := by
  rw [decayed]
  split
  · exact .inl rfl
  · rename_i h
    exact .inr ⟨lt_iff_toNat_lt.mp (UInt32.not_le.mp h), rfl⟩

theorem Sound.envStep (sound : e.Sound) (playing : e.playing = true) (rate : Nat) :
    (e.envStep rate).Sound := by
  have hbounded : (e.decayed rate).toNat < 0x3bf ∨ e.decayed rate = 0x1fff := by
    obtain h | ⟨h, -⟩ := e.decayed_cases rate
    · exact .inr h
    · exact .inl h
  cases hstate : e.state with
  | attack =>
    obtain ⟨hpos, hle⟩ := sound.attack playing hstate
    have hlt := attacked_lt rate hpos
    simp only [Envelope.envStep, hstate]
    refine ⟨.inl (by dsimp only; omega), fun _ hattack => ⟨?_, by dsimp only; omega⟩⟩
    dsimp only at hattack ⊢
    by_cases hzero : e.attacked rate = 0
    · rw [if_pos hzero] at hattack
      cases hattack
    · exact pos_of_ne_zero fun h => hzero (UInt32.toNat_inj.mp h)
  | decay =>
    simp only [Envelope.envStep, hstate]
    refine ⟨hbounded, fun _ hattack => ?_⟩
    dsimp only at hattack
    split at hattack <;> cases hattack
  | sustain | release =>
    simp only [Envelope.envStep, hstate]
    exact ⟨hbounded, fun _ hattack => by cases hattack⟩

theorem Sound.tick (sound : e.Sound) (playing : e.playing = true) (fns : UInt32) :
    (e.tick fns).Sound := by
  have hcounted : Sound { e with sampleNo := e.sampleNo + 1 } := ⟨sound.bounded, sound.attack⟩
  rw [Envelope.tick]
  dsimp only
  split
  · exact hcounted.envStep playing _
  · exact hcounted

end Envelope

theorem Chan.Sound.doKeyon {c : Chan} (sound : c.env.Sound) : c.doKeyon.env.Sound := by
  rw [Chan.doKeyon]
  split
  · exact ⟨.inl (show (0x280 : UInt32).toNat < 0x3bf by decide),
      fun _ _ => show 0 < (0x280 : UInt32).toNat ∧ (0x280 : UInt32).toNat ≤ 0x280 by decide⟩
  · split
    · exact ⟨sound.bounded, fun _ h => by cases h⟩
    · exact sound

theorem Chan.Sound.step {c : Chan} (sound : c.env.Sound) (ev : Event) : (c.step ev).env.Sound := by
  cases ev with
  | playCtrl val =>
    rw [Chan.step, Chan.playctrlWrite]
    dsimp only
    split
    · exact Chan.Sound.doKeyon ⟨sound.bounded, sound.attack⟩
    · exact ⟨sound.bounded, sound.attack⟩
  | keyon => exact Chan.Sound.doKeyon sound
  | sample =>
    rw [Chan.step, Chan.processSample]
    split
    · rename_i hplaying
      dsimp only
      split
      · exact sound.tick hplaying _
      · exact sound
    · exact sound
  | ampEnv1 _ | ampEnv2 _ => exact ⟨sound.bounded, sound.attack⟩
  | sampleAddrLow val | loopStart val | loopEnd val | sampleRatePitch val => exact sound

theorem Chan.run_sound (es : List Event) : (run es).env.Sound := by
  have hrun (c : Chan) (sound : c.env.Sound) : (es.foldl step c).env.Sound := by
    induction es generalizing c with
    | nil => exact sound
    | cons ev es ih => exact ih _ (Chan.Sound.step sound ev)
  exact hrun _ ⟨.inl (by decide), fun h => by cases h⟩

/-! ## The end of a released channel -/

theorem samplesPerStep_bounds {rate : Nat} (fast : 2 ≤ rate) (stepNo : Nat) :
    1 ≤ samplesPerStep rate stepNo ∧ samplesPerStep rate stepNo ≤ 8192 := by
  rw [samplesPerStep, if_neg (by omega)]
  split
  · decide
  · have hquarter : rate / 4 < 12 := by omega
    generalize rate / 4 = k at hquarter
    dsimp only
    interval_cases k <;> split <;> (try split) <;> decide

namespace Wave

variable {w : Wave}

theorem advance_eq (w : Wave) :
    w.advance.1 = { w with
      samplePos := w.advance.1.samplePos, samplePartial := w.advance.1.samplePartial
      addrCur := w.advance.1.addrCur } := by
  unfold advance
  split
  · rfl
  · rfl
  · rw [advanceAdpcm]
    by_cases hunit : unit ≤ (w.samplePartial + w.sampleRate).toNat
    · simp only [if_pos hunit]
    · simp only [if_neg hunit]

theorem sample_fields (w : Wave) :
    w.sample.1.fns = w.fns ∧ w.sample.1.octave = w.octave ∧
      w.sample.1.samplePartial = w.advance.1.samplePartial := by
  rw [sample, wrapLoop, advance_eq]
  dsimp only
  split
  · split <;> exact ⟨rfl, rfl, rfl⟩
  · exact ⟨rfl, rfl, rfl⟩

theorem advance_snd (w : Wave) :
    w.advance.2 = decide (unit ≤ (w.samplePartial + w.sampleRate).toNat) := by
  have hcount : ∀ size, (w.advancePcm size).2 =
      decide (unit ≤ (w.samplePartial + w.sampleRate).toNat) := by
    intro size
    have htotal := (w.samplePartial + w.sampleRate).toNat_lt
    refine decide_eq_decide.mpr ?_
    rw [ne_eq, ← UInt32.toNat_inj, toNat_ofNat_of_lt' (by simp only [unit, UInt32.size]; omega)]
    change ¬_ = 0 ↔ _
    simp only [unit]
    omega
  unfold advance
  split
  · exact hcount 2
  · exact hcount 1
  · rw [advanceAdpcm]
    split
    · rename_i h
      exact (decide_eq_true h).symm
    · rename_i h
      exact (decide_eq_false h).symm

theorem advance_samplePartial (still : (w.samplePartial + w.sampleRate).toNat < unit) :
    w.advance.1.samplePartial = w.samplePartial + w.sampleRate := by
  have hmod : ofNat ((w.samplePartial + w.sampleRate).toNat % unit) =
      w.samplePartial + w.sampleRate := by
    rw [mod_eq_of_lt still, UInt32.ofNat_toNat]
  unfold advance
  split
  · exact hmod
  · exact hmod
  · rw [advanceAdpcm, if_neg (not_le.mpr still)]

/-- The pitch is in the fields of its register. -/
def Pitched (w : Wave) : Prop := w.fns.toNat < 2 ^ 11 ∧ w.octave.toNat < 2 ^ 4

theorem Pitched.sampleRate_bounds (pitched : w.Pitched) (moves : w.fns ≠ 0x400) :
    4 ≤ w.sampleRate.toNat ∧ w.sampleRate.toNat < 2 ^ 28 := by
  obtain ⟨hfns, hoctave⟩ := pitched
  have hlow : 0 < (w.fns ^^^ 0x400).toNat :=
    pos_of_ne_zero fun h => moves (UInt32.xor_eq_zero_iff.mp (UInt32.toNat_inj.mp h))
  have hhigh : (w.fns ^^^ 0x400).toNat < 2 ^ 11 := by
    rw [UInt32.toNat_xor]
    exact xor_lt_two_pow hfns (by decide)
  have hshift : ((w.octave ^^^ 8) + 2).toNat = (w.octave.toNat ^^^ 8) + 2 ∧
      w.octave.toNat ^^^ 8 < 2 ^ 4 := by
    have hlt : w.octave.toNat ^^^ 8 < 2 ^ 4 := xor_lt_two_pow hoctave (by decide)
    refine ⟨?_, hlt⟩
    rw [UInt32.toNat_add, UInt32.toNat_xor]
    exact mod_eq_of_lt (by change (w.octave.toNat ^^^ 8) + 2 < 2 ^ 32; omega)
  obtain ⟨hsum, hlt⟩ := hshift
  generalize w.octave.toNat ^^^ 8 = k at hsum hlt
  rw [sampleRate, UInt32.toNat_shiftLeft, hsum, mod_eq_of_lt (by omega : k + 2 < 32),
    shiftLeft_eq]
  generalize (w.fns ^^^ 0x400).toNat = x at hlow hhigh
  have hleast : 1 * 2 ^ 2 ≤ x * 2 ^ (k + 2) :=
    Nat.mul_le_mul hlow (Nat.pow_le_pow_right (by decide) (by omega))
  have hmost : x * 2 ^ (k + 2) < 2 ^ 11 * 2 ^ 17 :=
    Nat.mul_lt_mul_of_lt_of_le hhigh (Nat.pow_le_pow_right (by decide) (by omega)) (by decide)
  omega

end Wave

theorem Envelope.envStep_release (e : Envelope) (sound : e.Sound) (playing : e.playing = true)
    (released : e.state = .release) (rate : Nat) :
    ∃ atten playing', e.envStep rate =
        { e with atten, playing := playing', sampleNo := 0, stepNo := e.stepNo + 1 } ∧
      (playing' = false ∨ playing' = true ∧ e.atten.toNat < atten.toNat ∧ atten.toNat < 0x3bf) := by
  obtain ⟨hone, height⟩ := delta_decay rate e.stepNo.toNat
  refine ⟨e.decayed rate, e.playing && !decide (0x3bf ≤ e.decayed rate), ?_, ?_⟩
  · simp only [envStep, released]
  · obtain h | ⟨hlt, h⟩ := e.decayed_cases rate
    · rw [h]
      exact .inl (by rw [show decide ((0x3bf : UInt32) ≤ 0x1fff) = true by decide]; simp)
    · have hbelow : decide ((0x3bf : UInt32) ≤ e.decayed rate) = false :=
        decide_eq_false fun hge => absurd (le_iff_toNat_le.mp hge) (Nat.not_le_of_lt hlt)
      refine .inr ⟨by rw [playing, hbelow]; rfl, ?_, hlt⟩
      have hmost : e.atten.toNat < 2 ^ 13 := by
        obtain hb | hb := sound.bounded
        · omega
        · rw [hb]; decide
      rw [h, UInt32.toNat_add]
      omega

namespace Chan

variable {c : Chan} {rate : Nat}

theorem processSample_still (playing : c.env.playing = true)
    (still : (c.wave.samplePartial + c.wave.sampleRate).toNat < Wave.unit) :
    c.processSample = ⟨c.wave.sample.1, c.env⟩ := by
  have hstill : c.wave.sample.2 = false :=
    (Wave.advance_snd c.wave).trans (decide_eq_false (not_le.mpr still))
  rw [processSample, if_pos playing, hstill]
  rfl

theorem processSample_moves (playing : c.env.playing = true)
    (moves : Wave.unit ≤ (c.wave.samplePartial + c.wave.sampleRate).toNat) :
    c.processSample = ⟨c.wave.sample.1, c.env.tick c.wave.fns⟩ := by
  have hmoves : c.wave.sample.2 = true :=
    (Wave.advance_snd c.wave).trans (decide_eq_true moves)
  rw [processSample, if_pos playing, hmoves]
  rfl

theorem run_pitched (es : List Event) : (Chan.run es).wave.Pitched := by
  have hkeyon : ∀ c : Chan, c.wave.Pitched → c.doKeyon.wave.Pitched := by
    intro c hc
    rw [doKeyon]
    split
    · exact hc
    · split <;> exact hc
  have hstep : ∀ (c : Chan) (ev : Event), c.wave.Pitched → (c.step ev).wave.Pitched := by
    intro c ev hc
    cases ev with
    | playCtrl val =>
      rw [step, playctrlWrite]
      dsimp only
      split
      · exact hkeyon _ hc
      · exact hc
    | keyon => exact hkeyon c hc
    | sampleRatePitch val =>
      constructor
      · exact lt_of_le_of_lt (UInt32.toNat_and val 0x7ff ▸ Nat.and_le_right) (by decide)
      · exact lt_of_le_of_lt (UInt32.toNat_and (val >>> 11) 0xf ▸ Nat.and_le_right) (by decide)
    | sample =>
      obtain ⟨hfns, hoctave, -⟩ := Wave.sample_fields c.wave
      rw [step, processSample]
      split
      · exact ⟨hfns ▸ hc.1, hoctave ▸ hc.2⟩
      · exact hc
    | sampleAddrLow _ | loopStart _ | loopEnd _ | ampEnv1 _ | ampEnv2 _ => exact hc
  have hrun : ∀ c : Chan, c.wave.Pitched → (es.foldl Chan.step c).wave.Pitched := by
    induction es with
    | nil => exact fun _ => id
    | cons ev es ih => exact fun c hc => ih _ (hstep c ev hc)
  exact hrun _ ⟨by decide, by decide⟩

/-- A channel that has been released and still plays, at a pitch with which its position moves. -/
structure Released (rate : Nat) (c : Chan) : Prop where
  sound : c.env.Sound
  playing : c.env.playing = true
  state : c.env.state = .release
  rate : c.env.effectiveRate c.wave.fns = rate
  pitched : c.wave.Pitched
  moves : c.wave.fns ≠ 0x400

theorem Released.sampled (released : Released rate c) {e : Envelope} (sound : e.Sound)
    (playing : e.playing = true) (state : e.state = .release)
    (same : e.effectiveRate c.wave.fns = c.env.effectiveRate c.wave.fns) :
    Released rate ⟨c.wave.sample.1, e⟩ := by
  obtain ⟨hfns, hoctave, -⟩ := Wave.sample_fields c.wave
  exact ⟨sound, playing, state, hfns.symm ▸ same.trans released.rate,
    ⟨hfns.symm ▸ released.pitched.1, hoctave.symm ▸ released.pitched.2⟩,
    hfns.symm ▸ released.moves⟩

/-- The position moves within so many samples. -/
abbrev tickSamples : Nat := 2 ^ 20 + 2

/-- More samples than are left until the position moves. What was left from before may be more than
a whole position. -/
def partialLeft (w : Wave) : Nat :=
  if w.samplePartial.toNat < Wave.unit then Wave.unit - w.samplePartial.toNat else Wave.unit + 1

theorem partialLeft_lt (w : Wave) : partialLeft w < tickSamples := by
  simp only [partialLeft, Wave.unit, tickSamples]
  split <;> omega

/-- More samples than are left until a released channel ends. -/
def left (rate : Nat) (c : Chan) : Nat :=
  tickSamples * (8193 * (0x3bf - c.env.atten.toNat) +
    (samplesPerStep rate c.env.stepNo.toNat - (c.env.sampleNo + 1).toNat)) + partialLeft c.wave

theorem left_lt (fast : 2 ≤ rate) (c : Chan) : left rate c < tickSamples * 8193 * 960 := by
  have hmost := (samplesPerStep_bounds fast c.env.stepNo.toNat).2
  have hpartial := partialLeft_lt c.wave
  simp only [left, tickSamples] at hpartial ⊢
  omega

theorem Released.still (released : Released rate c)
    (still : (c.wave.samplePartial + c.wave.sampleRate).toNat < Wave.unit) :
    partialLeft c.wave.sample.1 < partialLeft c.wave := by
  have hbounds := released.pitched.sampleRate_bounds released.moves
  have hpartial := (Wave.sample_fields c.wave).2.2.trans (Wave.advance_samplePartial still)
  simp only [partialLeft, hpartial, if_pos still]
  rw [UInt32.toNat_add] at still ⊢
  simp only [Wave.unit] at still ⊢
  split <;> omega

/-- The counter may wrap before, if the envelope has stood still for long. -/
theorem Released.counts (fast : 2 ≤ rate)
    (few : ¬samplesPerStep rate c.env.stepNo.toNat ≤ (c.env.sampleNo + 1).toNat) :
    left rate ⟨c.wave.sample.1, { c.env with sampleNo := c.env.sampleNo + 1 }⟩ < left rate c := by
  have hmost := (samplesPerStep_bounds fast c.env.stepNo.toNat).2
  have hpartial := partialLeft_lt c.wave.sample.1
  simp only [left]
  generalize c.env.sampleNo + 1 = counter at few ⊢
  have hnext : (counter + 1).toNat = counter.toNat + 1 := by
    rw [UInt32.toNat_add]
    exact mod_eq_of_lt (show counter.toNat + 1 < 2 ^ 32 by omega)
  rw [hnext]
  simp only [tickSamples] at hpartial ⊢
  omega

theorem Released.processSample (fast : 2 ≤ rate) (released : Released rate c) :
    let c' := c.processSample
    c'.env.playing = false ∧ c'.env.stepNo = c.env.stepNo + 1 ∨
      Released rate c' ∧ left rate c' < left rate c ∧
        (c'.env.stepNo = c.env.stepNo ∧ c'.env.atten = c.env.atten ∨
          c'.env.stepNo = c.env.stepNo + 1 ∧ c.env.atten.toNat < c'.env.atten.toNat ∧
            c'.env.atten.toNat < 0x3bf) := by
  dsimp only
  by_cases hmoves : Wave.unit ≤ (c.wave.samplePartial + c.wave.sampleRate).toNat
  · have hcounted : Envelope.Sound { c.env with sampleNo := c.env.sampleNo + 1 } :=
      ⟨released.sound.bounded, released.sound.attack⟩
    rw [processSample_moves released.playing hmoves, Envelope.tick, released.rate]
    dsimp only
    split
    · obtain ⟨atten, playing, heq, hout⟩ := Envelope.envStep_release _ hcounted released.playing
        released.state rate
      have hsound := hcounted.envStep released.playing rate
      rw [heq] at hsound ⊢
      refine hout.imp (fun hdone => ⟨hdone, rfl⟩) fun ⟨hplaying, hmore, hlow⟩ => ?_
      refine ⟨released.sampled hsound hplaying released.state rfl, ?_, .inr ⟨rfl, hmore, hlow⟩⟩
      have hmost := (samplesPerStep_bounds fast (c.env.stepNo + 1).toNat).2
      have hpartial := partialLeft_lt c.wave.sample.1
      simp only [left, tickSamples] at hmore hpartial ⊢
      omega
    · rename_i hstep
      have hpos := (samplesPerStep_bounds fast c.env.stepNo.toNat).1
      exact .inr ⟨released.sampled hcounted released.playing released.state rfl,
        counts fast fun h => hstep ⟨by omega, h⟩, .inl ⟨rfl, rfl⟩⟩
  · have hstill := not_le.mp hmoves
    rw [processSample_still released.playing hstill]
    exact .inr ⟨released.sampled released.sound released.playing released.state rfl,
      Nat.add_lt_add_left (released.still hstill) _, .inl ⟨rfl, rfl⟩⟩

theorem Released.stops (fast : 2 ≤ rate) {m : Nat} (released : Released rate c)
    (near : left rate c ≤ m) :
    ∃ n ≤ m + 1, (Chan.processSample^[n] c).env.playing = false ∧
      ∃ steps ≤ 0x3bf - c.env.atten.toNat + 1,
        (Chan.processSample^[n] c).env.stepNo = c.env.stepNo + ofNat steps := by
  induction m generalizing c with
  | zero =>
    obtain ⟨hdone, hstep⟩ | ⟨-, hless, -⟩ := released.processSample fast
    · exact ⟨1, by decide, hdone, 1, by omega, hstep⟩
    · omega
  | succ m ih =>
    obtain ⟨hdone, hstep⟩ | ⟨hreleased, hless, hout⟩ := released.processSample fast
    · exact ⟨1, by omega, hdone, 1, by omega, hstep⟩
    · obtain ⟨n, hn, hdone, steps, hsteps, heq⟩ := ih hreleased (by omega)
      refine ⟨n + 1, by omega, hdone, ?_⟩
      rw [iterate_succ_apply, heq]
      obtain ⟨hstep, hatten⟩ | ⟨hstep, hmore, hmost⟩ := hout
      · rw [hatten] at hsteps
        exact ⟨steps, hsteps, by rw [hstep]⟩
      · refine ⟨1 + steps, by omega, ?_⟩
        rw [hstep, ofNat_add, UInt32.add_assoc]
        rfl

theorem plays_of_slow (playing : c.env.playing = true)
    (slow : c.env.effectiveRate c.wave.fns < 2) (n : Nat) :
    (processSample^[n] c).env.playing = true := by
  induction n generalizing c with
  | zero => exact playing
  | succ n ih =>
    have hfns := (Wave.sample_fields c.wave).1
    have htick : c.env.tick c.wave.fns = { c.env with sampleNo := c.env.sampleNo + 1 } :=
      if_neg fun h => h.1 (if_pos slow)
    have hsample : c.processSample = ⟨c.wave.sample.1,
        if c.wave.sample.2 then { c.env with sampleNo := c.env.sampleNo + 1 } else c.env⟩ := by
      rw [processSample, if_pos playing, htick]
    rw [iterate_succ_apply, hsample]
    refine ih ?_ ?_
    · dsimp only
      split <;> exact playing
    · dsimp only
      rw [hfns]
      split <;> exact slow

end Chan

/-- Channels that have been started and released: one with all rates zero and bit 9 of the frequency,
and one with a release rate of one whose position does not move. -/
def slowRelease : Chan := Chan.run [.sampleRatePitch 0x200, .playCtrl 0xc000, .playCtrl 0x8000]

def stillRelease : Chan :=
  Chan.run [.sampleRatePitch 0x400, .ampEnv2 1, .playCtrl 0xc000, .playCtrl 0x8000]

def Fmt.offset : Fmt → UInt32 → UInt32
  | .s16, pos => 2 * pos
  | .s8, pos => pos
  | _, pos => pos / 2

namespace Wave

variable {w : Wave}

def Aligned (w : Wave) : Prop := w.addrCur = w.addrStart + w.fmt.offset w.samplePos

def Overflows (w : Wave) : Prop :=
  w.fmt ≠ .s16 ∧ w.fmt ≠ .s8 ∧ unit ≤ (w.samplePartial + w.sampleRate).toNat ∧
    w.samplePos = 0xffffffff

/-- The position does not pass the end of the loop, or the address that is set then is right. -/
def Keeps (w : Wave) : Prop :=
  (w.loopEnd < w.advance.1.samplePos → w.loopEn = true →
      w.loopStart * 2 = w.fmt.offset w.loopStart) ∧
    (w.loopEnd < w.advance.1.samplePos → w.loopEn = false →
      w.loopEnd = w.addrStart + w.fmt.offset w.loopEnd) ∧
    (¬w.loopEnd < w.advance.1.samplePos → ¬w.Overflows)

instance (w : Wave) : Decidable w.Overflows := inferInstanceAs (Decidable (_ ∧ _ ∧ _ ∧ _))

instance (w : Wave) : Decidable w.Keeps :=
  inferInstanceAs (Decidable ((_ → _ → _) ∧ (_ → _ → _) ∧ (_ → _)))

theorem succ_div_two (x : UInt32) :
    (x + 1) / 2 = if x % 2 = 1 then if x = 0xffffffff then 0 else x / 2 + 1 else x / 2 := by
  have hx := x.toNat_lt
  have hmod : x % 2 = 1 ↔ x.toNat % 2 = 1 := by
    rw [← UInt32.toNat_inj, UInt32.toNat_mod]
    rfl
  have hmax : x = 0xffffffff ↔ x.toNat = 0xffffffff := by
    rw [← UInt32.toNat_inj]
    rfl
  simp only [hmod, hmax]
  apply UInt32.toNat_inj.mp
  rw [UInt32.toNat_div, UInt32.toNat_add]
  change (x.toNat + 1) % 2 ^ 32 / 2 = _
  split
  · split
    · change _ = 0
      omega
    · rw [UInt32.toNat_add, UInt32.toNat_div]
      change _ = (x.toNat / 2 + 1) % 2 ^ 32
      omega
  · rw [UInt32.toNat_div]
    change _ = x.toNat / 2
    omega

theorem advanceAdpcm_aligned (aligned : w.addrCur = w.addrStart + w.samplePos / 2) :
    w.advanceAdpcm.1.addrCur = w.addrStart + w.advanceAdpcm.1.samplePos / 2 ↔
      ¬(unit ≤ (w.samplePartial + w.sampleRate).toNat ∧ w.samplePos = 0xffffffff) := by
  rw [advanceAdpcm]
  split
  · rename_i hunit
    rw [succ_div_two, aligned]
    by_cases hmax : w.samplePos = 0xffffffff
    · rw [hmax]
      simp only [hunit, and_self, not_true, iff_false]
      rw [if_pos (by decide), if_pos (by decide), UInt32.add_assoc, UInt32.add_right_inj]
      decide
    · simp only [hmax, and_false, not_false_eq_true, iff_true, if_false]
      split
      · rw [UInt32.add_assoc]
      · rfl
  · rename_i hunit
    exact iff_of_true aligned fun h => hunit h.1

theorem advance_aligned (aligned : w.Aligned) : w.advance.1.Aligned ↔ ¬w.Overflows := by
  rw [Aligned, advance_eq]
  rw [Aligned] at aligned
  unfold advance Overflows
  cases hfmt : w.fmt with
  | s16 =>
    simp only [hfmt, Fmt.offset, ne_eq, not_true, false_and, not_false_eq_true, iff_true] at aligned ⊢
    rw [advancePcm, aligned]
    grind
  | s8 =>
    simp only [hfmt, Fmt.offset, ne_eq, not_true, false_and, and_false, not_false_eq_true,
      iff_true] at aligned ⊢
    rw [advancePcm, aligned]
    grind
  | adpcm | invalid =>
    simp only [hfmt, Fmt.offset, ne_eq, reduceCtorEq, not_false_eq_true, true_and] at aligned ⊢
    exact advanceAdpcm_aligned aligned

theorem sample_aligned_iff (aligned : w.Aligned) : w.sample.1.Aligned ↔ w.Keeps := by
  have hadvance := advance_aligned aligned
  rw [advance_eq] at hadvance
  rw [sample, Keeps, wrapLoop, advance_eq]
  by_cases hpass : w.loopEnd < w.advance.1.samplePos
  · cases hloop : w.loopEn <;> simp [hpass, Aligned]
  · simp only [hpass, false_implies, not_false_eq_true, true_and, forall_const, if_false]
    exact hadvance

end Wave

theorem Chan.processSample_aligned {c : Chan} (aligned : c.wave.Aligned) :
    c.processSample.wave.Aligned ↔ (c.env.playing = true → c.wave.Keeps) := by
  rw [processSample]
  split
  · rename_i hplaying
    rw [Wave.sample_aligned_iff aligned]
    exact ⟨fun h _ => h, fun h => h hplaying⟩
  · rename_i hplaying
    exact iff_of_true aligned fun h => absurd h hplaying

/-- While a channel plays, its address is the one of its position as long as the end of the loop is
not passed in a format for which the address is set wrong. -/
theorem Chan.aligned_iff (c : Chan) (aligned : c.wave.Aligned) (n : Nat) :
    (∀ k ≤ n, (processSample^[k] c).wave.Aligned) ↔
      ∀ k < n, (processSample^[k] c).env.playing = true →
        (processSample^[k] c).wave.Keeps := by
  constructor
  · intro h k hk
    have hnext := h (k + 1) hk
    rw [iterate_succ_apply'] at hnext
    exact (processSample_aligned (h k (le_of_lt hk))).mp hnext
  · intro h k hk
    induction k with
    | zero => exact aligned
    | succ k ih =>
      rw [iterate_succ_apply']
      exact (processSample_aligned (ih (le_of_lt hk))).mpr (h k hk)

/-- A loop from a position to the next one, at one sample each time. -/
def twoSamples (playCtrl : UInt32) : Chan :=
  Chan.run [.loopStart 1, .loopEnd 2, .playCtrl playCtrl]

theorem Chan.aligned_iff_loop :
    (processSample^[3] (twoSamples 0xc200)).wave.Aligned := by
  refine ((aligned_iff (twoSamples 0xc200) rfl 3).mpr ?_) 3 (le_refl 3)
  intro k hk _
  interval_cases k <;> decide

/-- With samples of one byte the loop goes back to the third one. -/
theorem Chan.loop_misplaced :
    (processSample^[3] (twoSamples 0xc280)).wave.samplePos = 1 ∧
      (processSample^[3] (twoSamples 0xc280)).wave.addrCur =
        (twoSamples 0xc280).wave.addrStart + 2 :=
  ⟨rfl, rfl⟩

end Aica
