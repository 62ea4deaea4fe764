import WashingtonDC.Jit.Il
import WashingtonDC.KnownBits

/-!
# The pass that finds known bits

`jit_determ.c`. The pass means to carry what is known from one instruction to the next, but it never
sets the pointer to the previous state. So each recorded state is that of one instruction alone,
with nothing known before it, and it describes the slots behind that instruction.

The pass is only built with `JIT_OPTIMIZE`. The states have entries for all slots.
-/
namespace Jit

open KnownBits Function Option

structure DetermSlot where
  knownBits : UInt32
  knownVal : UInt32

abbrev DetermState := Nat → DetermSlot

/-- `jit_determ_default`, and what `calloc` returns. -/
def jitDetermDefault : DetermState := fun _ => ⟨0, 0⟩

namespace DetermState

variable (state : DetermState)

def put (slot : Nat) (bits val : UInt32) : DetermState := update state slot ⟨bits, val⟩

def full (slot : Nat) : Prop := (state slot).knownBits = 0xffffffff

instance decidableFull (slot : Nat) : Decidable (state.full slot) :=
  inferInstanceAs (Decidable (_ = _))

/-- The end of the cases of `JIT_OP_AND` to `JIT_OP_OR_CONST32`. -/
def putZeroOne (slot : Nat) (zeroBits oneBits : UInt32) : DetermState :=
  state.put slot (zeroBits ||| oneBits) ((~~~zeroBits ||| oneBits) &&& (zeroBits ||| oneBits))

/-- The end of the cases of the comparisons: the flag is known if it is known to be set. -/
def putFlag (slot : Nat) (holds : Bool) : DetermState :=
  if holds then state.put slot ((state slot).knownBits ||| 1) ((state slot).knownVal ||| 1)
  else state.put slot ((state slot).knownBits &&& ~~~1) (state slot).knownVal

def compare (slotLhs slotRhs slotDst : Nat) (holds : UInt32 → UInt32 → Bool) : DetermState :=
  state.putFlag slotDst (decide (state.full slotLhs) && decide (state.full slotRhs) &&
    holds (state slotLhs).knownVal (state slotRhs).knownVal)

def compareConst (slotLhs slotDst : Nat) (holds : UInt32 → Bool) : DetermState :=
  state.putFlag slotDst (decide (state.full slotLhs) && holds (state slotLhs).knownVal)

end DetermState

def lowMask (n : Nat) : UInt32 := ⟨(1#32 <<< n) - 1#32⟩

def updateState (state : DetermState) : JitInst → DetermState
  | .setSlot slotIdx newVal => state.put slotIdx 0xffffffff newVal
  | .read16Constaddr _ _ slotNo => state.put slotNo 0xffff0000 0
  | .signExtend16 slotNo =>
    let dst := state slotNo
    if dst.knownBits &&& 0x10000 ≠ 0 then
      state.put slotNo (dst.knownBits ||| 0xffff0000)
        (if dst.knownVal &&& 0x10000 ≠ 0 then dst.knownVal ||| 0xffff0000
        else dst.knownVal &&& 0xffff)
    else state.put slotNo (dst.knownBits &&& 0xffff) (dst.knownVal &&& 0xffff)
  | .read32Constaddr _ _ slotNo => state.put slotNo 0 0
  | .read32Slot _ _ dstSlot => state.put dstSlot 0 0
  | .write32Slot _ _ _ => state
  | .loadSlot16 _ slotNo => state.put slotNo 0xffff0000 0
  | .storeSlot _ _ => state
  | .add slotSrc slotDst =>
    let src := state slotSrc
    let dst := state slotDst
    if state.full slotSrc ∧ state.full slotDst then
      state.put slotDst 0xffffffff (dst.knownVal + src.knownVal)
    else if slotSrc = slotDst then
      state.put slotDst (dst.knownBits <<< 1 ||| 1) (dst.knownVal <<< 1)
    else state.put slotDst 0 0
  | .sub slotSrc slotDst =>
    let src := state slotSrc
    let dst := state slotDst
    if state.full slotSrc ∧ state.full slotDst then
      state.put slotDst 0xffffffff (dst.knownVal - src.knownVal)
    else if slotSrc = slotDst then state.put slotDst 0xffffffff 0
    else state.put slotDst 0 0
  | .addConst32 slotDst const32 =>
    let dst := state slotDst
    if state.full slotDst then state.put slotDst dst.knownBits (dst.knownVal + const32)
    else state.put slotDst 0 0
  | .discardSlot slotNo => state.put slotNo 0 0
  | .xor slotSrc slotDst =>
    let src := state slotSrc
    let dst := state slotDst
    if slotSrc = slotDst then state.put slotDst 0xffffffff 0
    else state.put slotDst (dst.knownBits &&& src.knownBits) (dst.knownVal ^^^ src.knownVal)
  | .xorConst32 slotNo const32 =>
    state.put slotNo (state slotNo).knownBits ((state slotNo).knownVal ^^^ const32)
  | .mov slotSrc slotDst =>
    -- the value is that of the destination
    state.put slotDst (state slotSrc).knownBits (state slotDst).knownVal
  | .and slotSrc slotDst =>
    -- only the source is looked at
    let src := state slotSrc
    state.putZeroOne slotDst ((~~~src.knownVal &&& src.knownBits) ||| (~~~src.knownVal &&& src.knownBits))
      ((src.knownVal &&& src.knownBits) &&& (src.knownVal &&& src.knownBits))
  | .andConst32 slotNo const32 =>
    let dst := state slotNo
    state.putZeroOne slotNo (~~~const32 ||| ~~~dst.knownVal &&& dst.knownBits)
      (const32 &&& dst.knownVal &&& dst.knownBits)
  | .or slotSrc slotDst =>
    let src := state slotSrc
    let dst := state slotDst
    state.putZeroOne slotDst
      (~~~src.knownVal &&& src.knownBits &&& (~~~dst.knownVal &&& dst.knownBits))
      (src.knownVal &&& src.knownBits ||| dst.knownVal &&& dst.knownBits)
  | .orConst32 slotNo const32 =>
    let dst := state slotNo
    state.putZeroOne slotNo (~~~const32 &&& (~~~dst.knownVal &&& dst.knownBits))
      (const32 ||| dst.knownVal &&& dst.knownBits)
  | .slotToBool slotNo =>
    let dst := state slotNo
    if state.full slotNo then state.put slotNo dst.knownBits (if dst.knownVal ≠ 0 then 1 else 0)
    else state.put slotNo 0 dst.knownVal
  | .not slotNo => state.put slotNo (state slotNo).knownBits (~~~(state slotNo).knownVal)
  | .shll slotNo shiftAmt =>
    -- the known bits are not shifted
    let dst := state slotNo
    state.put slotNo (if 32 ≤ shiftAmt then 0xffffffff else dst.knownBits ||| lowMask shiftAmt)
      ⟨dst.knownVal.toBitVec <<< shiftAmt⟩
  | .shar slotNo shiftAmt =>
    let dst := state slotNo
    state.put slotNo
      (if 32 ≤ shiftAmt then 0xffffffff else dst.knownBits ||| ~~~lowMask (31 - shiftAmt))
      ⟨dst.knownVal.toBitVec.sshiftRight shiftAmt⟩
  | .shlr slotNo shiftAmt =>
    let dst := state slotNo
    state.put slotNo
      (if 32 ≤ shiftAmt then 0xffffffff else dst.knownBits ||| ~~~lowMask (31 - shiftAmt))
      ⟨dst.knownVal.toBitVec >>> shiftAmt⟩
  | .setGtUnsigned slotLhs slotRhs slotDst =>
    state.compare slotLhs slotRhs slotDst fun lhs rhs => rhs < lhs
  | .setGtSigned slotLhs slotRhs slotDst =>
    state.compare slotLhs slotRhs slotDst fun lhs rhs => rhs.toInt32 < lhs.toInt32
  | .setGtSignedConst slotLhs immRhs slotDst =>
    state.compareConst slotLhs slotDst fun lhs => immRhs < lhs.toInt32
  | .setEq slotLhs slotRhs slotDst =>
    state.compare slotLhs slotRhs slotDst fun lhs rhs => lhs = rhs
  | .setGeUnsigned slotLhs slotRhs slotDst =>
    state.compare slotLhs slotRhs slotDst fun lhs rhs => rhs ≤ lhs
  | .setGeSigned slotLhs slotRhs slotDst =>
    state.compare slotLhs slotRhs slotDst fun lhs rhs => rhs.toInt32 ≤ lhs.toInt32
  | .setGeSignedConst slotLhs immRhs slotDst =>
    state.compareConst slotLhs slotDst fun lhs => immRhs ≤ lhs.toInt32
  | .mulU32 _ _ slotDst => state.put slotDst 0 0
  | .callFunc _ _ | .fallback _ _ | .jump _ | .jumpCond _ _ _ _ | .loadSlot _ _ | .shad _ _ =>
    jitDetermDefault

/-- The loop of the pass. At its end it assigns `state_prev` to `state`, and not the other way. -/
def determLoop (statePrev : Option DetermState) : List JitInst → List DetermState
  | [] => []
  | inst :: insts =>
    let state := statePrev.getD jitDetermDefault
    updateState state inst :: determLoop statePrev insts

def jitDetermPass (block : List JitInst) : List DetermState := determLoop none block

/-! ## Soundness -/

def Sound (state : DetermState) (slots : Nat → UInt32) : Prop :=
  ∀ slot, Agrees (state slot).knownBits.toBitVec (state slot).knownVal.toBitVec
    (slots slot).toBitVec

section

variable {δ : Type} {env : Env δ} {state : DetermState} {slots : Nat → UInt32} {s s' : State δ}
  {inst : JitInst} {slot : Nat} {bits val x : UInt32}

theorem sound_default (slots : Nat → UInt32) : Sound jitDetermDefault slots :=
  fun _ => agrees_none _ _

theorem Sound.put (sound : Sound state slots)
    (agrees : Agrees bits.toBitVec val.toBitVec x.toBitVec) :
    Sound (state.put slot bits val) (update slots slot x) := by
  intro k
  by_cases hk : k = slot
  · subst hk
    simpa [DetermState.put] using agrees
  · simpa [DetermState.put, hk] using sound k

theorem Sound.put_same (sound : Sound state slots)
    (agrees : Agrees bits.toBitVec val.toBitVec (slots slot).toBitVec) :
    Sound (state.put slot bits val) slots := by
  have hput : Sound (state.put slot bits val) (update slots slot (slots slot)) :=
    sound.put agrees
  rwa [update_eq_self] at hput

theorem Sound.full (sound : Sound state slots) (full : state.full slot) :
    (state slot).knownVal = slots slot := by
  have h := sound slot
  rw [show (state slot).knownBits = 0xffffffff from full] at h
  exact UInt32.toBitVec_inj.mp (agrees_all.mp h)

theorem agrees_exact (x : UInt32) : Agrees (0xffffffff : UInt32).toBitVec x.toBitVec x.toBitVec :=
  agrees_all.mpr rfl

theorem agrees_zeroExtend (x : UInt16) :
    Agrees (0xffff0000 : UInt32).toBitVec (0 : UInt32).toBitVec x.toUInt32.toBitVec := by
  intro i hi
  have hlow : 16 ≤ i := by
    by_contra hlt
    have hbits : ∀ i < 16, (0xffff0000 : UInt32).toBitVec.getLsbD i = false := by decide
    rw [hbits i (by omega)] at hi
    cases hi
  simp [BitVec.getLsbD_of_ge x.toBitVec i hlow]

theorem set_eq_some {v : UInt32} (h : Next.set s slot v = some (.goes s')) : s' = s.set slot v := by
  cases h
  rfl

theorem setFlag_eq_some {holds : Bool} (h : Next.setFlag s slot holds = some (.goes s')) :
    s' = if holds then s.set slot (s.slots slot ||| 1) else s := by
  rw [Next.setFlag] at h
  split at h
  · rename_i htrue
    rw [if_pos htrue]
    exact set_eq_some h
  · rename_i hfalse
    rw [if_neg hfalse]
    cases h
    rfl

section
variable (sound : Sound state s.slots)
include sound

theorem Sound.putFlag {holds known : Bool} (knows : known = true → holds = true)
    (h : Next.setFlag s slot holds = some (.goes s')) :
    Sound (state.putFlag slot known) s'.slots := by
  have hslot := sound slot
  obtain rfl := setFlag_eq_some h
  cases known with
  | true =>
    rw [DetermState.putFlag, if_pos rfl, if_pos (knows rfl)]
    exact sound.put (by simpa using hslot.setLow)
  | false =>
    rw [DetermState.putFlag, if_neg (by decide)]
    cases holds with
    | true =>
      rw [if_pos rfl]
      exact sound.put (by simpa using hslot.forgetLow)
    | false =>
      rw [if_neg (by decide)]
      exact sound.put_same (by simpa using hslot.mask _)

theorem Sound.compare {lhs rhs : Nat} {holds : UInt32 → UInt32 → Bool}
    (h : Next.setFlag s slot (holds (s.slots lhs) (s.slots rhs)) = some (.goes s')) :
    Sound (state.compare lhs rhs slot holds) s'.slots := by
  refine sound.putFlag (fun hknown => ?_) h
  simp only [Bool.and_eq_true, decide_eq_true_eq] at hknown
  rw [← sound.full hknown.1.1, ← sound.full hknown.1.2]
  exact hknown.2

theorem Sound.compareConst {lhs : Nat} {holds : UInt32 → Bool}
    (h : Next.setFlag s slot (holds (s.slots lhs)) = some (.goes s')) :
    Sound (state.compareConst lhs slot holds) s'.slots := by
  refine sound.putFlag (fun hknown => ?_) h
  simp only [Bool.and_eq_true, decide_eq_true_eq] at hknown
  rw [← sound.full hknown.1]
  exact hknown.2

end

/-- The instructions for which the pass would be sound with anything known before them. -/
def JitInst.Transfers : JitInst → Prop
  | .signExtend16 _ | .mov _ _ | .and _ _ | .shll _ _ | .shar _ _ | .shlr _ _ => False
  | _ => True

theorem updateState_sound (sound : Sound state s.slots) (transfers : inst.Transfers)
    (h : inst.exec env s = some (.goes s')) : Sound (updateState state inst) s'.slots := by
  have forget : ∀ {slots' : Nat → UInt32} {k : Nat}, (∀ j, j ≠ k → slots' j = s.slots j) →
      Sound (state.put k 0 0) slots' := by
    intro slots' k hother
    have hslots : slots' = update s.slots k (slots' k) := by
      funext j
      by_cases hj : j = k
      · simp [hj]
      · simp [hj, hother j hj]
    rw [hslots]
    exact sound.put (agrees_none _ _)
  cases inst with
  | fallback _ _ | jump _ | jumpCond _ _ _ _ | callFunc _ _ | loadSlot _ _ | shad _ _ => exact sound_default _
  | setSlot k v =>
    obtain rfl := set_eq_some h
    exact sound.put (agrees_exact v)
  | read16Constaddr map addr k =>
    obtain ⟨r, hread, hgoes⟩ := map_eq_some_iff.mp h
    cases hgoes
    obtain ⟨x, hx⟩ := Env.access_read16 hread
    rw [State.setRead, hx]
    exact sound.put (agrees_zeroExtend x)
  | read32Constaddr _ _ _ | read32Slot _ _ _ =>
    obtain ⟨r, -, hgoes⟩ := map_eq_some_iff.mp h
    cases hgoes
    exact forget fun j hj => update_of_ne hj _ _
  | write32Slot map src a =>
    obtain ⟨r, -, hgoes⟩ := map_eq_some_iff.mp h
    cases hgoes
    exact sound
  | loadSlot16 src k =>
    obtain rfl := set_eq_some h
    exact sound.put (agrees_zeroExtend _)
  | storeSlot dst k =>
    cases h
    exact sound
  | add src dst =>
    obtain rfl := set_eq_some h
    simp only [updateState]
    split
    · rename_i hfull
      rw [sound.full hfull.1, sound.full hfull.2]
      exact sound.put (agrees_exact _)
    · split
      · rename_i heq
        subst heq
        exact sound.put (by simpa using (sound src).double)
      · exact forget fun j hj => update_of_ne hj _ _
  | sub src dst =>
    obtain rfl := set_eq_some h
    simp only [updateState]
    split
    · rename_i hfull
      rw [sound.full hfull.1, sound.full hfull.2]
      exact sound.put (agrees_exact _)
    · split
      · rename_i heq
        subst heq
        rw [UInt32.sub_self]
        exact sound.put (agrees_exact _)
      · exact forget fun j hj => update_of_ne hj _ _
  | addConst32 dst c =>
    obtain rfl := set_eq_some h
    simp only [updateState]
    split
    · rename_i hfull
      rw [sound.full hfull, show (state dst).knownBits = 0xffffffff from hfull]
      exact sound.put (agrees_exact _)
    · exact forget fun j hj => update_of_ne hj _ _
  | discardSlot k =>
    cases h
    exact forget fun _ _ => rfl
  | xor src dst =>
    obtain rfl := set_eq_some h
    simp only [updateState]
    split
    · rename_i heq
      subst heq
      rw [UInt32.xor_self]
      exact sound.put (agrees_exact _)
    · exact sound.put (by simpa using (sound dst).xor (sound src))
  | xorConst32 k c =>
    obtain rfl := set_eq_some h
    exact sound.put (by simpa using (sound k).xor_const c.toBitVec)
  | andConst32 k c =>
    obtain rfl := set_eq_some h
    exact sound.put (by simpa using (sound k).and_const c.toBitVec)
  | or src dst =>
    obtain rfl := set_eq_some h
    exact sound.put (by simpa using (sound dst).or (sound src))
  | orConst32 k c =>
    obtain rfl := set_eq_some h
    exact sound.put (by simpa using (sound k).or_const c.toBitVec)
  | slotToBool k =>
    obtain rfl := set_eq_some h
    simp only [updateState]
    split
    · rename_i hfull
      rw [sound.full hfull, show (state k).knownBits = 0xffffffff from hfull]
      exact sound.put (agrees_exact _)
    · exact sound.put (agrees_none _ _)
  | not k =>
    obtain rfl := set_eq_some h
    exact sound.put (by simpa using (sound k).not)
  | setGtUnsigned lhs rhs dst | setGtSigned lhs rhs dst | setEq lhs rhs dst
  | setGeUnsigned lhs rhs dst | setGeSigned lhs rhs dst => exact sound.compare h
  | setGtSignedConst lhs imm dst | setGeSignedConst lhs imm dst => exact sound.compareConst h
  | mulU32 lhs rhs dst =>
    obtain rfl := set_eq_some h
    exact forget fun j hj => update_of_ne hj _ _
  | signExtend16 k => exact transfers.elim
  | mov src dst | and src dst => exact transfers.elim
  | shll k n | shar k n | shlr k n => exact transfers.elim

def ShiftsNegative (slots : Nat → UInt32) : JitInst → Prop
  | .shar slotNo _ | .shlr slotNo _ => (slots slotNo).toBitVec.getLsbD 31 = true
  | _ => False

theorem jitDetermDefault_bits (k : Nat) : jitDetermDefault k = ⟨0, 0⟩ := rfl

theorem sound_put_default_iff (slots : Nat → UInt32) (k : Nat) (bits val : UInt32) :
    Sound (jitDetermDefault.put k bits val) slots ↔
      Agrees bits.toBitVec val.toBitVec (slots k).toBitVec := by
  constructor
  · intro hsound
    simpa [DetermState.put] using hsound k
  · exact (sound_default slots).put_same

theorem updateState_default_iff (h : inst.exec env s = some (.goes s')) :
    Sound (updateState jitDetermDefault inst) s'.slots ↔ ¬ ShiftsNegative s.slots inst := by
  by_cases transfers : inst.Transfers
  · have hsound := updateState_sound (sound_default s.slots) transfers h
    refine iff_of_true hsound ?_
    cases inst <;> first | exact id | exact transfers.elim
  · cases inst with
    | signExtend16 _ | mov _ _ =>
      refine iff_of_true ?_ id
      simp [updateState, jitDetermDefault_bits, sound_put_default_iff, agrees_none]
    | and src dst =>
      refine iff_of_true ?_ id
      simp [updateState, jitDetermDefault_bits, DetermState.putZeroOne, sound_put_default_iff,
        agrees_none]
    | shll k n =>
      refine iff_of_true ?_ id
      obtain ⟨v, hv, hset⟩ := bind_eq_some_iff.mp h
      obtain rfl := set_eq_some hset
      rw [shiftLeft] at hv
      split at hv
      · rename_i hn
        cases hv
        simp only [updateState, if_neg (not_le.mpr hn)]
        refine (sound_put_default_iff _ _ _ _).mpr ?_
        simpa [jitDetermDefault, lowMask, State.set] using
          agrees_shiftLeft hn (s.slots k).toBitVec
      · cases hv
    | shar k n =>
      obtain ⟨v, hv, hset⟩ := bind_eq_some_iff.mp h
      obtain rfl := set_eq_some hset
      rw [shiftRightSigned] at hv
      split at hv
      · rename_i hn
        cases hv
        simp only [updateState, if_neg (not_le.mpr hn), sound_put_default_iff]
        have hiff := agrees_sshiftRight_iff hn (s.slots k).toBitVec
        simpa [jitDetermDefault, lowMask, State.set, ShiftsNegative] using hiff
      · cases hv
    | shlr k n =>
      obtain ⟨v, hv, hset⟩ := bind_eq_some_iff.mp h
      obtain rfl := set_eq_some hset
      rw [shiftRight] at hv
      split at hv
      · rename_i hn
        cases hv
        simp only [updateState, if_neg (not_le.mpr hn), sound_put_default_iff]
        have hiff := agrees_ushiftRight_iff hn (s.slots k).toBitVec
        simpa [jitDetermDefault, lowMask, State.set, ShiftsNegative] using hiff
      · cases hv
    | _ => exact absurd trivial transfers

theorem jitDetermPass_eq (block : List JitInst) :
    jitDetermPass block = block.map (updateState jitDetermDefault) := by
  rw [jitDetermPass]
  induction block with
  | nil => rfl
  | cons inst block ih =>
    rw [determLoop, ih, List.map_cons]
    rfl

/-- The state that is recorded in front of the instruction `i + 1` is sound when the interpreter
reaches it, unless the instruction `i` has shifted a negative slot to the right. -/
theorem jitDetermPass_sound_iff {block : List JitInst} {i : Nat} {s₀ : State δ}
    (recorded : (jitDetermPass block)[i]? = some state) (here : block[i]? = some inst)
    (before : reaches env block i s₀ = some s) (reached : reaches env block (i + 1) s₀ = some s') :
    Sound state s'.slots ↔ ¬ ShiftsNegative s.slots inst := by
  obtain ⟨inst', s₁, hinst, hbefore, hexec⟩ := reaches_succ reached
  rw [here] at hinst
  cases hinst
  rw [before] at hbefore
  cases hbefore
  rw [jitDetermPass_eq, List.getElem?_map, here] at recorded
  cases recorded
  exact updateState_default_iff hexec

end

def oneSlot (v : UInt32) : State Unit := ⟨fun k => if k = 0 then v else 0, ⟨fun _ => 0, ()⟩⟩

/-- A positive slot is shifted to the right by 4. -/
theorem jitDetermPass_sound_shar :
    ∃ state s, (jitDetermPass [.shar 0 4, .jump 0])[0]? = some state ∧
      reaches noFuncs [.shar 0 4, .jump 0] 1 (oneSlot 16) = some s ∧ Sound state s.slots := by
  refine ⟨_, _, rfl, rfl, ?_⟩
  have hreached : reaches noFuncs [.shar 0 4, .jump 0] (0 + 1) (oneSlot 16) = some _ := rfl
  refine (jitDetermPass_sound_iff rfl rfl rfl hreached).mpr ?_
  exact (by decide : ¬ (16 : UInt32).toBitVec.getLsbD 31 = true)

/-- The slot holds `0xf8000000` behind the shift of a negative slot, but its highest bit is recorded
as 0. Read with the index of the instruction that comes next, the state of a `SET_SLOT` is wrong
too: it is that behind the instruction. -/
theorem jitDetermPass_shar_wrong :
    (∃ state s, (jitDetermPass [.shar 0 4, .jump 0])[0]? = some state ∧
      reaches noFuncs [.shar 0 4, .jump 0] 1 (oneSlot 0x80000000) = some s ∧
      s.slots 0 = 0xf8000000 ∧ (state 0).knownBits.toBitVec.getLsbD 31 = true ∧
      (state 0).knownVal = 0 ∧ ¬ Sound state s.slots) ∧
    ∃ state s, (jitDetermPass [.setSlot 0 1, .jump 0])[0]? = some state ∧
      reaches noFuncs [.setSlot 0 1, .jump 0] 0 (oneSlot 0) = some s ∧ ¬ Sound state s.slots := by
  constructor
  · refine ⟨_, _, rfl, rfl, rfl, by decide, by decide, ?_⟩
    intro hsound
    have hbit := hsound 0 31 (by decide)
    exact absurd hbit (by decide)
  · refine ⟨_, _, rfl, rfl, ?_⟩
    intro hsound
    have hbit := hsound 0 0 (by decide)
    exact absurd hbit (by decide)

end Jit
