import WashingtonDC.Jit.Il

/-!
# The slots of a code block

`alloc_slot`, `free_slot` and `slot_status` of `code_block.c`. An allocation takes two slots: the
one that it returns, and the one behind it that `il_code_block_add_slot` clears. A slot is its
`in_use`.
-/
namespace Jit

open Function List

/-- The error that `alloc_slot` and `slot_status` raise, and an access outside of the array. -/
inductive SlotFault
  | overflow
  | outside

structure IlCodeBlock where
  nSlots : Nat
  slots : Nat → Bool

namespace IlCodeBlock

/-- `il_code_block_init` -/
def init : IlCodeBlock := ⟨0, fun _ => false⟩

def setInUse (block : IlCodeBlock) (slotNo : Nat) (inUse : Bool) : Except SlotFault IlCodeBlock :=
  if slotNo < maxSlots then .ok { block with slots := update block.slots slotNo inUse }
  else .error .outside

/-- `il_code_block_add_slot` -/
def addSlot (block : IlCodeBlock) : Except SlotFault IlCodeBlock :=
  let block := { block with nSlots := block.nSlots + 1 }
  block.setInUse (block.nSlots - 1) false

def slotStatus (block : IlCodeBlock) (slotNo : Nat) : Except SlotFault Bool :=
  if slotNo ≥ maxSlots then .error .overflow else .ok (block.slots slotNo)

def allocSlot (block : IlCodeBlock) : Except SlotFault (Nat × IlCodeBlock) :=
  if block.nSlots ≥ maxSlots then .error .overflow
  else do
    let slotNo := block.nSlots
    let block ← { block with nSlots := slotNo + 1 }.setInUse slotNo true
    let block ← block.addSlot
    return (slotNo, block)

def freeSlot (block : IlCodeBlock) (slotNo : Nat) : Except SlotFault IlCodeBlock :=
  block.setInUse slotNo false

/-- The blocks that calls lead to, with the slots that were returned and those of them that were
not freed. -/
inductive Reached : IlCodeBlock → List Nat → List Nat → Prop
  | init : Reached init [] []
  | alloc {block block' : IlCodeBlock} {slotNo : Nat} {out held : List Nat}
      (reached : Reached block out held) (returned : block.allocSlot = .ok (slotNo, block')) :
      Reached block' (slotNo :: out) (slotNo :: held)
  | free {block block' : IlCodeBlock} {slotNo : Nat} {out held : List Nat}
      (reached : Reached block out held) (returned : block.freeSlot slotNo = .ok block') :
      Reached block' out (held.filter (· ≠ slotNo))

/-- The slots that were returned have even numbers, and the count is past them. -/
structure Inv (block : IlCodeBlock) (out held : List Nat) : Prop where
  count : block.nSlots = 2 * out.length
  le : block.nSlots ≤ maxSlots
  nodup : out.Nodup
  even : ∀ k ∈ out, k % 2 = 0 ∧ k < block.nSlots
  inUse : ∀ k ∈ out, block.slots k = decide (k ∈ held)

variable {block block' : IlCodeBlock} {slotNo : Nat} {out held : List Nat}

theorem Inv.allocSlot_eq (inv : Inv block out held) : block.allocSlot =
    if block.nSlots = maxSlots then .error .overflow
    else .ok (block.nSlots, ⟨block.nSlots + 2, update
      (update block.slots block.nSlots true) (block.nSlots + 1) false⟩) := by
  have hcount := inv.count
  have hle := inv.le
  by_cases hfull : block.nSlots = maxSlots
  · rw [allocSlot, if_pos hfull.ge, if_pos hfull]
  · -- The count and the limit are even, so that there is room for two slots.
    have hroom : block.nSlots + 1 < maxSlots := by
      simp only [maxSlots] at hle hfull ⊢
      omega
    have hlt : block.nSlots < maxSlots := by omega
    simp only [allocSlot, addSlot, setInUse, ge_iff_le, not_le.mpr hlt, hlt, hfull, if_true,
      if_false]
    exact congrArg (Except.map (block.nSlots, ·)) (if_pos hroom)

theorem Inv.alloc (inv : Inv block out held)
    (returned : block.allocSlot = .ok (slotNo, block')) :
    Inv block' (slotNo :: out) (slotNo :: held) ∧ slotNo ∉ out ∧
      ∀ k ∈ out, block'.slots k = block.slots k := by
  rw [inv.allocSlot_eq] at returned
  split at returned
  · cases returned
  · cases returned
    obtain ⟨hcount, hle, hnodup, heven, hinUse⟩ := inv
    have hfresh : block.nSlots ∉ out := fun hk => lt_irrefl _ (heven _ hk).2
    have hsame : ∀ k ∈ out, update (update block.slots block.nSlots true)
        (block.nSlots + 1) false k = block.slots k := by
      intro k hk
      have := heven k hk
      rw [update_of_ne (by omega), update_of_ne (by omega)]
    refine ⟨⟨?_, ?_, nodup_cons.mpr ⟨hfresh, hnodup⟩, ?_, ?_⟩, hfresh, hsame⟩
    · simp only [hcount, length_cons, mul_add, mul_one]
    · simp only [maxSlots] at *
      omega
    · rw [forall_mem_cons]
      dsimp only
      refine ⟨by omega, fun k hk => ?_⟩
      have := heven k hk
      omega
    · rw [forall_mem_cons]
      refine ⟨by simp, fun k hk => ?_⟩
      have hne : k ≠ block.nSlots := fun heq => hfresh (heq ▸ hk)
      simp only [hsame k hk, hinUse k hk, mem_cons, hne, false_or]

theorem Inv.free (inv : Inv block out held) (returned : block.freeSlot slotNo = .ok block') :
    Inv block' out (held.filter (· ≠ slotNo)) := by
  rw [freeSlot, setInUse] at returned
  split at returned
  · cases returned
    refine ⟨inv.count, inv.le, inv.nodup, inv.even, fun k hk => ?_⟩
    by_cases hne : k = slotNo
    · simp [hne]
    · simp [hne, inv.inUse k hk]
  · cases returned

theorem Reached.inv (reached : Reached block out held) : Inv block out held := by
  induction reached with
  | init => exact ⟨rfl, Nat.zero_le _, nodup_nil, nofun, nofun⟩
  | alloc _ returned ih => exact (ih.alloc returned).1
  | free _ returned ih => exact ih.free returned

/-- The slots that were returned are distinct and in the array, and in use until they are freed. Up
to the limit a call returns a new slot and leaves the others alone; then it raises the error. -/
theorem allocSlot_reached (reached : Reached block out held) :
    out.Nodup ∧ block.nSlots = 2 * out.length ∧ block.nSlots ≤ maxSlots ∧
      (∀ k ∈ out, k < maxSlots ∧ block.slotStatus k = .ok (decide (k ∈ held))) ∧
      if block.nSlots = maxSlots then block.allocSlot = .error .overflow
      else ∃ slotNo block', block.allocSlot = .ok (slotNo, block') ∧ slotNo < maxSlots ∧
        slotNo ∉ out ∧ ∀ k ∈ out, block'.slots k = block.slots k := by
  have inv := reached.inv
  have hlt : ∀ k ∈ out, k < maxSlots := fun k hk => lt_of_lt_of_le (inv.even k hk).2 inv.le
  refine ⟨inv.nodup, inv.count, inv.le, fun k hk => ⟨hlt k hk, ?_⟩, ?_⟩
  · rw [slotStatus, if_neg (not_le.mpr (hlt k hk)), inv.inUse k hk]
  · split
    · rename_i hfull
      rw [inv.allocSlot_eq, if_pos hfull]
    · rename_i hroom
      have hreturned := inv.allocSlot_eq
      rw [if_neg hroom] at hreturned
      exact ⟨_, _, hreturned, Nat.lt_of_le_of_ne inv.le hroom, (inv.alloc hreturned).2⟩

/-- Two slots, of which the first one is freed. -/
theorem allocSlot_reached_freed : ∃ one two freed, init.allocSlot = .ok (0, one) ∧
    one.allocSlot = .ok (2, two) ∧ two.freeSlot 0 = .ok freed ∧
    freed.slotStatus 0 = .ok false ∧ freed.slotStatus 2 = .ok true := by
  have h := (allocSlot_reached
    (@Reached.free _ _ 0 _ _ (.alloc (.alloc .init rfl) rfl) rfl)).2.2.2.1
  exact ⟨_, _, _, rfl, rfl, rfl, (h 0 (by decide)).2, (h 2 (by decide)).2⟩

end IlCodeBlock

end Jit
