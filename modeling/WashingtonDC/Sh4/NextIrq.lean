import WashingtonDC.Sh4.Intc

/-!
# The interrupt of the highest priority

`sh4_get_next_irq_line` with its return value and the record that it fills in. The sources of
interrupts are the lines with their priority registers and, unless `ICR.IRLM` is set, the bus of the
four IRL lines instead of these lines. Among sources of one priority the first line is taken, and
the bus last.
-/
namespace Sh4

/-- The return value is -1 if there is no interrupt, and the record is left as it is then. The line
is not written for the bus. -/
def Intc.sh4GetNextIrqLine (intc : Intc) (reg : Nat → UInt32) (irqMeta : IrqMeta) : Int × IrqMeta :=
  if isBlocked reg then (-1, irqMeta)
  else if irlBus reg ∧ intc.irlVal ≠ 15 ∧ (intc.bestLine reg).all (·.1 < irlPrio intc.irlVal) ∧
      imask reg < irlPrio intc.irlVal then
    (irlPrio intc.irlVal, { irqMeta with isIrl := true, code := irlCode intc.irlVal })
  else
    match intc.bestLine reg with
    | some (prio, line) => (prio, ⟨false, intc.irqLines line, line⟩)
    | none => (-1, irqMeta)

inductive Source
  | line (n : Nat)
  | bus

namespace Source

variable (reg : Nat → UInt32) (intc : Intc)

def Asserted : Source → Prop
  | line n => n ≤ lastLine reg ∧ intc.irqLines n ≠ 0
  | bus => irlBus reg = true ∧ intc.irlVal ≠ 15

def prio : Source → Nat
  | line n => irqPrio reg n
  | bus => irlPrio intc.irlVal

def RecordedIn (irq : IrqMeta) : Source → Prop
  | line n => irq = ⟨false, intc.irqLines n, n⟩
  | bus => irq.isIrl = true ∧ irq.code = irlCode intc.irlVal

end Source

section
variable {reg : Nat → UInt32} {intc : Intc}

theorem foldl_betterLine_best {lines : List Nat} {best : Option (Nat × Nat)} {prio line : Nat}
    (consistent : ∀ p l, best = some (p, l) → p = irqPrio reg l)
    (h : lines.foldl (intc.betterLine reg) best = some (prio, line)) :
    prio = irqPrio reg line ∧ (∀ p l, best = some (p, l) → p ≤ prio) ∧
      ∀ l ∈ lines, intc.irqLines l ≠ 0 → imask reg < irqPrio reg l → irqPrio reg l ≤ prio := by
  induction lines generalizing best with
  | nil =>
    refine ⟨consistent prio line h, ?_, by simp⟩
    intro p l hbest
    rw [List.foldl_nil, hbest] at h
    cases h
    exact le_rfl
  | cons l lines ih =>
    rw [List.foldl_cons] at h
    -- the line itself, or one that was as good, is the best so far
    by_cases hl : imask reg < irqPrio reg l ∧ intc.irqLines l ≠ 0 ∧ best.all (·.1 < irqPrio reg l)
    · rw [Intc.betterLine, if_pos hl] at h
      obtain ⟨hprio, hbest, hrest⟩ := ih (by rintro p l' ⟨⟩; rfl) h
      have hle := hbest _ _ rfl
      refine ⟨hprio, ?_, List.forall_mem_cons.mpr ⟨fun _ _ => hle, hrest⟩⟩
      rintro p l' rfl
      have hlt : p < irqPrio reg l := by simpa using hl.2.2
      omega
    · rw [Intc.betterLine, if_neg hl] at h
      obtain ⟨hprio, hbest, hrest⟩ := ih consistent h
      refine ⟨hprio, hbest, List.forall_mem_cons.mpr ⟨?_, hrest⟩⟩
      intro hasserted habove
      cases best with
      | none => exact absurd ⟨habove, hasserted, rfl⟩ hl
      | some b =>
        have hnot : ¬b.1 < irqPrio reg l := by
          intro hlt
          exact hl ⟨habove, hasserted, by simpa using hlt⟩
        have := hbest b.1 b.2 rfl
        omega

theorem bestLine_best {prio line : Nat} (h : intc.bestLine reg = some (prio, line)) :
    prio = irqPrio reg line ∧ (Source.line line).Asserted reg intc ∧ imask reg < prio ∧
      ∀ l ≤ lastLine reg, intc.irqLines l ≠ 0 → irqPrio reg l ≤ prio := by
  obtain ⟨hprio, -, hrest⟩ := foldl_betterLine_best (by rintro p l ⟨⟩) h
  obtain ⟨hle, hasserted, habove⟩ := bestLine_some h
  refine ⟨hprio, ⟨hle, hasserted⟩, hprio ▸ habove, ?_⟩
  intro l hl hlines
  by_cases hmask : imask reg < irqPrio reg l
  · exact hrest l (List.mem_range.mpr (by omega)) hlines hmask
  · omega

/-- What the function returns: nothing, the bus, or the best of the lines. -/
inductive Chooses (reg : Nat → UInt32) (intc : Intc) (irqMeta : IrqMeta) : Int × IrqMeta → Prop
  | blocked (blocked : isBlocked reg = true) : Chooses reg intc irqMeta (-1, irqMeta)
  | none (unblocked : isBlocked reg = false)
    (below : ∀ src, Source.Asserted reg intc src → src.prio reg intc ≤ imask reg) :
    Chooses reg intc irqMeta (-1, irqMeta)
  | source (src : Source) {irq : IrqMeta} (unblocked : isBlocked reg = false)
    (asserted : src.Asserted reg intc) (above : imask reg < src.prio reg intc)
    (highest : ∀ src', Source.Asserted reg intc src' → src'.prio reg intc ≤ src.prio reg intc)
    (recorded : src.RecordedIn intc irq) : Chooses reg intc irqMeta (src.prio reg intc, irq)

theorem sh4GetNextIrqLine_chooses (reg : Nat → UInt32) (intc : Intc) (irqMeta : IrqMeta) :
    Chooses reg intc irqMeta (intc.sh4GetNextIrqLine reg irqMeta) := by
  rw [Intc.sh4GetNextIrqLine]
  split
  · rename_i hblocked
    exact .blocked hblocked
  rename_i hblocked
  have hunblocked : isBlocked reg = false := by simpa using hblocked
  split
  · rename_i hbus
    obtain ⟨hirl, hasserted, hbest, habove⟩ := hbus
    refine .source .bus hunblocked ⟨hirl, hasserted⟩ habove ?_ ⟨rfl, rfl⟩
    rintro (l | _) hsrc
    · show irqPrio reg l ≤ irlPrio intc.irlVal
      cases hline : intc.bestLine reg with
      | none =>
        have := bestLine_none hline hsrc.1 hsrc.2
        omega
      | some b =>
        have hlt : b.1 < irlPrio intc.irlVal := by simpa [hline] using hbest
        have := (bestLine_best hline).2.2.2 l hsrc.1 hsrc.2
        omega
    · exact le_rfl
  · rename_i hbus
    cases hline : intc.bestLine reg with
    | none =>
      refine .none hunblocked ?_
      rintro (l | _) hsrc
      · exact Nat.le_of_not_lt (bestLine_none hline hsrc.1 hsrc.2)
      · by_contra habove
        exact hbus ⟨hsrc.1, hsrc.2, by rw [hline]; rfl, Nat.lt_of_not_le habove⟩
    | some b =>
      obtain ⟨hprio, hasserted, habove, hhighest⟩ := bestLine_best hline
      show Chooses reg intc irqMeta (b.1, ⟨false, intc.irqLines b.2, b.2⟩)
      rw [hprio] at habove hhighest ⊢
      refine .source (.line b.2) hunblocked hasserted habove ?_ rfl
      rintro (l | _) hsrc
      · exact hhighest l hsrc.1 hsrc.2
      · -- a bus above the best line would have been taken
        show irlPrio intc.irlVal ≤ irqPrio reg b.2
        by_contra hlt
        refine hbus ⟨hsrc.1, hsrc.2, ?_, by omega⟩
        simpa [hline, hprio] using hlt

/-- `-1` is returned if interrupts are blocked or no source is above the mask; otherwise the highest
priority of all sources, with a source that has it. -/
theorem sh4GetNextIrqLine_highest (reg : Nat → UInt32) (intc : Intc) (irqMeta : IrqMeta) :
    ((intc.sh4GetNextIrqLine reg irqMeta).1 = -1 ↔
      isBlocked reg = true ∨
        ∀ src, Source.Asserted reg intc src → src.prio reg intc ≤ imask reg) ∧
    ((intc.sh4GetNextIrqLine reg irqMeta).1 ≠ -1 →
      ∃ src, Source.Asserted reg intc src ∧
        (intc.sh4GetNextIrqLine reg irqMeta).1 = src.prio reg intc ∧
        (∀ src', Source.Asserted reg intc src' → src'.prio reg intc ≤ src.prio reg intc) ∧
        src.RecordedIn intc (intc.sh4GetNextIrqLine reg irqMeta).2) := by
  have hchooses := sh4GetNextIrqLine_chooses reg intc irqMeta
  generalize intc.sh4GetNextIrqLine reg irqMeta = result at *
  cases hchooses with
  | blocked hblocked => exact ⟨⟨fun _ => .inl hblocked, fun _ => rfl⟩, fun h => absurd rfl h⟩
  | none _ hbelow => exact ⟨⟨fun _ => .inr hbelow, fun _ => rfl⟩, fun h => absurd rfl h⟩
  | source src hunblocked hasserted habove hhighest hrecorded =>
    constructor
    · constructor
      · intro h
        simp only at h
        omega
      · rintro (hblocked | hbelow)
        · rw [hunblocked] at hblocked
          cases hblocked
        · have := hbelow src hasserted
          omega
    · exact fun _ => ⟨src, hasserted, rfl, hhighest, hrecorded⟩

theorem getNextIrqLine_eq (reg : Nat → UInt32) (intc : Intc) :
    intc.getNextIrqLine reg =
      if 0 ≤ (intc.sh4GetNextIrqLine reg intc.pendingIrq).1 then
        some (intc.sh4GetNextIrqLine reg intc.pendingIrq).2
      else none := by
  rw [Intc.getNextIrqLine, Intc.sh4GetNextIrqLine]
  split
  · rfl
  split
  · simp
  · cases intc.bestLine reg with
    | none => rfl
    | some b => simp

end

end Sh4
