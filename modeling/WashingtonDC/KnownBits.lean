import Mathlib.Data.BitVec
import Mathlib.Data.Nat.Bitwise

/-!
# Words of which some bits are known

A word is described by a mask of the bits that are known and a word that has these bits. The other
bits of the second word do not matter. The lemmas give masks and words for the results of
operations; nothing is said about which description is the best one.
-/
namespace KnownBits

open BitVec Bool

variable {w : Nat} {k k' v v' x y : BitVec w}

/-- The bits that `k` marks are the same in `v` and in `x`. -/
def Agrees (k v x : BitVec w) : Prop :=
  ∀ i, k.getLsbD i = true → v.getLsbD i = x.getLsbD i

theorem agrees_none (v x : BitVec w) : Agrees 0#w v x := by
  intro i hi
  simp at hi

theorem agrees_all : Agrees (allOnes w) v x ↔ v = x := by
  constructor
  · intro h
    apply eq_of_getLsbD_eq
    intro i hi
    exact h i (by simp [hi])
  · rintro rfl i _
    rfl

theorem Agrees.mask (h : Agrees k v x) (m : BitVec w) : Agrees (k &&& m) v x := by
  intro i hi
  rw [getLsbD_and, and_eq_true] at hi
  exact h i hi.1

theorem Agrees.not (h : Agrees k v x) : Agrees k (~~~v) (~~~x) := by
  intro i hi
  rw [getLsbD_not, getLsbD_not, h i hi]

theorem Agrees.xor (h : Agrees k v x) (h' : Agrees k' v' y) :
    Agrees (k &&& k') (v ^^^ v') (x ^^^ y) := by
  intro i hi
  rw [getLsbD_and, and_eq_true] at hi
  rw [getLsbD_xor, getLsbD_xor, h i hi.1, h' i hi.2]

theorem Agrees.xor_const (h : Agrees k v x) (c : BitVec w) : Agrees k (v ^^^ c) (x ^^^ c) := by
  intro i hi
  rw [getLsbD_xor, getLsbD_xor, h i hi]

theorem agrees_zeros_ones {z o : BitVec w} (zeros : ∀ i, z.getLsbD i = true → x.getLsbD i = false)
    (ones : ∀ i, o.getLsbD i = true → x.getLsbD i = true) :
    Agrees (z ||| o) ((~~~z ||| o) &&& (z ||| o)) x := by
  intro i hi
  have hz := zeros i
  have ho := ones i
  have hlt : i < w := lt_of_getLsbD hi
  simp only [getLsbD_or, getLsbD_and, getLsbD_not, hlt, decide_true,
    Bool.true_and] at hi ⊢
  cases hzi : z.getLsbD i with
  | true => cases hoi : o.getLsbD i <;> simp_all
  | false =>
    cases hoi : o.getLsbD i with
    | true => simp [ho hoi]
    | false => simp [hzi, hoi] at hi

section
variable (h : Agrees k v x)
include h

theorem Agrees.and_const (c : BitVec w) :
    Agrees ((~~~c ||| ~~~v &&& k) ||| (c &&& v &&& k))
      ((~~~(~~~c ||| ~~~v &&& k) ||| (c &&& v &&& k)) &&&
        ((~~~c ||| ~~~v &&& k) ||| (c &&& v &&& k))) (x &&& c) := by
  refine agrees_zeros_ones (fun i hi => ?_) (fun i hi => ?_)
  · simp only [getLsbD_or, getLsbD_and, getLsbD_not, or_eq_true,
      and_eq_true, not_eq_true'] at hi ⊢
    rcases hi with ⟨-, hc⟩ | ⟨⟨-, hv⟩, hk⟩
    · rw [hc, Bool.and_false]
    · rw [← h i hk, hv, Bool.false_and]
  · simp only [getLsbD_and, and_eq_true] at hi ⊢
    exact ⟨(h i hi.2).symm.trans hi.1.2, hi.1.1⟩

theorem Agrees.or (h' : Agrees k' v' y) :
    Agrees ((~~~v' &&& k' &&& (~~~v &&& k)) ||| (v' &&& k' ||| v &&& k))
      ((~~~(~~~v' &&& k' &&& (~~~v &&& k)) ||| (v' &&& k' ||| v &&& k)) &&&
        ((~~~v' &&& k' &&& (~~~v &&& k)) ||| (v' &&& k' ||| v &&& k))) (x ||| y) := by
  refine agrees_zeros_ones (fun i hi => ?_) (fun i hi => ?_)
  · simp only [getLsbD_or, getLsbD_and, getLsbD_not, and_eq_true,
      not_eq_true'] at hi ⊢
    obtain ⟨⟨⟨-, hv'⟩, hk'⟩, ⟨-, hv⟩, hk⟩ := hi
    rw [← h i hk, ← h' i hk', hv, hv', Bool.or_false]
  · simp only [getLsbD_or, getLsbD_and, or_eq_true, and_eq_true] at hi ⊢
    rcases hi with ⟨hv', hk'⟩ | ⟨hv, hk⟩
    · exact .inr ((h' i hk').symm.trans hv')
    · exact .inl ((h i hk).symm.trans hv)

theorem Agrees.or_const (c : BitVec w) :
    Agrees ((~~~c &&& (~~~v &&& k)) ||| (c ||| v &&& k))
      ((~~~(~~~c &&& (~~~v &&& k)) ||| (c ||| v &&& k)) &&&
        ((~~~c &&& (~~~v &&& k)) ||| (c ||| v &&& k))) (x ||| c) := by
  have hor := h.or (agrees_all.mpr (Eq.refl c))
  rwa [and_allOnes, and_allOnes] at hor

theorem Agrees.double : Agrees (k <<< 1 ||| 1#w) (v <<< 1) (x + x) := by
  have hdouble : x + x = x <<< 1 := by
    apply eq_of_toNat_eq
    simp [Nat.shiftLeft_eq, Nat.mul_two]
  intro i hi
  rw [hdouble]
  simp only [getLsbD_or, getLsbD_shiftLeft, getLsbD_one, or_eq_true,
    and_eq_true, decide_eq_true_eq, not_eq_true', decide_eq_false_iff_not] at hi ⊢
  rcases hi with ⟨⟨hlt, hpos⟩, hk⟩ | ⟨hw, hzero⟩
  · rw [h _ hk]
  · simp [hzero]

theorem Agrees.setLow : Agrees (k ||| 1#w) (v ||| 1#w) (x ||| 1#w) := by
  intro i hi
  simp only [getLsbD_or, or_eq_true] at hi ⊢
  rcases hi with hk | hone
  · rw [h i hk]
  · rw [hone, Bool.or_true, Bool.or_true]

theorem Agrees.forgetLow : Agrees (k &&& ~~~1#w) v (x ||| 1#w) := by
  intro i hi
  simp only [getLsbD_or, getLsbD_and, getLsbD_not, and_eq_true,
    not_eq_true'] at hi ⊢
  rw [h i hi.1, hi.2.2, Bool.or_false]

end

/-! ## Shifts -/

variable {n : Nat}

theorem getLsbD_lowMask (lt : n < w) (i : Nat) :
    ((1#w <<< n) - 1#w).getLsbD i = decide (i < n) := by
  have hpow : 2 ^ n < 2 ^ w := Nat.pow_lt_pow_right (by decide) lt
  have hone : (1#w).toNat = 1 := by
    rw [toNat_ofNat]
    exact Nat.mod_eq_of_lt (Nat.one_lt_two_pow (by omega))
  have hshift : (1#w <<< n).toNat = 2 ^ n := by
    rw [toNat_shiftLeft, hone, Nat.shiftLeft_eq, one_mul, Nat.mod_eq_of_lt hpow]
  have hle : 1#w ≤ 1#w <<< n := by
    rw [le_def, hone, hshift]
    exact Nat.one_le_two_pow
  rw [getLsbD, toNat_sub_of_le hle, hone, hshift, Nat.testBit_two_pow_sub_one]

theorem agrees_shiftLeft (lt : n < w) (x : BitVec w) :
    Agrees ((1#w <<< n) - 1#w) 0#w (x <<< n) := by
  intro i hi
  rw [getLsbD_lowMask lt, decide_eq_true_eq] at hi
  simp [hi]

theorem getLsbD_highMask (lt : n < w) (i : Nat) :
    (~~~((1#w <<< (w - 1 - n)) - 1#w)).getLsbD i = true ↔ i < w ∧ w - 1 - n ≤ i := by
  rw [getLsbD_not, getLsbD_lowMask (by omega)]
  simp

theorem agrees_sshiftRight_iff (lt : n < w) (x : BitVec w) :
    Agrees (~~~((1#w <<< (w - 1 - n)) - 1#w)) 0#w (x.sshiftRight n) ↔ x.getLsbD (w - 1) = false := by
  have hmsb : x.msb = x.getLsbD (w - 1) := msb_eq_getLsbD_last x
  constructor
  · intro h
    have hlast := h (w - 1 - n) ((getLsbD_highMask lt _).mpr ⟨by omega, le_refl _⟩)
    rw [getLsbD_sshiftRight, show n + (w - 1 - n) = w - 1 by omega] at hlast
    simpa [show w - 1 - n < w by omega, show w - 1 < w by omega] using hlast
  · intro hzero i hi
    obtain ⟨hlt, hle⟩ := (getLsbD_highMask lt i).mp hi
    rw [getLsbD_sshiftRight, hmsb, hzero]
    by_cases hin : n + i < w
    · rw [show n + i = w - 1 by omega, hzero]
      simp
    · simp [hin]

theorem agrees_ushiftRight_iff (lt : n < w) (x : BitVec w) :
    Agrees (~~~((1#w <<< (w - 1 - n)) - 1#w)) 0#w (x >>> n) ↔ x.getLsbD (w - 1) = false := by
  constructor
  · intro h
    have hlast := h (w - 1 - n) ((getLsbD_highMask lt _).mpr ⟨by omega, le_refl _⟩)
    rw [getLsbD_ushiftRight, show n + (w - 1 - n) = w - 1 by omega] at hlast
    simpa using hlast
  · intro hzero i hi
    obtain ⟨hlt, hle⟩ := (getLsbD_highMask lt i).mp hi
    rw [getLsbD_ushiftRight, getLsbD_zero]
    by_cases hin : n + i < w
    · rw [show n + i = w - 1 by omega, hzero]
    · exact (getLsbD_of_ge x _ (by omega)).symm

end KnownBits
