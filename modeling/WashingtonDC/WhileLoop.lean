/-!
# Loops that run as long as their body succeeds

The body of a loop answers whether it succeeded. With a measure that each success lowers, a loop
with more fuel than the measure has ended because its body failed.
-/
namespace WhileLoop

universe u

variable {σ : Type u} {body : σ → Bool × σ}

def whileTrue (body : σ → Bool × σ) : Nat → σ → σ
  | 0, s => s
  | fuel + 1, s =>
    match body s with
    | (true, s') => whileTrue body fuel s'
    | (false, s') => s'

theorem whileTrue_invariant {I : σ → Prop} (each : ∀ {s}, I s → I (body s).2) {s : σ} {fuel : Nat}
    (inv : I s) : I (whileTrue body fuel s) := by
  induction fuel generalizing s with
  | zero => exact inv
  | succ fuel ih =>
    have hbody := each inv
    rw [whileTrue]
    split
    · rename_i s' hs
      rw [hs] at hbody
      exact ih hbody
    · rename_i s' hs
      rw [hs] at hbody
      exact hbody

theorem whileTrue_exits (body : σ → Bool × σ) (fuel : Nat) {I : σ → Prop} {μ : σ → Nat}
    (each : ∀ {s s'}, I s → body s = (true, s') → I s' ∧ μ s' < μ s) {s : σ} (inv : I s) (enough : μ s < fuel) :
    ∃ t, I t ∧ body t = (false, whileTrue body fuel s) := by
  induction fuel generalizing s with
  | zero => exact absurd enough (Nat.not_lt_zero _)
  | succ fuel ih =>
    cases hbody : body s with
    | mk ok s' =>
      cases ok with
      | true =>
        obtain ⟨inv', hlt⟩ := each inv hbody
        obtain ⟨t, ht, hexit⟩ := ih inv' (by omega)
        refine ⟨t, ht, ?_⟩
        rw [whileTrue, hbody]
        exact hexit
      | false =>
        refine ⟨s, inv, ?_⟩
        rw [whileTrue, hbody]

end WhileLoop
