import Mathlib.Data.List.Basic

/-!
# Machines that run in lockstep

A machine answers an action with an observation and its next state, or stops with an error.
Two machines that keep a relation for one action make the same observations for any list of
actions. Keeping the relation may depend on what the second machine observes; the condition then
has to hold for all observations of its run.
-/
namespace Lockstep

open List

universe u v w x

variable {α : Type u} {ο : Type v} {σ : Type w} {τ : Type x}

/-- The observations of a run and the state it ends in, unless it stops with an error. -/
def run (step : σ → α → Option (ο × σ)) (s : σ) : List α → List ο × Option σ
  | [] => ([], some s)
  | a :: as =>
    match step s a with
    | none => ([], none)
    | some (o, s') => (o :: (run step s' as).1, (run step s' as).2)

/-- Both machines stop, or both go on with the same observation to related states. -/
inductive Agree (R : σ → τ → Prop) : Option (ο × σ) → Option (ο × τ) → Prop
  | stop : Agree R none none
  | step {o : ο} {s : σ} {t : τ} (rel : R s t) : Agree R (some (o, s)) (some (o, t))

section
variable {stepS : σ → α → Option (ο × σ)} {stepT : τ → α → Option (ο × τ)}
  {R : σ → τ → Prop} {P : ο → Prop}

theorem run_lockstep
    (sim : ∀ {s t a}, R s t → (∀ o t', stepT t a = some (o, t') → P o) →
      Agree R (stepS s a) (stepT t a))
    {s : σ} {t : τ} {as : List α} (rel : R s t) (allowed : ∀ o ∈ (run stepT t as).1, P o) :
    (run stepS s as).1 = (run stepT t as).1 := by
  induction as generalizing s t with
  | nil => rfl
  | cons a as ih =>
    -- The observation of the first action is the head of the run.
    have hfirst : ∀ o t', stepT t a = some (o, t') → P o := by
      intro o t' hstep
      apply allowed
      simp [run, hstep]
    have hagree := sim rel hfirst
    cases hs : stepS s a with
    | none =>
      rw [hs] at hagree
      cases ht : stepT t a with
      | none => simp [run, hs, ht]
      | some r => rw [ht] at hagree; cases hagree
    | some r =>
      rw [hs] at hagree
      cases ht : stepT t a with
      | none => rw [ht] at hagree; cases hagree
      | some r' =>
        rw [ht] at hagree
        cases hagree with
        | step rel' =>
          simp only [run, hs, ht, List.cons.injEq, true_and] at allowed ⊢
          exact ih rel' fun o ho => allowed o (mem_cons_of_mem _ ho)
end

variable {step : σ → α → Option (ο × σ)} {I : σ → Prop} {P Q : ο → Prop} {s t : σ}
  {as : List α} {os : List ο}

theorem run_cons {a : α} (h : run step s (a :: as) = (os, some t)) :
    ∃ o s' os', step s a = some (o, s') ∧ o :: os' = os ∧ run step s' as = (os', some t) := by
  cases hstep : step s a with
  | none => simp [run, hstep] at h
  | some r =>
    simp only [run, hstep, Prod.mk.injEq] at h
    exact ⟨r.1, r.2, _, rfl, h.1, Prod.ext rfl h.2⟩

theorem run_invariant (each : ∀ {s a o s'}, step s a = some (o, s') → P o → I s → I s')
    (h : run step s as = (os, some t)) (allowed : ∀ o ∈ os, P o) (start : I s) : I t := by
  induction as generalizing s os with
  | nil =>
    cases h
    exact start
  | cons a as ih =>
    obtain ⟨o, s', os', hstep, rfl, hrest⟩ := run_cons h
    rw [forall_mem_cons] at allowed
    exact ih hrest allowed.2 (each hstep allowed.1 start)

theorem run_observes_of_invariant
    (each : ∀ {s a o s'}, step s a = some (o, s') → P o → I s → Q o ∧ I s')
    (allowed : ∀ o ∈ (run step s as).1, P o) (start : I s) :
    ∀ o ∈ (run step s as).1, Q o := by
  induction as generalizing s with
  | nil => simp [run]
  | cons a as ih =>
    cases hstep : step s a with
    | none => simp [run, hstep]
    | some r =>
      simp only [run, hstep, forall_mem_cons] at allowed ⊢
      obtain ⟨hfirst, hnext⟩ := each hstep allowed.1 start
      exact ⟨hfirst, ih allowed.2 hnext⟩

theorem run_observes (each : ∀ {s a o s'}, step s a = some (o, s') → P o) (s : σ) (as : List α) :
    ∀ o ∈ (run step s as).1, P o :=
  run_observes_of_invariant (I := fun _ => True) (P := fun _ => True)
    (fun hstep _ _ => ⟨each hstep, trivial⟩) (fun _ _ => trivial) trivial

theorem run_observes_iff
    (each : ∀ {s a o s'}, step s a = some (o, s') → I s → (P o ↔ Q o) ∧ (P o → I s')) (start : I s) :
    (∀ o ∈ (run step s as).1, P o) ↔ ∀ o ∈ (run step s as).1, Q o := by
  constructor
  · intro allowed
    refine run_observes_of_invariant (I := I) ?_ allowed start
    intro s a o s' hstep hP hI
    exact ⟨(each hstep hI).1.mp hP, (each hstep hI).2 hP⟩
  · intro allowed
    refine run_observes_of_invariant (I := I) ?_ allowed start
    intro s a o s' hstep hQ hI
    have hP := (each hstep hI).1.mpr hQ
    exact ⟨hP, (each hstep hI).2 hP⟩

section Since

variable {Q : σ → Prop} {S E W : ο → Prop}

section
variable (each : ∀ {s a o s'}, step s a = some (o, s') → I s →
  I s' ∧ (S o → ¬Q s') ∧ (E o → Q s) ∧ (Q s' → Q s ∨ W o))
include each

theorem run_enters (inv : I s) (start : ¬Q s) {during after : List ο} {last : ο}
    (split : (run step s as).1 = during ++ last :: after) (ended : E last) :
    ∃ o ∈ during, W o := by
  induction as generalizing s during with
  | nil => simp [run] at split
  | cons a as ih =>
    cases hstep : step s a with
    | none => simp [run, hstep] at split
    | some r =>
      obtain ⟨o, s'⟩ := r
      obtain ⟨inv', -, hends, henter⟩ := each hstep inv
      simp only [run, hstep] at split
      cases during with
      | nil =>
        obtain ⟨rfl, -⟩ := List.cons.inj split
        exact absurd (hends ended) start
      | cons o' during =>
        obtain ⟨rfl, hrest⟩ := List.cons.inj split
        by_cases hQ : Q s'
        · exact ⟨o, mem_cons_self, (henter hQ).resolve_left start⟩
        · obtain ⟨x, hx, hseen⟩ := ih inv' hQ hrest
          exact ⟨x, mem_cons_of_mem _ hx, hseen⟩

theorem run_since (inv : I s) {before during after : List ο} {first last : ο}
    (split : (run step s as).1 = before ++ first :: (during ++ last :: after)) (started : S first)
    (ended : E last) : ∃ o ∈ during, W o := by
  induction as generalizing s before with
  | nil => simp [run] at split
  | cons a as ih =>
    cases hstep : step s a with
    | none => simp [run, hstep] at split
    | some r =>
      obtain ⟨o, s'⟩ := r
      obtain ⟨inv', hstarts, -, -⟩ := each hstep inv
      simp only [run, hstep] at split
      cases before with
      | nil =>
        obtain ⟨rfl, hrest⟩ := List.cons.inj split
        exact run_enters each inv' (hstarts started) hrest ended
      | cons o' before =>
        obtain ⟨-, hrest⟩ := List.cons.inj split
        exact ih inv' hrest

end

end Since

theorem foldlM_invariant {step : σ → α → Option σ}
    (each : ∀ {s a s'}, a ∈ as → step s a = some s' → I s → I s') (h : as.foldlM step s = some t)
    (start : I s) : I t := by
  induction as generalizing s with
  | nil =>
    cases h
    exact start
  | cons a as ih =>
    rw [foldlM_cons] at h
    obtain ⟨s', hstep, h⟩ := Option.bind_eq_some_iff.mp h
    exact ih (fun ha => each (mem_cons_of_mem _ ha)) h
      (each mem_cons_self hstep start)

theorem foldlM_ok_invariant {ε : Type v} {step : σ → α → Except ε σ}
    (each : ∀ {s a s'}, a ∈ as → step s a = .ok s' → I s → I s') (h : as.foldlM step s = .ok t)
    (start : I s) : I t := by
  induction as generalizing s with
  | nil =>
    cases h
    exact start
  | cons a as ih =>
    rw [foldlM_cons] at h
    cases hstep : step s a with
    | error e =>
      rw [hstep] at h
      cases h
    | ok s' =>
      rw [hstep] at h
      exact ih (fun ha => each (mem_cons_of_mem _ ha)) h
        (each mem_cons_self hstep start)

theorem run_foldl {β : Type x} {f : σ → β} {g : β → ο → β}
    (each : ∀ {s a o s'}, step s a = some (o, s') → P o → f s' = g (f s) o)
    (h : run step s as = (os, some t)) (allowed : ∀ o ∈ os, P o) : f t = os.foldl g (f s) := by
  induction as generalizing s os with
  | nil =>
    cases h
    rfl
  | cons a as ih =>
    obtain ⟨o, s', os', hstep, rfl, hrest⟩ := run_cons h
    rw [forall_mem_cons] at allowed
    rw [foldl_cons, ← each hstep allowed.1]
    exact ih hrest allowed.2

def follow {β : Type x} (next : τ → α → β × τ) (t : τ) : List α → List β
  | [] => []
  | a :: as => (next t a).1 :: follow next (next t a).2 as

theorem run_follow {β : Type x} {next : τ → α → β × τ} {f : ο → β} {R : σ → τ → Prop}
    (sim : ∀ {s t a o s'}, R s t → step s a = some (o, s') → P o → f o = (next t a).1 ∧ R s' (next t a).2)
    {s' : σ} {t : τ} (h : run step s as = (os, some s')) (allowed : ∀ o ∈ os, P o) (start : R s t) :
    os.map f = follow next t as := by
  induction as generalizing s t os with
  | nil =>
    cases h
    rfl
  | cons a as ih =>
    obtain ⟨o, s', os', hstep, rfl, hrest⟩ := run_cons h
    rw [forall_mem_cons] at allowed
    obtain ⟨hout, hrel⟩ := sim start hstep allowed.1
    rw [map_cons, follow, hout]
    exact congrArg _ (ih hrest allowed.2 hrel)

end Lockstep
