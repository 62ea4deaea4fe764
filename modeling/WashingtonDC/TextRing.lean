import WashingtonDC.CircularBuffer
import WashingtonDC.Lockstep
import Mathlib.Algebra.Order.Ring.Nat

/-!
# The ring between two threads

`DEF_RING` of `ring.h`, with any type of elements and any size. One thread produces and one thread
consumes; each access to an index or to a slot of the buffer is one step of its thread, and the
steps of the two threads are interleaved in any way. The loads and stores of the indices are taken
to be sequentially consistent. Indices of a C `int` cannot overflow with a buffer that can be
declared, so they are numbers here.
-/

structure TextRing (α : Type) (log : Nat) where
  prodIdx : Fin (2 ^ log)
  consIdx : Fin (2 ^ log)
  buf : Fin (2 ^ log) → α

namespace TextRing

open Lockstep Nat List

variable {α : Type} {log : Nat}

def nextIdx (i : Fin (2 ^ log)) : Fin (2 ^ log) :=
  ⟨(i.val + 1) &&& (1 <<< log - 1), by
    rw [one_shiftLeft, and_two_pow_sub_one_eq_mod]
    exact mod_lt _ i.pos⟩

theorem nextIdx_eq (i : Fin (2 ^ log)) : nextIdx i = CircularBuffer.next i := by
  apply Fin.ext
  simp only [nextIdx, one_shiftLeft, and_two_pow_sub_one_eq_mod, CircularBuffer.val_next]

def init (ring : TextRing α log) : TextRing α log :=
  { ring with prodIdx := ⟨0, Nat.two_pow_pos log⟩, consIdx := ⟨0, Nat.two_pow_pos log⟩ }

def store (ring : TextRing α log) (i : Fin (2 ^ log)) (val : α) : TextRing α log :=
  { ring with buf := Function.update ring.buf i val }

def produce (ring : TextRing α log) (val : α) : Bool × TextRing α log :=
  if nextIdx ring.prodIdx = ring.consIdx then (false, ring)
  else (true, { ring.store ring.prodIdx val with prodIdx := nextIdx ring.prodIdx })

/-- The next slot to write is the next one to read. -/
abbrev Full (ring : TextRing α log) : Prop := nextIdx ring.prodIdx = ring.consIdx

def consume (ring : TextRing α log) : Option α × TextRing α log :=
  if ring.prodIdx = ring.consIdx then (none, ring)
  else (some (ring.buf ring.consIdx), { ring with consIdx := nextIdx ring.consIdx })

def Holds (ring : TextRing α log) (xs : List α) : Prop :=
  CircularBuffer.Holds ring.buf ring.consIdx ring.prodIdx xs

/-! ## Two threads -/

/-- What `produce` has done, with its local variables. -/
inductive Producer (α : Type) (log : Nat)
  | idle
  | called (val : α)
  | loadedProd (val : α) (prodIdx : Fin (2 ^ log))
  | loadedCons (val : α) (prodIdx consIdx : Fin (2 ^ log))
  | stored (val : α) (nextProdIdx : Fin (2 ^ log))

/-- What `consume` has done. It loads its index twice, the second time for the slot it reads. -/
inductive Consumer (α : Type) (log : Nat)
  | idle
  | called
  | loadedCons (consIdx : Fin (2 ^ log))
  | loadedProd (consIdx prodIdx : Fin (2 ^ log))
  | loadedSlot (nextConsIdx slot : Fin (2 ^ log))
  | loadedVal (nextConsIdx : Fin (2 ^ log)) (val : α)

inductive Return (α : Type)
  | produced (val : α)
  | dropped (val : α)
  | consumed (val : α)
  | empty

/-- The threads, and the values that were accepted and returned so far. -/
structure System (α : Type) (log : Nat) where
  ring : TextRing α log
  producer : Producer α log
  consumer : Consumer α log
  accepted : List α
  returned : List α

inductive Action (α : Type)
  | produce (val : α)
  | producer
  | consume
  | consumer

structure Moved (α : Type) (log : Nat) where
  action : Action α
  before : System α log
  return? : Option (Return α)
  after : System α log

namespace System

variable (s : System α log)

def init (ring : TextRing α log) : System α log := ⟨ring.init, .idle, .idle, [], []⟩

def held : Nat := s.accepted.length - s.returned.length

def stepProducer : Option (Option (Return α) × System α log) :=
  match s.producer with
  | .idle => none
  | .called val => some (none, { s with producer := .loadedProd val s.ring.prodIdx })
  | .loadedProd val prodIdx =>
    some (none, { s with producer := .loadedCons val prodIdx s.ring.consIdx })
  | .loadedCons val prodIdx consIdx =>
    if nextIdx prodIdx = consIdx then some (some (.dropped val), { s with producer := .idle })
    else
      some (none,
        { s with ring := s.ring.store prodIdx val, producer := .stored val (nextIdx prodIdx) })
  | .stored val nextProdIdx =>
    some (some (.produced val),
      { s with ring := { s.ring with prodIdx := nextProdIdx }, producer := .idle,
               accepted := s.accepted ++ [val] })

def stepConsumer : Option (Option (Return α) × System α log) :=
  match s.consumer with
  | .idle => none
  | .called => some (none, { s with consumer := .loadedCons s.ring.consIdx })
  | .loadedCons consIdx => some (none, { s with consumer := .loadedProd consIdx s.ring.prodIdx })
  | .loadedProd consIdx prodIdx =>
    if prodIdx = consIdx then some (some .empty, { s with consumer := .idle })
    else some (none, { s with consumer := .loadedSlot (nextIdx consIdx) s.ring.consIdx })
  | .loadedSlot nextConsIdx slot =>
    some (none, { s with consumer := .loadedVal nextConsIdx (s.ring.buf slot) })
  | .loadedVal nextConsIdx val =>
    some (some (.consumed val),
      { s with ring := { s.ring with consIdx := nextConsIdx }, consumer := .idle,
               returned := s.returned ++ [val] })

def act : Action α → Option (Option (Return α) × System α log)
  | .produce val =>
    match s.producer with
    | .idle => some (none, { s with producer := .called val })
    | _ => none
  | .producer => s.stepProducer
  | .consume =>
    match s.consumer with
    | .idle => some (none, { s with consumer := .called })
    | _ => none
  | .consumer => s.stepConsumer

def step (a : Action α) : Option (Moved α log × System α log) :=
  (s.act a).map fun r => (⟨a, s, r.1, r.2⟩, r.2)

end System

/-! ## Calls without interleaving -/

theorem Holds.init (ring : TextRing α log) : ring.init.Holds [] := CircularBuffer.Holds.empty _ _

variable {ring : TextRing α log}

variable {xs : List α}

theorem Holds.length_lt (holds : ring.Holds xs) :
    xs.length < 2 ^ log := holds.free

theorem Holds.full_iff (holds : ring.Holds xs) : ring.Full ↔ xs.length + 1 = 2 ^ log := by
  rw [Full, nextIdx_eq]
  exact holds.next_eq_iff_full

theorem Holds.produce_full (holds : ring.Holds xs) (full : xs.length + 1 = 2 ^ log) (val : α) :
    ring.produce val = (false, ring) :=
  if_pos (holds.full_iff.mpr full)

theorem Holds.produce (holds : ring.Holds xs) (room : xs.length + 1 ≠ 2 ^ log) (val : α) :
    (ring.produce val).1 = true ∧ (ring.produce val).2.Holds (xs ++ [val]) := by
  have hnext : ¬nextIdx ring.prodIdx = ring.consIdx := fun h => room (holds.full_iff.mp h)
  rw [TextRing.produce, if_neg hnext]
  refine ⟨rfl, ?_⟩
  have hstore := CircularBuffer.Holds.store holds val
  have hpush := hstore.push (Function.update_self ..) (Nat.lt_of_le_of_ne holds.free room)
  rw [← nextIdx_eq] at hpush
  exact hpush

theorem Holds.consume_nil (holds : ring.Holds []) : ring.consume = (none, ring) :=
  if_pos (holds.eq_iff_nil.mpr rfl)

theorem Holds.consume_cons {x : α} (holds : ring.Holds (x :: xs)) :
    ring.consume.1 = some x ∧ ring.consume.2.Holds xs := by
  have hne : ring.prodIdx ≠ ring.consIdx := by
    intro h
    cases holds.eq_iff_nil.mp h
  rw [TextRing.consume, if_neg hne]
  refine ⟨congrArg some holds.get_head, ?_⟩
  have hpop := CircularBuffer.Holds.pop holds
  rw [← nextIdx_eq] at hpop
  exact hpop

theorem produce_alone (s : System α log) (idle : s.producer = .idle) (val : α) :
    ∃ k moves s', run System.step s (.produce val :: replicate k .producer) =
        (moves, some s') ∧
      s'.ring = (s.ring.produce val).2 ∧
      moves.getLast?.bind Moved.return? =
        some (if (s.ring.produce val).1 then .produced val else .dropped val) := by
  obtain ⟨ring, producer, consumer, accepted, returned⟩ := s
  cases idle
  by_cases hfull : nextIdx ring.prodIdx = ring.consIdx
  · refine ⟨3, ?_⟩
    simp [run, System.step, System.act, System.stepProducer, replicate, produce,
      hfull]
  · refine ⟨4, ?_⟩
    simp [run, System.step, System.act, System.stepProducer, replicate, produce,
      hfull]

/-! ## What holds between any two steps -/

/-- What the producer has loaded is still so, or it gives a bound that consuming keeps. -/
def Producer.Knows (ring : TextRing α log) (xs : List α) : Producer α log → Prop
  | .idle => True
  | .called _ => True
  | .loadedProd _ prodIdx => prodIdx = ring.prodIdx
  | .loadedCons _ prodIdx consIdx =>
    prodIdx = ring.prodIdx ∧ (nextIdx prodIdx ≠ consIdx → xs.length + 1 < 2 ^ log)
  | .stored val nextProdIdx =>
    nextProdIdx = nextIdx ring.prodIdx ∧ ring.buf ring.prodIdx = val ∧ xs.length + 1 < 2 ^ log

/-- What the consumer has loaded is still so, or it gives a value that producing keeps. -/
def Consumer.Knows (ring : TextRing α log) (xs : List α) : Consumer α log → Prop
  | .idle => True
  | .called => True
  | .loadedCons consIdx => consIdx = ring.consIdx
  | .loadedProd consIdx prodIdx => consIdx = ring.consIdx ∧ (prodIdx ≠ consIdx → xs ≠ [])
  | .loadedSlot nextConsIdx slot =>
    nextConsIdx = nextIdx ring.consIdx ∧ slot = ring.consIdx ∧ xs ≠ []
  | .loadedVal nextConsIdx val =>
    nextConsIdx = nextIdx ring.consIdx ∧ ∃ rest, xs = val :: rest

theorem Producer.Knows.pop {x : α} {p : Producer α log} (knows : p.Knows ring (x :: xs))
    (consIdx : Fin (2 ^ log)) :
    p.Knows { ring with consIdx := consIdx } xs := by
  cases p with
  | idle => trivial
  | called val => trivial
  | loadedProd val prodIdx => exact knows
  | loadedCons val prodIdx consIdx =>
    exact ⟨knows.1, fun h => lt_of_succ_lt (knows.2 h)⟩
  | stored val nextProdIdx => exact ⟨knows.1, knows.2.1, lt_of_succ_lt knows.2.2⟩

variable {c : Consumer α log} {actions : List (Action α)}

theorem Consumer.Knows.push (knows : c.Knows ring xs) (prodIdx : Fin (2 ^ log)) (val : α) :
    c.Knows { ring with prodIdx := prodIdx } (xs ++ [val]) := by
  cases c with
  | idle => trivial
  | called => trivial
  | loadedCons consIdx => exact knows
  | loadedProd consIdx prodIdx => exact ⟨knows.1, fun _ => concat_ne_nil val xs⟩
  | loadedSlot nextConsIdx slot => exact ⟨knows.1, knows.2.1, concat_ne_nil val xs⟩
  | loadedVal nextConsIdx x =>
    obtain ⟨hnext, rest, rfl⟩ := knows
    exact ⟨hnext, rest ++ [val], rfl⟩

theorem Consumer.Knows.store (knows : c.Knows ring xs) (i : Fin (2 ^ log)) (val : α) :
    c.Knows (ring.store i val) xs := by
  cases c <;> exact knows

namespace System

/-- The ring holds what was accepted and not returned. -/
structure Inv (s : System α log) (xs : List α) : Prop where
  accepted : s.accepted = s.returned ++ xs
  holds : s.ring.Holds xs
  producer : s.producer.Knows s.ring xs
  consumer : s.consumer.Knows s.ring xs

variable {s s' : System α log} {r : Option (Return α)}

theorem inv_init (ring : TextRing α log) : (init ring).Inv [] where
  accepted := rfl
  holds := Holds.init ring
  producer := trivial
  consumer := trivial

theorem Inv.held_eq (inv : s.Inv xs) : s.held = xs.length := by
  rw [held, inv.accepted, length_append, Nat.add_sub_cancel_left]

theorem Inv.stepProducer (inv : s.Inv xs) (h : s.stepProducer = some (r, s')) :
    ∃ xs', s'.Inv xs' := by
  obtain ⟨ring, producer, consumer, accepted, returned⟩ := s
  obtain ⟨haccepted, hholds, hproducer, hconsumer⟩ := inv
  dsimp only at haccepted hholds hproducer hconsumer
  cases producer with
  | idle => cases h
  | called val =>
    cases h
    exact ⟨xs, haccepted, hholds, rfl, hconsumer⟩
  | loadedProd val prodIdx =>
    cases h
    refine ⟨xs, haccepted, hholds, ⟨hproducer, ?_⟩, hconsumer⟩
    intro hne
    apply Nat.lt_of_le_of_ne hholds.free
    intro hfull
    apply hne
    rw [show prodIdx = ring.prodIdx from hproducer]
    exact hholds.full_iff.mpr hfull
  | loadedCons val prodIdx consIdx =>
    obtain ⟨hprod, hroom⟩ := hproducer
    simp only [System.stepProducer] at h
    split at h
    · cases h
      exact ⟨xs, haccepted, hholds, trivial, hconsumer⟩
    · rename_i hne
      cases h
      subst hprod
      exact ⟨xs, haccepted, CircularBuffer.Holds.store hholds val,
        ⟨rfl, Function.update_self .., hroom hne⟩, hconsumer.store _ val⟩
  | stored val nextProdIdx =>
    cases h
    obtain ⟨hnext, hval, hroom⟩ := hproducer
    refine ⟨xs ++ [val], ?_, ?_, trivial, hconsumer.push nextProdIdx val⟩
    · rw [haccepted, append_assoc]
    · rw [nextIdx_eq] at hnext
      subst hnext
      exact CircularBuffer.Holds.push hholds hval hroom

theorem Inv.stepConsumer (inv : s.Inv xs) (h : s.stepConsumer = some (r, s')) :
    ∃ xs', s'.Inv xs' := by
  obtain ⟨ring, producer, consumer, accepted, returned⟩ := s
  obtain ⟨haccepted, hholds, hproducer, hconsumer⟩ := inv
  dsimp only at haccepted hholds hproducer hconsumer
  cases consumer with
  | idle => cases h
  | called =>
    cases h
    exact ⟨xs, haccepted, hholds, hproducer, rfl⟩
  | loadedCons consIdx =>
    cases h
    refine ⟨xs, haccepted, hholds, hproducer, ⟨hconsumer, ?_⟩⟩
    intro hne hnil
    apply hne
    rw [show consIdx = ring.consIdx from hconsumer]
    exact hholds.eq_iff_nil.mpr hnil
  | loadedProd consIdx prodIdx =>
    obtain ⟨hcons, hsome⟩ := hconsumer
    simp only [System.stepConsumer] at h
    split at h
    · cases h
      exact ⟨xs, haccepted, hholds, hproducer, trivial⟩
    · rename_i hne
      cases h
      subst hcons
      exact ⟨xs, haccepted, hholds, hproducer, rfl, rfl, hsome hne⟩
  | loadedSlot nextConsIdx slot =>
    cases h
    obtain ⟨hnext, hslot, hsome⟩ := hconsumer
    obtain ⟨x, rest, rfl⟩ := exists_cons_of_ne_nil hsome
    refine ⟨x :: rest, haccepted, hholds, hproducer, hnext, rest, ?_⟩
    rw [hslot, show ring.buf ring.consIdx = x from hholds.get_head]
  | loadedVal nextConsIdx val =>
    cases h
    obtain ⟨hnext, rest, rfl⟩ := hconsumer
    refine ⟨rest, ?_, ?_, hproducer.pop nextConsIdx, trivial⟩
    · rw [haccepted, append_assoc, singleton_append]
    · rw [nextIdx_eq] at hnext
      subst hnext
      exact CircularBuffer.Holds.pop hholds

variable {a : Action α}

theorem Inv.act (inv : s.Inv xs) (h : s.act a = some (r, s')) :
    ∃ xs', s'.Inv xs' := by
  cases a with
  | produce val =>
    simp only [System.act] at h
    split at h
    · cases h
      exact ⟨xs, inv.accepted, inv.holds, trivial, inv.consumer⟩
    · cases h
  | producer => exact inv.stepProducer h
  | consume =>
    simp only [System.act] at h
    split at h
    · cases h
      exact ⟨xs, inv.accepted, inv.holds, inv.producer, trivial⟩
    · cases h
  | consumer => exact inv.stepConsumer h

/-! ## Failed calls -/

def Dropping (s : System α log) : Prop :=
  match s.producer with
  | .loadedCons _ prodIdx consIdx => nextIdx prodIdx = consIdx
  | _ => False

def Missing (s : System α log) : Prop :=
  match s.consumer with
  | .loadedProd consIdx prodIdx => prodIdx = consIdx
  | _ => False

theorem Inv.stepProducer_fails (inv : s.Inv xs) (h : s.stepProducer = some (r, s')) :
    s'.consumer = s.consumer ∧ r ≠ some .empty ∧
      ((∃ val, r = some (.dropped val)) → s.Dropping) ∧ (s'.Dropping → s.held = 2 ^ log - 1) := by
  have hheld := inv.held_eq
  obtain ⟨ring, producer, consumer, accepted, returned⟩ := s
  obtain ⟨haccepted, hholds, hproducer, hconsumer⟩ := inv
  dsimp only at hholds hproducer
  cases producer with
  | idle => cases h
  | called _ | stored _ _ =>
    cases h
    exact ⟨rfl, nofun, nofun, False.elim⟩
  | loadedProd val prodIdx =>
    cases h
    refine ⟨rfl, nofun, nofun, ?_⟩
    intro hnext
    change nextIdx prodIdx = ring.consIdx at hnext
    rw [show prodIdx = ring.prodIdx from hproducer] at hnext
    rw [hheld, ← hholds.full_iff.mp hnext, Nat.add_sub_cancel]
  | loadedCons val prodIdx consIdx =>
    simp only [System.stepProducer] at h
    split at h
    · cases h
      exact ⟨rfl, nofun, fun _ => by assumption, False.elim⟩
    · cases h
      exact ⟨rfl, nofun, nofun, False.elim⟩

theorem Inv.stepConsumer_fails (inv : s.Inv xs) (h : s.stepConsumer = some (r, s')) :
    s'.producer = s.producer ∧ (∀ val, r ≠ some (.dropped val)) ∧
      (r = some .empty → s.Missing) ∧ (s'.Missing → s.held = 0) := by
  have hheld := inv.held_eq
  obtain ⟨ring, producer, consumer, accepted, returned⟩ := s
  obtain ⟨haccepted, hholds, hproducer, hconsumer⟩ := inv
  dsimp only at hholds hconsumer
  cases consumer with
  | idle => cases h
  | called | loadedSlot _ _ | loadedVal _ _ =>
    cases h
    exact ⟨rfl, nofun, nofun, False.elim⟩
  | loadedCons consIdx =>
    cases h
    refine ⟨rfl, nofun, nofun, ?_⟩
    intro heq
    change ring.prodIdx = consIdx at heq
    rw [show consIdx = ring.consIdx from hconsumer] at heq
    rw [hheld, hholds.eq_iff_nil.mp heq, length_nil]
  | loadedProd consIdx prodIdx =>
    simp only [System.stepConsumer] at h
    split at h
    · cases h
      exact ⟨rfl, nofun, fun _ => by assumption, False.elim⟩
    · cases h
      exact ⟨rfl, nofun, nofun, False.elim⟩

theorem Dropping.congr (h : s'.producer = s.producer) : s'.Dropping ↔ s.Dropping := by
  rw [Dropping, Dropping, h]

theorem Missing.congr (h : s'.consumer = s.consumer) : s'.Missing ↔ s.Missing := by
  rw [Missing, Missing, h]

theorem Inv.dropping_of_act (inv : s.Inv xs) (h : s.act a = some (r, s')) :
    ((∃ val, a = .produce val) → ¬s'.Dropping) ∧
      ((∃ val, r = some (.dropped val)) → s.Dropping) ∧
      (s'.Dropping → s.Dropping ∨ s.held = 2 ^ log - 1) := by
  cases a with
  | produce val =>
    simp only [System.act] at h
    split at h
    · cases h
      exact ⟨fun _ => id, nofun, False.elim⟩
    · cases h
  | producer =>
    obtain ⟨-, -, hdrop, hfull⟩ := inv.stepProducer_fails h
    exact ⟨nofun, hdrop, fun h => .inr (hfull h)⟩
  | consume =>
    simp only [System.act] at h
    split at h
    · cases h
      exact ⟨nofun, nofun, .inl⟩
    · cases h
  | consumer =>
    obtain ⟨hsame, hdrop, -, -⟩ := inv.stepConsumer_fails h
    refine ⟨nofun, ?_, fun h => .inl ((Dropping.congr hsame).mp h)⟩
    rintro ⟨val, hval⟩
    exact absurd hval (hdrop val)

theorem Inv.missing_of_act (inv : s.Inv xs) (h : s.act a = some (r, s')) :
    (a = .consume → ¬s'.Missing) ∧ (r = some .empty → s.Missing) ∧
      (s'.Missing → s.Missing ∨ s.held = 0) := by
  cases a with
  | produce val =>
    simp only [System.act] at h
    split at h
    · cases h
      exact ⟨nofun, nofun, .inl⟩
    · cases h
  | producer =>
    obtain ⟨hsame, hmiss, -, -⟩ := inv.stepProducer_fails h
    refine ⟨nofun, ?_, fun h => .inl ((Missing.congr hsame).mp h)⟩
    intro hempty
    exact absurd hempty hmiss
  | consume =>
    simp only [System.act] at h
    split at h
    · cases h
      exact ⟨fun _ => id, nofun, False.elim⟩
    · cases h
  | consumer =>
    obtain ⟨-, -, hmiss, hempty⟩ := inv.stepConsumer_fails h
    exact ⟨nofun, hmiss, fun h => .inr (hempty h)⟩

end System

/-! ## Every interleaving -/

def trace (ring : TextRing α log) (actions : List (Action α)) : List (Moved α log) :=
  (run System.step (System.init ring) actions).1

/-- What was returned is the beginning of what was accepted, and a slot is free. -/
def Moved.Fifo (m : Moved α log) : Prop :=
  m.after.returned <+: m.after.accepted ∧ m.after.held ≤ 2 ^ log - 1

theorem fifo_of_trace (ring : TextRing α log) (actions : List (Action α)) :
    ∀ m ∈ trace ring actions, m.Fifo := by
  refine run_observes_of_invariant (P := fun _ => True)
    (I := fun s => ∃ xs, s.Inv xs) ?_ (fun _ _ => trivial) ⟨[], System.inv_init ring⟩
  rintro s a m s' hstep - ⟨xs, inv⟩
  obtain ⟨⟨r, t⟩, hact, hmoved⟩ := Option.map_eq_some_iff.mp hstep
  cases hmoved
  obtain ⟨xs', inv'⟩ := inv.act hact
  refine ⟨⟨⟨xs', inv'.accepted.symm⟩, ?_⟩, xs', inv'⟩
  rw [inv'.held_eq]
  exact le_sub_one_of_lt inv'.holds.length_lt

/-- The ring is a queue of at most `2 ^ log - 1` values, for every interleaving. A call that fails
has found the ring full, or empty, after any call before it, and so after its own. -/
theorem trace_linearizable (ring : TextRing α log) (actions : List (Action α)) :
    (∀ m ∈ trace ring actions, m.Fifo) ∧
      (∀ before call during last after,
        trace ring actions = before ++ call :: (during ++ last :: after) →
        (∃ val, call.action = .produce val) → (∃ val, last.return? = some (.dropped val)) →
          ∃ m ∈ during, m.before.held = 2 ^ log - 1) ∧
      ∀ before call during last after,
        trace ring actions = before ++ call :: (during ++ last :: after) →
        call.action = .consume → last.return? = some .empty → ∃ m ∈ during, m.before.held = 0 := by
  refine ⟨fifo_of_trace ring actions, ?_, ?_⟩
  · intro before call during last after split called failed
    refine run_since (I := fun s => ∃ xs, s.Inv xs) (Q := System.Dropping)
      (S := fun m => ∃ val, m.action = .produce val)
      (E := fun m => ∃ val, m.return? = some (.dropped val))
      ?_ ⟨[], System.inv_init ring⟩ split called failed
    rintro s a m s' hstep ⟨xs, inv⟩
    obtain ⟨⟨r, t⟩, hact, hmoved⟩ := Option.map_eq_some_iff.mp hstep
    cases hmoved
    exact ⟨inv.act hact, inv.dropping_of_act hact⟩
  · intro before call during last after split called failed
    refine run_since (I := fun s => ∃ xs, s.Inv xs) (Q := System.Missing)
      (S := fun m => m.action = .consume) (E := fun m => m.return? = some .empty)
      ?_ ⟨[], System.inv_init ring⟩ split called failed
    rintro s a m s' hstep ⟨xs, inv⟩
    obtain ⟨⟨r, t⟩, hact, hmoved⟩ := Option.map_eq_some_iff.mp hstep
    cases hmoved
    exact ⟨inv.act hact, inv.missing_of_act hact⟩

/-- The second of two values is dropped by a ring with one free slot. -/
theorem trace_linearizable_dropped :
    let ms := trace (⟨0, 0, fun _ => 0⟩ : TextRing Nat 1)
      (.produce 1 :: replicate 4 .producer ++ .produce 2 :: replicate 3 .producer)
    ms.getLast?.bind Moved.return? = some (.dropped 2) ∧
      ∃ m ∈ (ms.drop 6).take 2, m.before.held = 1 := by
  intro ms
  exact ⟨rfl, (trace_linearizable _ _).2.1 (ms.take 5) (ms.get ⟨5, by decide⟩) _
    (ms.get ⟨8, by decide⟩) [] (rfl : ms = _) ⟨2, rfl⟩ ⟨2, rfl⟩⟩

end TextRing
