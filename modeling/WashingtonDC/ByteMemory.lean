import Mathlib.Tactic.Ring

/-!
# Byte-addressed memory with little-endian words

Words of any width are read from and written to a memory of bytes, and bytes are copied from one
memory to another. A write is visible to a read of the same word and invisible to a read of bytes
that it does not cover; nothing is said about accesses that overlap in part.
-/
namespace ByteMemory

open List Nat

abbrev Memory := Nat → UInt8

/-- The word of `n` bytes at address `a`. -/
def load (mem : Memory) (a : Nat) : Nat → Nat
  | 0 => 0
  | n + 1 => (mem a).toNat + 256 * load mem (a + 1) n

def store (mem : Memory) (a n v : Nat) : Memory := fun x =>
  if a ≤ x ∧ x < a + n then UInt8.ofNat (v / 256 ^ (x - a)) else mem x

def fill (mem : Memory) (a n : Nat) (b : UInt8) : Memory := fun x =>
  if a ≤ x ∧ x < a + n then b else mem x

/-- The memory `dst` with the `n` bytes at address `a` taken from address `b` of `src`. -/
def copy (dst : Memory) (a : Nat) (src : Memory) (b n : Nat) : Memory := fun x =>
  if a ≤ x ∧ x < a + n then src (b + (x - a)) else dst x

theorem load_lt (mem : Memory) (a n : Nat) : load mem a n < 256 ^ n := by
  induction n generalizing a with
  | zero => simp [load]
  | succ n ih =>
    have hbyte := (mem a).toNat_lt
    have hrest := ih (a + 1)
    simp only [load, pow_succ]
    omega

variable {mem mem' : Memory} {a n k : Nat}

theorem load_congr (same : ∀ x, a ≤ x → x < a + n → mem' x = mem x) :
    load mem' a n = load mem a n := by
  induction n generalizing a with
  | zero => rfl
  | succ n ih =>
    simp only [load]
    rw [same a (le_refl a) (by omega), ih fun x hx hx' => same x (by omega) (by omega)]

variable {v x : Nat}

theorem store_outside (mem : Memory) (outside : x < a ∨ a + n ≤ x) : store mem a n v x = mem x :=
  if_neg (by omega)

theorem fill_outside (mem : Memory) {b : UInt8} (outside : x < a ∨ a + n ≤ x) :
    fill mem a n b x = mem x :=
  if_neg (by omega)

theorem copy_congr {src src' : Memory} {b n : Nat} (dst : Memory) (a : Nat)
    (same : ∀ i < n, src' (b + i) = src (b + i)) : copy dst a src' b n = copy dst a src b n := by
  funext x
  by_cases h : a ≤ x ∧ x < a + n
  · simp only [copy, if_pos h]
    exact same (x - a) (by omega)
  · simp only [copy, if_neg h]

variable {b : Nat}

theorem load_store_ne (mem : Memory) (apart : b + k ≤ a ∨ a + n ≤ b) :
    load (store mem a n v) b k = load mem b k :=
  load_congr fun _ hx hx' => store_outside mem (by omega)

theorem load_fill_ne (mem : Memory) {c : UInt8} (apart : b + k ≤ a ∨ a + n ≤ b) :
    load (fill mem a n c) b k = load mem b k :=
  load_congr fun _ hx hx' => fill_outside mem (by omega)

theorem load_digits (digits : ∀ i < n, mem (a + i) = UInt8.ofNat (v / 256 ^ i)) :
    load mem a n = v % 256 ^ n := by
  induction n generalizing a v with
  | zero => simp [load, mod_one]
  | succ n ih =>
    have hrest : load mem (a + 1) n = v / 256 % 256 ^ n := by
      refine ih fun i hi => ?_
      have := digits (i + 1) (by omega)
      rw [Nat.div_div_eq_div_mul, ← pow_succ', add_assoc, add_comm 1 i]
      exact this
    have hfirst : (mem a).toNat = v % 256 := by
      have := digits 0 (by omega)
      rw [add_zero, pow_zero, Nat.div_one] at this
      rw [this, UInt8.toNat_ofNat']
    simp only [load]
    rw [hfirst, hrest, pow_succ', mod_mul]

theorem load_store_same (mem : Memory) (a : Nat) (fits : v < 256 ^ n) :
    load (store mem a n v) a n = v := by
  rw [load_digits (v := v), mod_eq_of_lt fits]
  intro i hi
  simp only [store]
  rw [if_pos (by omega), Nat.add_sub_cancel_left]

theorem load_zero (zero : ∀ x, a ≤ x → mem x = 0) : load mem a n = 0 := by
  induction n generalizing a with
  | zero => rfl
  | succ n ih =>
    have hfirst : mem a = 0 := zero a (le_refl a)
    have hrest : load mem (a + 1) n = 0 := ih fun x hx => zero x (by omega)
    simp [load, hfirst, hrest]

theorem exists_load_ne (ne : a ≠ b) (pos : 0 < n) :
    ∃ mem : Memory, load mem a n ≠ load mem b n := by
  -- one byte is set, at the lower one of the two addresses
  have hlower : ∀ {a b : Nat}, a < b → ∃ mem : Memory, load mem a n ≠ 0 ∧ load mem b n = 0 := by
    intro a b hlt
    refine ⟨fun x => if x = a then 1 else 0, ?_, load_zero fun x hx => if_neg (by omega)⟩
    obtain ⟨n, rfl⟩ : ∃ m, n = m + 1 := ⟨n - 1, by omega⟩
    simp [load]
  rcases Nat.lt_or_gt_of_ne ne with hlt | hlt
  · obtain ⟨mem, ha, hb⟩ := hlower hlt
    exact ⟨mem, by rw [hb]; exact ha⟩
  · obtain ⟨mem, hb, ha⟩ := hlower hlt
    exact ⟨mem, by rw [ha]; exact Ne.symm hb⟩

theorem load_fill_zero (mem : Memory) (inside : a ≤ b ∧ b + k ≤ a + n) :
    load (fill mem a n 0) b k = 0 := by
  rw [load_digits (v := 0), zero_mod]
  intro i hi
  rw [Nat.zero_div]
  exact if_pos (by omega)

theorem fill_inside (mem : Memory) {b : UInt8} (inside : a ≤ x ∧ x < a + n) :
    fill mem a n b x = b :=
  if_pos inside

/-! ## Several words -/

theorem load_byte (mem : Memory) (a : Nat) {i : Nat} (lt : i < n) :
    UInt8.ofNat (load mem a n / 256 ^ i) = mem (a + i) := by
  induction n generalizing a i with
  | zero => omega
  | succ n ih =>
    have hbyte := (mem a).toNat_lt
    cases i with
    | zero =>
      apply UInt8.toNat_inj.mp
      rw [UInt8.toNat_ofNat', load]
      simp
    | succ i =>
      have hdiv : load mem a (n + 1) / 256 = load mem (a + 1) n := by
        rw [load]
        omega
      rw [pow_succ', ← Nat.div_div_eq_div_mul, hdiv, ih (a + 1) (by omega), add_assoc, add_comm 1]

theorem store_load (dst src : Memory) (a b n : Nat) :
    store dst a n (load src b n) = copy dst a src b n := by
  funext x
  by_cases hx : a ≤ x ∧ x < a + n
  · rw [store, copy, if_pos hx, if_pos hx, load_byte src b (by omega)]
  · rw [store, copy, if_neg hx, if_neg hx]

theorem copy_zero (dst src : Memory) (a b : Nat) : copy dst a src b 0 = dst := by
  funext x
  rw [copy, if_neg (by omega)]

theorem copy_copy (dst src : Memory) (a b n k : Nat) :
    copy (copy dst a src b n) (a + n) src (b + n) k = copy dst a src b (n + k) := by
  funext x
  simp only [copy]
  by_cases hfirst : a ≤ x ∧ x < a + n
  · rw [if_neg (by omega), if_pos hfirst, if_pos (by omega)]
  by_cases hsecond : a + n ≤ x ∧ x < a + n + k
  · rw [if_pos hsecond, if_pos (by omega)]
    congr 1
    omega
  · rw [if_neg hsecond, if_neg hfirst, if_neg (by omega)]

theorem copy_block (dst src : Memory) (b : Nat) {p q i : Nat} (hi : i < n) :
    copy dst (p * n) src b n (q * n + i) = if q = p then src (b + i) else dst (q * n + i) := by
  by_cases hqp : q = p
  · subst hqp
    rw [copy, if_pos ⟨Nat.le_add_right _ _, Nat.add_lt_add_left hi _⟩, if_pos rfl,
      Nat.add_sub_cancel_left]
  · have hapart : q * n + n ≤ p * n ∨ p * n + n ≤ q * n := by
      rw [← succ_mul, ← succ_mul]
      rcases Nat.lt_or_gt_of_ne hqp with hlt | hlt
      · exact .inl (Nat.mul_le_mul_right n hlt)
      · exact .inr (Nat.mul_le_mul_right n hlt)
    rw [copy, if_neg (by omega), if_neg hqp]

theorem foldl_store_load (dst src : Memory) (a b n k : Nat) :
    (range k).foldl (fun mem i => store mem (a + n * i) n (load src (b + n * i) n)) dst =
      copy dst a src b (n * k) := by
  induction k with
  | zero => exact (copy_zero dst src a b).symm
  | succ k ih =>
    rw [range_succ, foldl_append, ih, foldl_cons, foldl_nil, store_load, copy_copy,
      mul_succ]

/-- A write of `n` bytes. -/
structure Write where
  addr : Nat
  size : Nat
  val : Nat

variable {writes : List Write}

def Write.covers (w : Write) (x : Nat) : Bool := w.addr ≤ x && x < w.addr + w.size

/-- The byte at an address after writes: the last one that was written there. -/
def lastWritten (mem : Memory) (writes : List Write) (x : Nat) : UInt8 :=
  match writes.reverse.find? (·.covers x) with
  | some w => UInt8.ofNat (w.val / 256 ^ (x - w.addr))
  | none => mem x

theorem lastWritten_cons (mem : Memory) (w : Write) (writes : List Write) :
    lastWritten mem (w :: writes) = lastWritten (store mem w.addr w.size w.val) writes := by
  funext x
  rw [lastWritten, lastWritten, reverse_cons, find?_append]
  cases hfind : writes.reverse.find? (·.covers x) with
  | some w' => rfl
  | none =>
    by_cases hcovers : w.addr ≤ x ∧ x < w.addr + w.size
    · rw [find?_cons_of_pos (by simpa [Write.covers] using hcovers), store, if_pos hcovers]
      rfl
    · rw [find?_cons_of_neg (by simpa [Write.covers] using hcovers), store, if_neg hcovers]
      rfl

theorem foldl_store (mem : Memory) (writes : List Write) :
    writes.foldl (fun mem w => store mem w.addr w.size w.val) mem = lastWritten mem writes := by
  induction writes generalizing mem with
  | nil => rfl
  | cons w writes ih => rw [foldl_cons, ih, lastWritten_cons]

theorem foldl_store_outside (mem : Memory)
    (outside : ∀ w ∈ writes, x < w.addr ∨ w.addr + w.size ≤ x) :
    writes.foldl (fun mem w => store mem w.addr w.size w.val) mem x = mem x := by
  induction writes generalizing mem with
  | nil => rfl
  | cons w writes ih =>
    rw [foldl_cons, ih _ fun v hv => outside v (mem_cons_of_mem w hv),
      store_outside mem (outside w mem_cons_self)]

def Write.Apart (w v : Write) : Prop := w.addr + w.size ≤ v.addr ∨ v.addr + v.size ≤ w.addr

theorem load_foldl_store (mem : Memory) (apart : writes.Pairwise Write.Apart) {w : Write}
    (made : w ∈ writes) (fits : w.val < 256 ^ w.size) :
    load (writes.foldl (fun mem w => store mem w.addr w.size w.val) mem) w.addr w.size = w.val := by
  induction writes generalizing mem with
  | nil => cases made
  | cons v writes ih =>
    obtain ⟨hfirst, hrest⟩ := pairwise_cons.mp apart
    rw [foldl_cons]
    rcases mem_cons.mp made with rfl | made
    · have hkept : ∀ x, w.addr ≤ x → x < w.addr + w.size →
          writes.foldl (fun mem w => store mem w.addr w.size w.val)
              (store mem w.addr w.size w.val) x =
            store mem w.addr w.size w.val x := by
        intro x hx hx'
        apply foldl_store_outside
        intro u hu
        have hapart := hfirst u hu
        simp only [Write.Apart] at hapart
        omega
      rw [load_congr hkept, load_store_same mem w.addr fits]
    · exact ih _ hrest made

/-! ## Words of 64 bits -/

def load64 (mem : Memory) (a : Nat) : Nat := load mem a 8

def store64 (mem : Memory) (a v : Nat) : Memory := store mem a 8 v

theorem load64_congr (same : ∀ x, a ≤ x → x < a + 8 → mem' x = mem x) :
    load64 mem' a = load64 mem a :=
  load_congr same

theorem store64_outside (mem : Memory) (outside : x < a ∨ a + 8 ≤ x) : store64 mem a v x = mem x :=
  store_outside mem outside

theorem load64_store64_ne (mem : Memory) (apart : b + 8 ≤ a ∨ a + 8 ≤ b) :
    load64 (store64 mem a v) b = load64 mem b :=
  load_store_ne mem apart

theorem load64_store64_same (mem : Memory) (a : Nat) (fits : v < 2 ^ 64) :
    load64 (store64 mem a v) a = v :=
  load_store_same mem a fits

theorem load64_fill_ne (mem : Memory) {c : UInt8} (apart : b + 8 ≤ a ∨ a + n ≤ b) :
    load64 (fill mem a n c) b = load64 mem b :=
  load_fill_ne mem apart

theorem load64_fill_zero (mem : Memory) (inside : a ≤ b ∧ b + 8 ≤ a + n) :
    load64 (fill mem a n 0) b = 0 :=
  load_fill_zero mem inside

theorem load64_fill_aa (mem : Memory) (inside : a ≤ b ∧ b + 8 ≤ a + n) :
    load64 (fill mem a n 0xaa) b = 0xaaaaaaaaaaaaaaaa := by
  have hdigits : ∀ i < 8, (0xaa : UInt8) = UInt8.ofNat (0xaaaaaaaaaaaaaaaa / 256 ^ i) := by decide
  have hload : load (fill mem a n 0xaa) b 8 = 0xaaaaaaaaaaaaaaaa % 256 ^ 8 :=
    load_digits fun i hi => (fill_inside mem (by omega)).trans (hdigits i hi)
  exact hload

end ByteMemory
