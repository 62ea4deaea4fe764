import WashingtonDC.Gdrom.Drive
import Mathlib.Tactic.IntervalCases

/-!
# DMA from the drive

`gdrom_complete_dma` hands each buffer of the queue to `sh4_dmac_transfer_to_mem`, clipped to the
window of `SB_GDAPRO`. Here are the bytes that reach memory, with their addresses and in their
order. They are the bytes of the queue from `SB_GDSTAR` on, as long as every buffer up to the end of
the window is unread, does not reach over the top of the window and begins in it at a multiple of the
size of its accesses, and the transfer does not begin after its end. A transfer that ends inside of a
buffer loses the rest of it, so that a transfer in two parts is a transfer as a whole only if both
end with a buffer.

Addresses without system memory behind them are taken to be written as system memory is.
-/
namespace Gdrom

open BufferQueue UInt32 List Nat

/-! ## Accesses to memory -/

/-- The size of the accesses of `sh4_dmac_transfer_to_mem`. -/
def accessSize (nBytes : Nat) : Nat :=
  if nBytes % 4 = 0 then 4 else if nBytes % 2 = 0 then 2 else 1

def DmaWrite.unit (w : DmaWrite) : Nat := accessSize w.nBytes.toNat

/-- Where a byte is written. The handlers of system memory drop the low bits of an address. -/
def DmaWrite.place (w : DmaWrite) (k : Nat) : Nat :=
  let access := ((w.addr + ofNat (k - k % w.unit)) &&& 0x1fffffff).toNat
  access - access % w.unit + k % w.unit

/-- The bytes of a call, each with its address. There is no byte after the end of the buffer. -/
def DmaWrite.bytes (w : DmaWrite) : List (Option UInt8 × Nat) :=
  (range w.nBytes.toNat).map fun k => (w.dat[k]?, w.place k)

def placed (a : Nat) (xs : List UInt8) : List (Option UInt8 × Nat) :=
  (xs.zipIdx a).map fun p => (some p.1, p.2)

theorem DmaWrite.unit_cases (w : DmaWrite) : w.unit = 4 ∨ w.unit = 2 ∨ w.unit = 1 := by
  unfold unit accessSize
  split
  · exact .inl rfl
  · split
    · exact .inr (.inl rfl)
    · exact .inr (.inr rfl)

theorem DmaWrite.place_eq (w : DmaWrite) {k : Nat} (aligned : w.addr.toNat % w.unit = 0)
    (low : w.addr.toNat + k < 2 ^ 29) : w.place k = w.addr.toNat + k := by
  have hmask (x : UInt32) : (x &&& 0x1fffffff).toNat = x.toNat % 2 ^ 29 := by
    rw [UInt32.toNat_and]
    exact and_two_pow_sub_one_eq_mod x.toNat 29
  have haccess : ((w.addr + ofNat (k - k % w.unit)) &&& 0x1fffffff).toNat =
      w.addr.toNat + (k - k % w.unit) := by
    rw [hmask, UInt32.toNat_add, toNat_ofNat']
    omega
  dsimp only [place]
  rw [haccess]
  obtain h | h | h := w.unit_cases <;> rw [h] at aligned ⊢ <;> omega

theorem DmaWrite.bytes_eq (w : DmaWrite) (aligned : w.addr.toNat % w.unit = 0)
    (low : w.addr.toNat + w.nBytes.toNat ≤ 2 ^ 29) (inside : w.nBytes.toNat ≤ w.dat.length) :
    w.bytes = placed w.addr.toNat (w.dat.take w.nBytes.toNat) := by
  apply ext_getElem
  · simp [bytes, placed, inside]
  · intro k hk _
    have hk : k < w.nBytes.toNat := by simpa [bytes] using hk
    have hdat : k < w.dat.length := by omega
    simp [bytes, placed, w.place_eq aligned (show w.addr.toNat + k < 2 ^ 29 by omega), hdat]

theorem placed_append (a : Nat) (xs ys : List UInt8) :
    placed a (xs ++ ys) = placed a xs ++ placed (a + xs.length) ys := by
  simp [placed, zipIdx_append]

namespace Drive

variable (d : Drive)

/-! ## The window -/

/-- The first and the last address. -/
abbrev top : Nat := d.dmaProtTop.toNat
abbrev bot : Nat := d.dmaProtBot.toNat

theorem top_pos : 0 < d.top := by
  rw [top, dmaProtTop, UInt32.toNat_or]
  exact lt_of_lt_of_le (by decide) Nat.right_le_or

theorem shl_or_lt {x c : UInt32} (hx : x.toNat < 2 ^ 8) (hc : c.toNat < 2 ^ 28) :
    ((x <<< 20) ||| c).toNat < 2 ^ 28 := by
  rw [UInt32.toNat_or]
  apply or_lt_two_pow _ hc
  rw [UInt32.toNat_shiftLeft, shiftLeft_eq]
  exact lt_of_le_of_lt (mod_le _ _) (by change _ * 2 ^ 20 < _; omega)

theorem top_lt : d.top < 2 ^ 28 := by
  refine shl_or_lt ?_ (by decide)
  have hlow : (d.gdapro &&& 0x7f00).toNat < 2 ^ 15 := by
    rw [UInt32.toNat_and]
    exact and_lt_two_pow _ (by decide)
  rw [UInt32.toNat_shiftRight, shiftRight_eq_div_pow]
  change _ / 2 ^ 8 < _
  omega

theorem bot_lt : d.bot < 2 ^ 28 := by
  refine shl_or_lt ?_ (by decide)
  rw [UInt32.toNat_and]
  exact and_lt_two_pow _ (by decide)

/-- What a transfer to an address is meant to write: the bytes whose addresses are in the window. -/
def deliver (a : Nat) (xs : List UInt8) : List (Option UInt8 × Nat) :=
  (placed a xs).filter fun p => d.top ≤ p.2 ∧ p.2 ≤ d.bot

theorem deliver_append (a : Nat) (xs ys : List UInt8) :
    d.deliver a (xs ++ ys) = d.deliver a xs ++ d.deliver (a + xs.length) ys := by
  rw [deliver, placed_append, filter_append]
  rfl

theorem deliver_cons (a : Nat) (x : UInt8) (xs : List UInt8) :
    d.deliver a (x :: xs) =
      (if d.top ≤ a ∧ a ≤ d.bot then [(some x, a)] else []) ++
        d.deliver (a + 1) xs := by
  simp [deliver, placed, filter_cons]
  split <;> rfl

variable {xs : List UInt8} {b : Buffer UInt8}

theorem deliver_below {a : Nat} (below : a + xs.length ≤ d.top) :
    d.deliver a xs = [] := by
  induction xs generalizing a with
  | nil => rfl
  | cons x xs ih =>
    rw [length_cons] at below
    rw [deliver_cons, if_neg (by omega), ih (by omega)]
    rfl

theorem deliver_above {a : Nat} (above : d.top ≤ a) :
    d.deliver a xs = placed a (xs.take (d.bot + 1 - a)) := by
  induction xs generalizing a with
  | nil => simp [deliver, placed]
  | cons x xs ih =>
    rw [deliver_cons, ih (by omega)]
    by_cases hend : a ≤ d.bot
    · rw [if_pos ⟨above, hend⟩, show d.bot + 1 - a =
        d.bot + 1 - (a + 1) + 1 by omega]
      rfl
    · rw [if_neg (by omega), show d.bot + 1 - (a + 1) = 0 by omega,
        show d.bot + 1 - a = 0 by omega]
      rfl

theorem deliver_after {a : Nat} (after : d.bot < a) : d.deliver a xs = [] := by
  induction xs generalizing a with
  | nil => rfl
  | cons x xs ih =>
    rw [deliver_cons, if_neg (by omega), ih (by omega)]
    rfl

/-! ## One buffer -/

def wholeLen (q : List (Buffer UInt8)) : Nat := (q.map fun b => b.dat.length).sum

/-- The buffers end before the window, or begin right after it. A window that is turned around
begins after its end, and must not be reached. -/
def Misses (q : List (Buffer UInt8)) (a n : Nat) : Prop :=
  a + min n (wholeLen q) < d.top ∨
    d.top ≤ d.bot + 1 ∧
      (a + min n (wholeLen q) = d.top ∨ a = d.bot + 1)

/-- The bytes end before the window, or they begin in it. What is left of them there is none, or it
begins at a multiple of the size of its accesses. -/
def Clear (a chunk : Nat) : Prop :=
  a < d.top ∧ (a + chunk < d.top ∨
      a + chunk = d.top ∧ d.top ≤ d.bot + 1) ∨
    d.top ≤ a ∧ a ≤ d.bot + 1 ∧
      (min chunk (d.bot + 1 - a) = 0 ∨
        a % accessSize (min chunk (d.bot + 1 - a)) = 0)

/-- The buffers for `n` bytes, laid out from an address on: nothing is written from here on, or the
first one is unread and clear, and is the last one in the window or the others are placed. -/
def Placed : List (Buffer UInt8) → Nat → Nat → Prop
  | [], _, _ => True
  | b :: q, a, n =>
    n = 0 ∨ d.Misses (b :: q) a n ∨
      b.rest = b.dat ∧ d.Clear a (min n b.dat.length) ∧
        (d.top ≤ a ∧ d.bot < a + b.dat.length ∨
          Placed q (a + b.dat.length) (n - b.dat.length))

/-- `chunk_sz` before it is clipped to the window. -/
def chunkSz (toTransmit transmitted : UInt32) (len : Nat) : UInt32 :=
  if toTransmit < ofNat len + transmitted then toTransmit - transmitted else ofNat len

variable {n t : UInt32}

theorem chunkSz_toNat (len : Nat) (started : t < n) (limit : len + t.toNat < 2 ^ 32) :
    (chunkSz n t len).toNat = min (n.toNat - t.toNat) len := by
  have hstarted := lt_iff_toNat_lt.mp started
  have hlen : (ofNat len).toNat = len := toNat_ofNat_of_lt' (by change len < 2 ^ 32; omega)
  have hsum : (ofNat len + t).toNat = len + t.toNat := by
    rw [UInt32.toNat_add, hlen]
    omega
  rw [chunkSz]
  split
  · rename_i h
    have hlt := lt_iff_toNat_lt.mp h
    rw [UInt32.toNat_sub_of_le _ _ (UInt32.le_of_lt started)]
    omega
  · rename_i h
    have hge := le_iff_toNat_le.mp (UInt32.not_lt.mp h)
    omega

variable {a : UInt32} {q : List (Buffer UInt8)}

theorem dmaLoop_cons (started : t < n) :
    d.dmaLoop n (b :: q) t a =
      let chunk := d.dmaChunk a (chunkSz n t b.dat.length) b.dat
      let more := d.dmaLoop n q (t + chunkSz n t b.dat.length) chunk.2
      (more.1, chunk.1 ++ more.2.1, more.2.2) := by
  rw [dmaLoop, if_pos started]
  rfl

theorem dmaLoop_done (q : List (Buffer UInt8)) (done : ¬t < n) :
    d.dmaLoop n q t a = (t, [], q) := by
  cases q with
  | nil => rfl
  | cons b q => rw [dmaLoop, if_neg done]

theorem dmaChunk_below (dat : List UInt8) (short : n.toNat ≤ bufqLen)
    (start : a.toNat < d.top)
    (below : a.toNat + n.toNat < d.top ∨
      a.toNat + n.toNat = d.top ∧ d.top ≤ d.bot + 1) :
    (d.dmaChunk a n dat).1.flatMap DmaWrite.bytes = [] ∧
      (d.dmaChunk a n dat).2.toNat = a.toNat + n.toNat := by
  have htop := d.top_lt
  have hpos := d.top_pos
  dsimp only [bufqLen, top, bot] at *
  have hstart : a < d.dmaProtTop := lt_iff_toNat_lt.mpr start
  have hsum : (a + n).toNat = a.toNat + n.toNat := by
    rw [UInt32.toNat_add]
    omega
  rw [dmaChunk]
  split
  · exact ⟨rfl, hsum⟩
  · rename_i h
    -- The buffer ends where the window begins: nothing is left of it.
    have hge := le_iff_toNat_le.mp (UInt32.not_lt.mp fun hlt => h ⟨hstart, hlt⟩)
    rw [UInt32.add_comm, hsum] at hge
    have hend : n + a = d.dmaProtTop := by
      apply UInt32.toNat_inj.mp
      rw [UInt32.add_comm, hsum]
      omega
    have hzero : n - (d.dmaProtTop - a) = 0 := by
      rw [← hend, UInt32.add_sub_cancel, UInt32.sub_self]
    have hlast : ¬d.dmaProtBot < d.dmaProtTop - 1 := by
      have hone : (1 : UInt32) ≤ d.dmaProtTop := le_iff_toNat_le.mpr hpos
      rw [UInt32.not_lt, le_iff_toNat_le, UInt32.toNat_sub_of_le _ _ hone]
      change _ - 1 ≤ _
      omega
    simp only [hzero, UInt32.add_zero, if_neg hlast]
    refine ⟨rfl, ?_⟩
    rw [← hend, UInt32.add_comm, hsum]

theorem dmaChunk_above (dat : List UInt8) (short : n.toNat ≤ bufqLen)
    (above : d.top ≤ a.toNat) (start : a.toNat ≤ d.bot + 1) :
    ∃ m : UInt32, d.dmaChunk a n dat = ([⟨a, m, dat⟩], a + m) ∧
      m.toNat = min n.toNat (d.bot + 1 - a.toNat) := by
  have hbot := d.bot_lt
  have hpos := d.top_pos
  dsimp only [bufqLen, top, bot] at *
  have habove : ¬a < d.dmaProtTop := UInt32.not_lt.mpr (le_iff_toNat_le.mpr above)
  have hlast : (a + n - 1).toNat = a.toNat + n.toNat - 1 := by
    have hsum : (a + n).toNat = a.toNat + n.toNat := by
      rw [UInt32.toNat_add]
      omega
    rw [UInt32.toNat_sub_of_le _ _ (le_iff_toNat_le.mpr (by change 1 ≤ _; omega)), hsum]
    rfl
  rw [dmaChunk, if_neg fun h => habove h.1]
  simp only [if_neg habove]
  refine ⟨_, rfl, ?_⟩
  split
  · rename_i h
    have hlt := lt_iff_toNat_lt.mp h
    rw [hlast] at hlt
    rw [UInt32.toNat_add, UInt32.toNat_sub]
    change (_ + 1) % _ = _
    omega
  · rename_i h
    have hge := le_iff_toNat_le.mp (UInt32.not_lt.mp h)
    rw [hlast] at hge
    omega

theorem dmaChunk_clear (dat : List UInt8) (short : n.toNat ≤ bufqLen) (inside : n.toNat ≤ dat.length)
    (clear : d.Clear a.toNat n.toNat) :
    (d.dmaChunk a n dat).1.flatMap DmaWrite.bytes = d.deliver a.toNat (dat.take n.toNat) ∧
      (d.dmaChunk a n dat).2.toNat =
        if d.top ≤ a.toNat then min (a.toNat + n.toNat) (d.bot + 1)
        else a.toNat + n.toNat := by
  have hbot := d.bot_lt
  rcases clear with ⟨hstart, hbelow⟩ | ⟨habove, hstart, haligned⟩
  · obtain ⟨hbytes, haddr⟩ := d.dmaChunk_below dat short hstart hbelow
    rw [hbytes, haddr, deliver_below d (by rw [length_take]; omega), if_neg (by omega)]
    exact ⟨rfl, rfl⟩
  · obtain ⟨m, hchunk, hm⟩ := d.dmaChunk_above dat short habove hstart
    rw [hchunk, deliver_above d habove, take_take, if_pos habove, min_comm _ n.toNat, ← hm]
    rw [← hm] at haligned
    constructor
    · rw [flatMap_singleton]
      rcases haligned with hzero | haligned
      · rw [DmaWrite.bytes, hzero, take_zero]
        rfl
      · exact DmaWrite.bytes_eq _ haligned (show a.toNat + m.toNat ≤ 2 ^ 29 by omega)
          (show m.toNat ≤ dat.length by omega)
    · rw [UInt32.toNat_add]
      omega

/-! ## The whole queue -/

def Short (q : List (Buffer UInt8)) : Prop := ∀ b ∈ q, b.dat.length ≤ bufqLen

theorem Short.tail (short : Short (b :: q)) : Short q :=
  fun c hc => short c (mem_cons_of_mem b hc)

theorem wholeLen_cons (b : Buffer UInt8) (q : List (Buffer UInt8)) :
    wholeLen (b :: q) = b.dat.length + wholeLen q :=
  rfl

theorem rest_length_le (q : List (Buffer UInt8)) : (rest q).length ≤ wholeLen q := by
  induction q with
  | nil => exact le_refl 0
  | cons b q ih =>
    rw [rest_cons, wholeLen_cons, length_append, Buffer.rest, length_drop]
    omega

theorem chunkSz_le {len : Nat} (started : t < n) (short : len ≤ bufqLen) :
    (chunkSz n t len).toNat ≤ bufqLen := by
  dsimp only [bufqLen] at short ⊢
  have hstarted := lt_iff_toNat_lt.mp started
  have hlen : (ofNat len).toNat = len := toNat_ofNat_of_lt' (by change len < 2 ^ 32; omega)
  rw [chunkSz]
  split
  · rename_i h
    have hlt := lt_iff_toNat_lt.mp h
    rw [UInt32.toNat_add, hlen] at hlt
    rw [UInt32.toNat_sub_of_le _ _ (UInt32.le_of_lt started)]
    omega
  · rw [hlen]
    exact short

/-- After the window. -/
theorem dmaLoop_after (short : Short q) (window : d.top ≤ d.bot + 1)
    (addr : a.toNat = d.bot + 1) :
    (d.dmaLoop n q t a).2.1.flatMap DmaWrite.bytes = [] := by
  induction q generalizing t a with
  | nil => rfl
  | cons b q ih =>
    by_cases hstarted : t < n
    · obtain ⟨m, hchunk, hm⟩ := d.dmaChunk_above (a := a) b.dat
        (chunkSz_le hstarted (short b mem_cons_self)) (by omega) (by omega)
      have hzero : m = 0 := UInt32.toNat_inj.mp (by rw [hm, addr, Nat.sub_self, Nat.min_zero]; rfl)
      subst hzero
      rw [dmaLoop_cons d hstarted, hchunk, UInt32.add_zero, flatMap_append, ih short.tail addr]
      rfl
    · rw [dmaLoop_done d _ hstarted]
      rfl

theorem dmaLoop_before (short : Short q) (before : t.toNat ≤ a.toNat)
    (misses : a.toNat + min (n.toNat - t.toNat) (wholeLen q) < d.top ∨
      d.top ≤ d.bot + 1 ∧
        a.toNat + min (n.toNat - t.toNat) (wholeLen q) = d.top) :
    (d.dmaLoop n q t a).2.1.flatMap DmaWrite.bytes = [] := by
  have htop := d.top_lt
  induction q generalizing t a with
  | nil => rfl
  | cons b q ih =>
    by_cases hstarted : t < n
    · have hshort := short b mem_cons_self
      have hlt := lt_iff_toNat_lt.mp hstarted
      dsimp only [bufqLen] at hshort
      rw [wholeLen_cons] at misses
      have hsz := chunkSz_toNat b.dat.length hstarted (by omega)
      obtain ⟨hbytes, haddr⟩ := d.dmaChunk_clear (n := chunkSz n t b.dat.length) (a := a) b.dat
        (by dsimp only [bufqLen]; omega) (by omega) (by rw [Clear]; omega)
      rw [deliver_below d (by rw [length_take]; omega)] at hbytes
      have haddr : (d.dmaChunk a (chunkSz n t b.dat.length) b.dat).2.toNat =
          a.toNat + (chunkSz n t b.dat.length).toNat := by
        rw [haddr]
        split <;> omega
      have hnext : (t + chunkSz n t b.dat.length).toNat =
          t.toNat + (chunkSz n t b.dat.length).toNat := by
        rw [UInt32.toNat_add]
        omega
      rw [dmaLoop_cons d hstarted, flatMap_append, hbytes,
        ih short.tail (by omega) (by rw [haddr, hnext]; omega)]
      rfl
    · rw [dmaLoop_done d _ hstarted]
      rfl

theorem dmaLoop_misses (short : Short q) (before : t.toNat ≤ a.toNat)
    (misses : d.Misses q a.toNat (n.toNat - t.toNat)) :
    (d.dmaLoop n q t a).2.1.flatMap DmaWrite.bytes =
      d.deliver a.toNat ((rest q).take (n.toNat - t.toNat)) := by
  have hlen := rest_length_le q
  have hbelow : a.toNat + min (n.toNat - t.toNat) (wholeLen q) ≤ d.top →
      d.deliver a.toNat ((rest q).take (n.toNat - t.toNat)) = [] := fun hle =>
    deliver_below d (by rw [length_take]; omega)
  rcases misses with hlt | ⟨hwindow, heq | hend⟩
  · rw [hbelow (by omega), d.dmaLoop_before short before (.inl hlt)]
  · rw [hbelow (by omega), d.dmaLoop_before short before (.inr ⟨hwindow, heq⟩)]
  · rw [d.dmaLoop_after short hwindow hend, deliver_after d (by omega)]

theorem dmaLoop_bytes (short : Short q) (before : t.toNat ≤ a.toNat)
    (hplaced : d.Placed q a.toNat (n.toNat - t.toNat)) :
    (d.dmaLoop n q t a).2.1.flatMap DmaWrite.bytes =
      d.deliver a.toNat ((rest q).take (n.toNat - t.toNat)) := by
  have htop := d.top_lt
  have hbot := d.bot_lt
  induction q generalizing t a with
  | nil => rw [rest_nil, take_nil]; rfl
  | cons b q ih =>
    rcases hplaced with hzero | hmisses | ⟨hunread, hclear, hplaced⟩
    · have hdone : ¬t < n := by
        rw [lt_iff_toNat_lt]
        omega
      rw [dmaLoop_done d _ hdone, hzero]
      rfl
    · exact d.dmaLoop_misses short before hmisses
    by_cases hstarted : t < n
    · have hshort := short b mem_cons_self
      have hlt := lt_iff_toNat_lt.mp hstarted
      dsimp only [bufqLen] at hshort
      have hlow : a.toNat ≤ 2 ^ 28 := by
        rcases hclear with ⟨h, -⟩ | ⟨-, h, -⟩ <;> omega
      have hsz := chunkSz_toNat b.dat.length hstarted (by omega)
      have hnext : (t + chunkSz n t b.dat.length).toNat =
          t.toNat + (chunkSz n t b.dat.length).toNat := by
        rw [UInt32.toNat_add]
        omega
      obtain ⟨hbytes, haddr⟩ := d.dmaChunk_clear (n := chunkSz n t b.dat.length) (a := a) b.dat
        (by dsimp only [bufqLen]; omega) (by omega) (by rwa [hsz])
      rw [dmaLoop_cons d hstarted, flatMap_append, hbytes, rest_cons, hunread, take_append,
        deliver_append]
      by_cases hwhole : b.dat.length ≤ n.toNat - t.toNat
      · have hlen : (chunkSz n t b.dat.length).toNat = b.dat.length := by omega
        rw [hlen] at haddr hnext
        rw [hlen, take_length, take_of_length_le hwhole]
        by_cases hend : d.top ≤ a.toNat ∧ d.bot < a.toNat + b.dat.length
        · have hwindow : d.top ≤ d.bot + 1 := by
            rcases hclear with ⟨h, -⟩ | ⟨-, h, -⟩ <;> omega
          rw [if_pos hend.1] at haddr
          rw [d.dmaLoop_after short.tail hwindow (by omega), deliver_after d hend.2]
        · have haddr : (d.dmaChunk a (chunkSz n t b.dat.length) b.dat).2.toNat =
              a.toNat + b.dat.length := by
            rw [haddr]
            split <;> omega
          have hrest := hplaced.resolve_left hend
          rw [Nat.sub_sub, ← haddr, ← hnext] at hrest
          rw [ih short.tail (by omega) hrest, haddr, hnext, Nat.sub_sub]
      · have hlen : (chunkSz n t b.dat.length).toNat = n.toNat - t.toNat := by omega
        have hdone : ¬t + chunkSz n t b.dat.length < n := by
          rw [UInt32.not_lt, le_iff_toNat_le]
          omega
        rw [dmaLoop_done d _ hdone, hlen, show n.toNat - t.toNat - b.dat.length = 0 by omega]
        rfl
    · rw [dmaLoop_done d _ hstarted, show n.toNat - t.toNat = 0 by
        have hle := le_iff_toNat_le.mp (UInt32.not_lt.mp hstarted); omega]
      rfl

/-- One buffer in the queue and the window over all of system memory. -/
def withBuffer (a n : UInt32) (dat : List UInt8) : Drive :=
  { init with gdapro := 0x407f, dmaStartAddr := a, dmaLen := n, bufq := [⟨0, dat⟩] }

/-- The number of buffers that a transfer of `n` bytes takes from the queue. The bytes of a buffer
that have been read are counted. -/
def taken : List (Buffer UInt8) → Nat → Nat
  | [], _ => 0
  | b :: q, n => if n = 0 then 0 else taken q (n - b.dat.length) + 1

/-- The buffers that a transfer of `n` bytes takes hold `n` unread bytes. -/
def Ends (q : List (Buffer UInt8)) (n : Nat) : Prop := (rest (q.take (taken q n))).length = n

theorem rest_drop_iff {k m : Nat} (fits : m ≤ (rest q).length) :
    rest (q.drop k) = (rest q).drop m ↔ (rest (q.take k)).length = m := by
  have htotal : rest q = rest (q.take k) ++ rest (q.drop k) := by
    rw [← rest_append, take_append_drop]
  constructor
  · intro left
    have hlen := congrArg length left
    have hsum := congrArg length htotal
    rw [length_drop] at hlen
    rw [length_append] at hsum
    omega
  · rintro rfl
    rw [htotal, drop_left]

theorem wholeLen_of_unread (unread : ∀ b ∈ q, b.rest = b.dat) : wholeLen q = (rest q).length := by
  induction q with
  | nil => rfl
  | cons b q ih =>
    rw [wholeLen_cons, rest_cons, length_append, unread b mem_cons_self,
      ih fun c hc => unread c (mem_cons_of_mem b hc)]

theorem dmaLoop_queue (short : Short q) (limit : n.toNat + bufqLen ≤ 2 ^ 32) :
    (d.dmaLoop n q t a).2.2 = q.drop (taken q (n.toNat - t.toNat)) := by
  induction q generalizing t a with
  | nil => rfl
  | cons b q ih =>
    by_cases hstarted : t < n
    · have hshort := short b mem_cons_self
      have hlt := lt_iff_toNat_lt.mp hstarted
      have hsz := chunkSz_toNat b.dat.length hstarted (by omega)
      have hleft : n.toNat - (t + chunkSz n t b.dat.length).toNat =
          n.toNat - t.toNat - b.dat.length := by
        rw [UInt32.toNat_add]
        omega
      rw [dmaLoop_cons d hstarted, taken, if_neg (by omega), drop_succ_cons, ← hleft]
      exact ih short.tail
    · have hdone : n.toNat - t.toNat = 0 := by
        rw [lt_iff_toNat_lt] at hstarted
        omega
      rw [dmaLoop_done d _ hstarted, taken, if_pos hdone]
      rfl

theorem dmaChunk_within (dat : List UInt8) (short : n.toNat ≤ bufqLen)
    (above : d.top ≤ a.toNat) (within : a.toNat + n.toNat ≤ d.bot + 1) :
    d.dmaChunk a n dat = ([⟨a, n, dat⟩], a + n) := by
  obtain ⟨m, hchunk, hm⟩ := d.dmaChunk_above dat short above (by omega)
  have hmn : m = n := UInt32.toNat_inj.mp (by omega)
  rw [hchunk, hmn]

theorem dmaLoop_shift {m : UInt32} (limit : m.toNat + n.toNat + bufqLen ≤ 2 ^ 32) (short : Short q)
    (le : t ≤ n) :
    d.dmaLoop (m + n) q (m + t) a = (m + (d.dmaLoop n q t a).1, (d.dmaLoop n q t a).2) := by
  have hsum {x : UInt32} (hx : x ≤ n) : (m + x).toNat = m.toNat + x.toNat := by
    have hle := le_iff_toNat_le.mp hx
    dsimp only [bufqLen] at limit
    rw [UInt32.toNat_add]
    omega
  have hn := hsum (UInt32.le_refl n)
  have ht := hsum le
  induction q generalizing t a with
  | nil => rfl
  | cons b q ih =>
    by_cases hstarted : t < n
    · have hlt := lt_iff_toNat_lt.mp hstarted
      have hstarted' : m + t < m + n := lt_iff_toNat_lt.mpr (by omega)
      have hshort := short b mem_cons_self
      have hsz := chunkSz_toNat b.dat.length hstarted (by omega)
      have hsz' : chunkSz (m + n) (m + t) b.dat.length = chunkSz n t b.dat.length := by
        apply UInt32.toNat_inj.mp
        rw [hsz, chunkSz_toNat _ hstarted' (by omega)]
        omega
      have hnext : t + chunkSz n t b.dat.length ≤ n := by
        rw [le_iff_toNat_le, UInt32.toNat_add]
        dsimp only [bufqLen] at limit
        omega
      rw [dmaLoop_cons d hstarted, dmaLoop_cons d hstarted', hsz', UInt32.add_assoc]
      dsimp only
      rw [ih short.tail hnext (hsum hnext)]
    · have hdone : ¬m + t < m + n := by
        rw [lt_iff_toNat_lt] at hstarted ⊢
        omega
      rw [dmaLoop_done d _ hstarted, dmaLoop_done d _ hdone]

theorem dmaLoop_split {m : UInt32} (limit : m.toNat + n.toNat + bufqLen ≤ 2 ^ 32) (short : Short q)
    (le : t ≤ m) (above : d.top ≤ a.toNat)
    (within : a.toNat + (m.toNat - t.toNat) ≤ d.bot + 1)
    (whole : wholeLen (q.take (taken q (m.toNat - t.toNat))) = m.toNat - t.toNat) :
    (d.dmaLoop (m + n) q t a).2.1 = (d.dmaLoop m q t a).2.1 ++
        (d.dmaLoop n (d.dmaLoop m q t a).2.2 0 (a + (m - t))).2.1 ∧
      (d.dmaLoop (m + n) q t a).2.2 =
        (d.dmaLoop n (d.dmaLoop m q t a).2.2 0 (a + (m - t))).2.2 := by
  have hle := le_iff_toNat_le.mp le
  induction q generalizing t a with
  | nil => exact ⟨rfl, rfl⟩
  | cons b q ih =>
    by_cases hstarted : t < m
    · have hlt := lt_iff_toNat_lt.mp hstarted
      have hshort := short b mem_cons_self
      rw [taken, if_neg (by omega), take_succ_cons, wholeLen_cons] at whole
      have hlen : b.dat.length ≤ m.toNat - t.toNat := by omega
      have hsum : (m + n).toNat = m.toNat + n.toNat := by
        dsimp only [bufqLen] at limit
        rw [UInt32.toNat_add]
        omega
      have hstarted' : t < m + n := lt_iff_toNat_lt.mpr (by omega)
      have hsz := chunkSz_toNat b.dat.length hstarted (by omega)
      have hsz' : chunkSz (m + n) t b.dat.length = chunkSz m t b.dat.length := by
        apply UInt32.toNat_inj.mp
        rw [hsz, chunkSz_toNat _ hstarted' (by omega)]
        omega
      rw [min_eq_right hlen] at hsz
      generalize hc : chunkSz m t b.dat.length = c at hsz hsz'
      have hchunk := d.dmaChunk_within (a := a) (n := c) b.dat (by omega) above (by omega)
      have hbot := d.bot_lt
      have hnext : (t + c).toNat = t.toNat + b.dat.length := by
        rw [UInt32.toNat_add]
        omega
      have haddr : (a + c).toNat = a.toNat + b.dat.length := by
        rw [UInt32.toNat_add]
        omega
      have hleft : m.toNat - (t + c).toNat = m.toNat - t.toNat - b.dat.length := by omega
      have hend : a + c + (m - (t + c)) = a + (m - t) := by grind
      obtain ⟨hcalls, hafter⟩ := ih short.tail (t := t + c) (a := a + c)
        (le_iff_toNat_le.mpr (by omega)) (by omega) (by omega) (by rw [hleft]; omega) (by omega)
      rw [hend] at hcalls hafter
      rw [dmaLoop_cons d hstarted, dmaLoop_cons d hstarted', hsz', hc, hchunk]
      dsimp only
      refine ⟨?_, hafter⟩
      rw [hcalls, append_assoc]
    · have htm : t = m := UInt32.le_antisymm le (UInt32.not_lt.mp hstarted)
      subst htm
      have hshift := d.dmaLoop_shift limit short (t := 0) (a := a) (UInt32.zero_le)
      rw [UInt32.add_zero] at hshift
      rw [dmaLoop_done d _ hstarted, hshift, UInt32.sub_self, UInt32.add_zero]
      exact ⟨rfl, rfl⟩

theorem dmaLoop_congr (d' : Drive) (same : d'.gdapro = d.gdapro) (n : UInt32)
    (q : List (Buffer UInt8)) (t a : UInt32) : d'.dmaLoop n q t a = d.dmaLoop n q t a := by
  have hchunk : d'.dmaChunk = d.dmaChunk := by
    have htop : d'.dmaProtTop = d.dmaProtTop := by rw [dmaProtTop, same]; rfl
    have hbot : d'.dmaProtBot = d.dmaProtBot := by rw [dmaProtBot, same]; rfl
    funext a n dat
    rw [dmaChunk, dmaChunk, htop, hbot]
  induction q generalizing t a with
  | nil => rfl
  | cons b q ih => simp only [dmaLoop, hchunk, ih]

def transfer (n : UInt32) : List DmaWrite × Drive := { d with dmaLen := n }.completeDma

/-- The next transfer of a number of bytes, to the addresses after a first one. -/
def transferNext (m n : UInt32) : List DmaWrite × Drive :=
  let first := (d.transfer m).2
  { first with dmaStartAddr := d.dmaStartAddr + m }.transfer n

theorem transfer_eq (m : UInt32) :
    (d.transfer m).1 = (d.dmaLoop m d.bufq 0 d.dmaStartAddr).2.1 ∧
      (d.transfer m).2.bufq = (d.dmaLoop m d.bufq 0 d.dmaStartAddr).2.2 := by
  rw [← d.dmaLoop_congr { d with dmaLen := m } rfl]
  exact ⟨rfl, rfl⟩

theorem transferNext_eq (m n : UInt32) :
    (d.transferNext m n).1 = (d.dmaLoop n (d.dmaLoop m d.bufq 0 d.dmaStartAddr).2.2 0
        (d.dmaStartAddr + m)).2.1 ∧
      (d.transferNext m n).2.bufq = (d.dmaLoop n (d.dmaLoop m d.bufq 0 d.dmaStartAddr).2.2 0
        (d.dmaStartAddr + m)).2.2 := by
  have hnext := transfer_eq { (d.transfer m).2 with dmaStartAddr := d.dmaStartAddr + m } n
  rw [d.dmaLoop_congr { (d.transfer m).2 with dmaStartAddr := d.dmaStartAddr + m } rfl] at hnext
  rw [← (d.transfer_eq m).2]
  exact hnext

/-- Two transfers write what one does and the bytes after them stay in the queue. -/
def Splits (m n : UInt32) : Prop :=
  ((d.transfer m).1 ++ (d.transferNext m n).1).flatMap DmaWrite.bytes =
      (d.transfer (m + n)).1.flatMap DmaWrite.bytes ∧
    rest (d.transfer m).2.bufq = (rest d.bufq).drop m.toNat ∧
    rest (d.transferNext m n).2.bufq = (rest d.bufq).drop (m.toNat + n.toNat) ∧
    rest (d.transfer (m + n)).2.bufq = (rest d.bufq).drop (m.toNat + n.toNat)

/-- In the window, a transfer can be split only if both the first part and the whole end with a
buffer. Then it can be split if the buffers of the first part are unread, or nothing comes after it.
For queues of unread buffers this decides it. -/
theorem transfer_split (d : Drive) (m n : UInt32) (short : Short d.bufq)
    (fits : m.toNat + n.toNat ≤ (rest d.bufq).length)
    (above : d.top ≤ d.dmaStartAddr.toNat)
    (within : d.dmaStartAddr.toNat + m.toNat + n.toNat ≤ d.bot + 1) :
    (d.Splits m n → Ends d.bufq m.toNat ∧ Ends d.bufq (m.toNat + n.toNat)) ∧
      (Ends d.bufq m.toNat → Ends d.bufq (m.toNat + n.toNat) →
        (n = 0 ∨ ∀ b ∈ d.bufq.take (taken d.bufq m.toNat), b.rest = b.dat) → d.Splits m n) := by
  have hbot := d.bot_lt
  have hlimit : m.toNat + n.toNat + bufqLen ≤ 2 ^ 32 := by
    dsimp only [bufqLen]
    omega
  have hsum : (m + n).toNat = m.toNat + n.toNat := by
    rw [UInt32.toNat_add]
    omega
  have hqueue : ∀ k : UInt32, k.toNat + bufqLen ≤ 2 ^ 32 →
      (d.transfer k).2.bufq = d.bufq.drop (taken d.bufq k.toNat) := fun k hk =>
    (d.transfer_eq k).2.trans (d.dmaLoop_queue short (t := 0) hk)
  have hfirst := hqueue m (by omega)
  have hone := hqueue (m + n) (by omega)
  rw [hsum] at hone
  rw [Splits, hfirst, hone]
  constructor
  · rintro ⟨-, hm, -, hmn⟩
    exact ⟨(rest_drop_iff (by omega)).mp hm, (rest_drop_iff fits).mp hmn⟩
  · intro hm hmn hrest
    have hm' := (rest_drop_iff (by omega)).mpr hm
    have hmn' := (rest_drop_iff fits).mpr hmn
    obtain ⟨hcalls, hnext⟩ := d.transferNext_eq m n
    rw [(d.transfer_eq m).1, (d.transfer_eq (m + n)).1, hcalls, hnext]
    rw [(d.transfer_eq m).2] at hfirst
    rcases hrest with rfl | hunread
    · have hdone : ¬(0 : UInt32) < 0 := by decide
      rw [dmaLoop_done d _ hdone, hfirst, UInt32.add_zero]
      exact ⟨by rw [append_nil], hm', hm', hmn'⟩
    · have hwhole := (wholeLen_of_unread hunread).trans hm
      obtain ⟨hsplit, hafter⟩ := d.dmaLoop_split hlimit short (t := 0) UInt32.zero_le above
        (by change _ + m.toNat ≤ _; omega) hwhole
      rw [UInt32.sub_zero] at hsplit hafter
      rw [(d.transfer_eq (m + n)).2] at hone
      rw [← hafter, hone, hsplit]
      exact ⟨rfl, hm', hmn', hmn'⟩

def withBuffers (a : UInt32) (dat dat' : List UInt8) : Drive :=
  { withBuffer a 0 dat with bufq := [⟨0, dat⟩, ⟨0, dat'⟩] }

theorem transfer_split_buffers : (withBuffers 0x0c000000 [1, 2] [3]).Splits 2 1 := by
  refine (transfer_split _ 2 1 ?_ (by decide) (by decide) (by decide)).2 rfl rfl (.inr ?_)
  · simp [Short, withBuffers, bufqLen]
  · simp [withBuffers, taken, Buffer.rest]

/-- A transfer that ends inside of a buffer: the rest of the buffer is lost and the next transfer
begins with the next one. -/
theorem transfer_loses_rest :
    let d := withBuffers 0x0c000000 [1, 2] [3]
    ((d.transfer 1).1 ++ (d.transferNext 1 1).1).flatMap DmaWrite.bytes =
        [(some 1, 0x0c000000), (some 3, 0x0c000001)] ∧
      (d.transfer 2).1.flatMap DmaWrite.bytes =
        [(some 1, 0x0c000000), (some 2, 0x0c000001)] := by
  decide

end Drive
end Gdrom
