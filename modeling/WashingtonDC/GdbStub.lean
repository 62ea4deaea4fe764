import WashingtonDC.StringLib

/-!
# Packets of the GDB stub

`craft_packet`, `extract_packet`, `next_packet` and the input loop `handle_read` of `gdb_stub.cpp`.
What the packets do is left open: the answer is any function of the packets that were handled.
A string ends at its NUL, so that there is none among its characters.
-/
namespace GdbStub

open List

/-- The character that equals `EOF`. -/
def eof : Char := Char.ofNat 255

def hexDigit (n : UInt8) : Char := StringLib.hexTbl.getD n.toNat '0'

def craftPacket (input : List Char) : List Char :=
  let csum : UInt8 := input.foldl (fun csum c => csum + UInt8.ofNat c.toNat) 0
  '$' :: (input ++ ['#', hexDigit (csum >>> 4), hexDigit (csum &&& 0xf)])

/-- What is between the first `$` and the last `#`. -/
def extractPacket (packet : List Char) : List Char :=
  match packet.findIdx? (· = '$'), packet.reverse.findIdx? (· = '#') with
  | some dollar, some pound => (packet.take (packet.length - 1 - pound)).drop (dollar + 1)
  | _, _ => []

/-- The characters up to the first `stop`, and those behind it. -/
def readUntil (stop : Char) : List Char → Option (List Char × List Char)
  | [] => none
  | ch :: rest =>
    if ch = eof then none
    else if ch = stop then some ([ch], rest)
    else (readUntil stop rest).map fun (front, rest) => (ch :: front, rest)

/-- The packet that `next_packet` finds. -/
def nextPacket (buf : List Char) : Option (List Char) := do
  let (_, rest) ← readUntil '$' buf
  let (body, rest) ← readUntil '#' rest
  match rest with
  | c :: d :: _ => if c = eof ∨ d = eof then none else some ('$' :: (body ++ [c, d]))
  | _ => none

structure Stub where
  inputPacket : List Char
  unackPacket : List Char
  transmitted : List Char
  handled : List (List Char)
  breaks : Nat

variable (respond : List (List Char) → Option (List Char))

def handlePacket (s : Stub) (pkt : List Char) : Stub :=
  let s := { s with handled := s.handled ++ [pkt] }
  match respond s.handled with
  | none => s
  | some response =>
    let pkt := craftPacket response
    { s with unackPacket := pkt, transmitted := s.transmitted ++ pkt }

def stringAppendChar (dst : List Char) (ch : Char) : List Char :=
  if ch = Char.ofNat 0 then dst else dst ++ [ch]

/-- One turn of the loop of `handle_read`. -/
def handleChar (s : Stub) (c : Char) : Stub :=
  if s.inputPacket ≠ [] then
    let s := { s with unackPacket := [], inputPacket := stringAppendChar s.inputPacket c }
    match nextPacket s.inputPacket with
    | none => s
    | some pkt =>
      handlePacket respond { s with inputPacket := [], transmitted := s.transmitted ++ ['+'] } pkt
  else if c = '+' then { s with unackPacket := [] }
  else if c = '-' then { s with transmitted := s.transmitted ++ s.unackPacket }
  else if c = '$' then { s with inputPacket := ['$'] }
  else if c = Char.ofNat 3 then { s with breaks := s.breaks + 1 }
  else s

def handleRead (s : Stub) (chunk : List Char) : Stub := chunk.foldl (handleChar respond) s

def Payload (p : List Char) : Prop := ∀ c ∈ p, c ≠ '$' ∧ c ≠ '#' ∧ c ≠ Char.ofNat 0 ∧ c ≠ eof

def Acks (cs : List Char) : Prop := ∀ c ∈ cs, c = '+' ∨ c = '-'

section
variable {p cs : List Char} {c d : Char}

theorem hexDigit_ne (n : UInt8) :
    hexDigit n ≠ '#' ∧ hexDigit n ≠ Char.ofNat 0 ∧ hexDigit n ≠ eof := by
  have hall : ∀ c ∈ StringLib.hexTbl, c ≠ '#' ∧ c ≠ Char.ofNat 0 ∧ c ≠ eof := by
    simp [StringLib.hexTbl, eof]
  apply hall
  rw [hexDigit, getD_eq_getElem?_getD]
  cases hget : StringLib.hexTbl[n.toNat]? with
  | none => decide
  | some c => exact mem_of_getElem? hget

theorem extractPacket_craftPacket (p : List Char) : extractPacket (craftPacket p) = p := by
  simp [extractPacket, craftPacket, findIdx?_cons, hexDigit_ne]

theorem readUntil_append (clean : Payload p) : readUntil '#' (p ++ cs) =
    (readUntil '#' cs).map fun (front, rest) => (p ++ front, rest) := by
  induction p with
  | nil => simp
  | cons b p ih =>
    obtain ⟨⟨-, hb, -, heof⟩, hclean⟩ := forall_mem_cons.mp clean
    simp [readUntil, hb, heof, ih hclean, Function.comp_def]

theorem nextPacket_dollar (buf : List Char) : nextPacket ('$' :: buf) =
    (readUntil '#' buf).bind fun (body, rest) => match rest with
      | c :: d :: _ => if c = eof ∨ d = eof then none else some ('$' :: (body ++ [c, d]))
      | _ => none := rfl

/-- Nothing was handled, and the buffer holds the characters. -/
def Waits (s s' : Stub) (buf : List Char) : Prop := s'.inputPacket = buf ∧ s'.handled = s.handled

variable {s s' : Stub} {buf pkt : List Char}

section
variable (waits : Waits s s' buf) (opened : buf ≠ []) (text : c ≠ Char.ofNat 0)
include waits opened text

theorem Waits.char (more : nextPacket (buf ++ [c]) = none) :
    Waits s (handleChar respond s' c) (buf ++ [c]) := by
  obtain ⟨rfl, hhandled⟩ := waits
  simpa [Waits, handleChar, stringAppendChar, opened, text, more] using hhandled

theorem Waits.found (found : nextPacket (buf ++ [c]) = some pkt) :
    (handleChar respond s' c).inputPacket = [] ∧
      (handleChar respond s' c).handled = s.handled ++ [pkt] := by
  obtain ⟨rfl, hhandled⟩ := waits
  simp only [handleChar, stringAppendChar, ne_eq, opened, text, not_false_eq_true, if_true, if_false,
    found, handlePacket, hhandled]
  split <;> exact ⟨rfl, rfl⟩

end

theorem Waits.payload (waits : Waits s s' ('$' :: p)) (clean : Payload (p ++ cs)) :
    Waits s (cs.foldl (handleChar respond) s') ('$' :: (p ++ cs)) := by
  induction cs generalizing p s' with
  | nil => simpa using waits
  | cons c cs ih =>
    rw [append_cons] at clean ⊢
    have hfree : Payload (p ++ [c]) := fun x hx => clean x (mem_append_left _ hx)
    refine ih (waits.char respond (cons_ne_nil _ _) (hfree c (by simp)).2.2.1 ?_) clean
    rw [cons_append, nextPacket_dollar, ← append_nil (p ++ [c]), readUntil_append hfree]
    rfl

theorem foldl_craftPacket (clean : Payload p) (idle : s.inputPacket = []) :
    ((craftPacket p).foldl (handleChar respond) s).inputPacket = [] ∧
      ((craftPacket p).foldl (handleChar respond) s).handled = s.handled ++ [craftPacket p] := by
  have hopen : Waits s (handleChar respond s '$') ['$'] := by
    simp [Waits, handleChar, idle]
  have hpayload := hopen.payload respond (p := []) clean
  rw [craftPacket]
  generalize hd1 : hexDigit _ = d1
  generalize hd2 : hexDigit _ = d2
  obtain ⟨-, htext1, hne1⟩ := hd1 ▸ hexDigit_ne _
  obtain ⟨-, htext2, hne2⟩ := hd2 ▸ hexDigit_ne _
  have hnext : ∀ cs, nextPacket ('$' :: (p ++ '#' :: cs)) = _ := fun cs => by
    rw [nextPacket_dollar, readUntil_append clean,
      show readUntil '#' ('#' :: cs) = some (['#'], cs) from rfl, Option.map_some, Option.bind_some]
  have hpound := hpayload.char respond (c := '#') (cons_ne_nil _ _) (by decide) (hnext [])
  have hdigit := hpound.char respond (by simp) htext1 (by simpa using hnext [d1])
  have hlast := hdigit.found respond (by simp) htext2 (by
    simpa [hne1, hne2] using hnext [d1, d2])
  simpa using hlast

theorem foldl_acks (acks : Acks cs) (idle : s.inputPacket = []) :
    Waits s (cs.foldl (handleChar respond) s) [] := by
  induction cs generalizing s with
  | nil => exact ⟨idle, rfl⟩
  | cons c cs ih =>
    obtain ⟨hc, hcs⟩ := forall_mem_cons.mp acks
    have hstep : Waits s (handleChar respond s c) [] := by
      rcases hc with rfl | rfl <;> simp [Waits, handleChar, idle]
    obtain ⟨hbuf, hhandled⟩ := ih hcs hstep.1
    exact ⟨hbuf, hhandled.trans hstep.2⟩

end

/-- Packets with acknowledgements before and between them, in any chunks, are handled one by one
with their payloads, and nothing is left in the buffer. -/
theorem handleRead_packets (s : Stub) (idle : s.inputPacket = [])
    (frames : List (List Char × List Char)) (wellFormed : ∀ f ∈ frames, Acks f.1 ∧ Payload f.2)
    (last : List Char) (acks : Acks last) (chunks : List (List Char))
    (stream : chunks.flatten = (frames.flatMap fun f => f.1 ++ craftPacket f.2) ++ last) :
    (chunks.foldl (handleRead respond) s).inputPacket = [] ∧
      ∃ pkts, (chunks.foldl (handleRead respond) s).handled = s.handled ++ pkts ∧
        pkts.map extractPacket = frames.map Prod.snd := by
  have hchunks : chunks.foldl (handleRead respond) s = chunks.flatten.foldl (handleChar respond) s :=
    foldl_flatten.symm
  rw [hchunks, stream]
  clear hchunks stream
  induction frames generalizing s with
  | nil =>
    obtain ⟨hbuf, hhandled⟩ := foldl_acks respond acks idle
    exact ⟨hbuf, [], by simpa using hhandled, rfl⟩
  | cons f frames ih =>
    obtain ⟨⟨hacks, hpayload⟩, hframes⟩ := forall_mem_cons.mp wellFormed
    obtain ⟨hidle, hhandled⟩ := foldl_acks respond hacks idle
    obtain ⟨hidle', hhandled'⟩ := foldl_craftPacket respond hpayload hidle
    obtain ⟨hbuf, pkts, hpkts, hextract⟩ := ih _ hidle' hframes
    simp only [flatMap_cons, foldl_append, append_assoc] at hbuf hpkts ⊢
    refine ⟨hbuf, craftPacket f.2 :: pkts, ?_, ?_⟩
    · rw [hpkts, hhandled', hhandled, append_assoc]
      rfl
    · rw [map_cons, map_cons, extractPacket_craftPacket, hextract]

/-- Two packets in three reads. -/
theorem handleRead_two_packets :
    ((["+$", "g#6", "7+$c#63"].map String.toList).foldl (handleRead fun _ => none)
      ⟨[], [], [], [], 0⟩).inputPacket = [] :=
  (handleRead_packets _ ⟨[], [], [], [], 0⟩ rfl [(['+'], ['g']), (['+'], ['c'])]
    (by simp [Acks, Payload]; decide) [] (by simp [Acks]) _ (by decide)).1

end GdbStub
