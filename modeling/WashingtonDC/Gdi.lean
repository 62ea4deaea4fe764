import Mathlib.Data.List.GetD
import Mathlib.Data.UInt
import Mathlib.Tactic.IntervalCases

/-!
# GDI images

`gdi.c` after an image has been parsed, and `mount_encode_toc` of `mount.c`: the table of contents of
a session, its encoding for the guest, and sectors by their address (FAD). A file is the list of its
bytes; opening, seeking and reading do not fail but at its end.

Sectors are looked up as if every track had sectors of 2352 bytes, and the table of contents uses
the size that the image gives, so that the two agree, and the right bytes are read, for tracks of
that size only. The offset of a track in its file is not used by the source.
-/
namespace Gdi

open UInt32 List

/-- `struct gdi_track`, with the contents of the file. -/
structure Track where
  fadStart : UInt32
  ctrl : UInt32
  sectorSize : UInt32
  file : List UInt8

instance : Inhabited Track := ⟨⟨0, 0, 0, []⟩⟩

/-- An image that `parse_gdi` and `gdi_validate_fmt` accept. -/
structure Image where
  tracks : List Track
  atLeast : 3 ≤ tracks.length
  atMost : tracks.length ≤ 64

/-! ## Sectors -/

/-- `CDROM_FRAME_SIZE`. -/
abbrev cdromFrameSize : Nat := 2352

def fread (file : List UInt8) (offset : Nat) : Option (List UInt8) :=
  if offset + 2048 ≤ file.length then some ((file.drop offset).take 2048) else none

/-- The loop of `mount_read_sector`. -/
def readSector (fad : UInt32) : List Track → Option (List UInt8)
  | [] => none
  | t :: ts =>
    let trackFadCount := ofNat (t.file.length / cdromFrameSize)
    if t.fadStart ≤ fad ∧ fad < t.fadStart + trackFadCount then
      let fadRelative := fad - t.fadStart
      fread t.file (2352 * fadRelative + 16).toNat
    else readSector fad ts

def Track.sectors (t : Track) : Nat := t.file.length / t.sectorSize.toNat

def Track.Contains (t : Track) (fad : Nat) : Prop :=
  t.fadStart.toNat ≤ fad ∧ fad < t.fadStart.toNat + t.sectors

/-- The data of a sector. It follows 16 bytes of header if the sectors have a header. -/
def Track.sector (t : Track) (k : Nat) : List UInt8 :=
  (t.file.drop (t.sectorSize.toNat * k + if t.sectorSize = 2352 then 16 else 0)).take 2048

/-- The sectors are whole frames and the numbers of the source do not overflow. -/
structure Track.Plain (t : Track) : Prop where
  size : t.sectorSize = 2352
  file : cdromFrameSize * t.sectors ≤ 2 ^ 32
  last : t.fadStart.toNat + t.sectors < 2 ^ 32

variable {t : Track} {fad : UInt32} {ts : List Track} {i : Nat}

theorem Track.Plain.sectors (plain : t.Plain) : t.sectors = t.file.length / cdromFrameSize := by
  rw [Track.sectors, plain.size]
  rfl

theorem Track.Plain.contains_iff (plain : t.Plain) (fad : UInt32) :
    (t.fadStart ≤ fad ∧ fad < t.fadStart + ofNat (t.file.length / cdromFrameSize)) ↔
      t.Contains fad.toNat := by
  have hlast := plain.last
  have hsum : (t.fadStart + ofNat (t.file.length / cdromFrameSize)).toNat =
      t.fadStart.toNat + t.sectors := by
    rw [UInt32.toNat_add, ← plain.sectors, toNat_ofNat_of_lt' (by change _ < 2 ^ 32; omega)]
    exact Nat.mod_eq_of_lt hlast
  rw [le_iff_toNat_le, lt_iff_toNat_lt, hsum, Track.Contains]

theorem Track.Plain.fread (plain : t.Plain) (contains : t.Contains fad.toNat) :
    Gdi.fread t.file (2352 * (fad - t.fadStart) + 16).toNat =
      some (t.sector (fad.toNat - t.fadStart.toNat)) := by
  obtain ⟨hstart, hend⟩ := contains
  have hfile := plain.file
  have hsectors := plain.sectors
  dsimp only [cdromFrameSize] at hfile hsectors
  have hrel : (fad - t.fadStart).toNat = fad.toNat - t.fadStart.toNat :=
    UInt32.toNat_sub_of_le _ _ (le_iff_toNat_le.mpr hstart)
  have hoffset : (2352 * (fad - t.fadStart) + 16).toNat =
      2352 * (fad.toNat - t.fadStart.toNat) + 16 := by
    rw [UInt32.toNat_add, UInt32.toNat_mul, hrel]
    change (2352 * _ % 2 ^ 32 + 16) % 2 ^ 32 = _
    omega
  rw [hoffset, Gdi.fread, if_pos (by omega), Track.sector, if_pos plain.size, plain.size]
  rfl

theorem readSector_eq (plain : ∀ t ∈ ts, t.Plain) (mem : t ∈ ts) (contains : t.Contains fad.toNat)
    (only : ∀ u ∈ ts, u.Contains fad.toNat → u = t) :
    readSector fad ts = some (t.sector (fad.toNat - t.fadStart.toNat)) := by
  induction ts with
  | nil => cases mem
  | cons u ts ih =>
    rw [readSector]
    split
    · rename_i hu
      have hut := only u mem_cons_self (((plain u mem_cons_self).contains_iff fad).mp hu)
      subst hut
      exact (plain u mem_cons_self).fread contains
    · rename_i hu
      obtain rfl | hmem := mem_cons.mp mem
      · exact absurd (((plain t mem_cons_self).contains_iff fad).mpr contains) hu
      · exact ih (fun v hv => plain v (mem_cons_of_mem u hv)) hmem
          (fun v hv => only v (mem_cons_of_mem u hv))

theorem readSector_eq_none (plain : ∀ t ∈ ts, t.Plain) (outside : ∀ t ∈ ts, ¬t.Contains fad.toNat) :
    readSector fad ts = none := by
  induction ts with
  | nil => rfl
  | cons u ts ih =>
    rw [readSector, if_neg fun h => outside u mem_cons_self
      (((plain u mem_cons_self).contains_iff fad).mp h)]
    exact ih (fun t ht => plain t (mem_cons_of_mem u ht))
      (fun t ht => outside t (mem_cons_of_mem u ht))

/-! ## The table of contents -/

structure MountTrack where
  ctrl : UInt32
  adr : UInt32
  fad : UInt32
  valid : Bool

/-- `struct mount_toc`. Only the first 99 tracks are there. -/
structure MountToc where
  tracks : Nat → MountTrack
  firstTrack : Nat
  lastTrack : Nat
  leadout : UInt32
  leadoutAdr : UInt32

namespace Image

variable (img : Image)

def track (i : Nat) : Track := img.tracks.getD i default

def fillTracks (nos : List Nat) : Nat → MountTrack :=
  nos.foldl (fun tracks no => Function.update tracks (no - 1)
    ⟨(img.track (no - 1)).ctrl, 1, (img.track (no - 1)).fadStart, true⟩) fun _ => ⟨0, 0, 0, false⟩

def trackRange (session : Nat) : Nat × Nat := if session = 0 then (1, 2) else (3, img.tracks.length)

def leadout (session : Nat) : UInt32 :=
  let last := img.track ((img.trackRange session).2 - 1)
  ofNat (last.file.length / last.sectorSize.toNat + last.fadStart.toNat)

/-- `mount_gdi_read_toc`. There is no result when the source divides by zero. -/
def readToc (session : Nat) : Option MountToc :=
  if 1 < session ∨ (img.track ((img.trackRange session).2 - 1)).sectorSize = 0 then none
  else
    let range := img.trackRange session
    some {
      tracks := img.fillTracks (range' range.1 (range.2 + 1 - range.1))
      firstTrack := range.1, lastTrack := range.2
      leadout := img.leadout session, leadoutAdr := 1 }

def InSession (session i : Nat) : Prop :=
  (img.trackRange session).1 ≤ i + 1 ∧ i + 1 ≤ (img.trackRange session).2

instance (session i : Nat) : Decidable (img.InSession session i) :=
  inferInstanceAs (Decidable (_ ∧ _))

theorem fillTracks_eq (first n i : Nat) (pos : 0 < first) :
    img.fillTracks (range' first n) i =
      if first ≤ i + 1 ∧ i + 1 < first + n then ⟨(img.track i).ctrl, 1, (img.track i).fadStart, true⟩
      else ⟨0, 0, 0, false⟩ := by
  induction n with
  | zero => rw [if_neg (by omega)]; rfl
  | succ n ih =>
    rw [fillTracks, range'_concat, foldl_concat]
    by_cases hi : i = first + n - 1
    · subst hi
      rw [if_pos (by omega), Nat.one_mul, Function.update_self]
    · rw [Nat.one_mul, Function.update_of_ne hi]
      refine Eq.trans ih (if_congr ?_ rfl rfl)
      omega

theorem inSession_iff (lt : i < img.tracks.length) :
    img.InSession 0 i ↔ ¬img.InSession 1 i := by
  simp only [InSession, trackRange, if_pos, if_neg (show ¬1 = 0 by decide)]
  omega

theorem trackRange_le (session : Nat) :
    1 ≤ (img.trackRange session).1 ∧ (img.trackRange session).1 ≤ (img.trackRange session).2 ∧
      (img.trackRange session).2 ≤ img.tracks.length := by
  have hthree := img.atLeast
  unfold trackRange
  split
  · exact ⟨le_refl 1, by decide, by omega⟩
  · exact ⟨by omega, hthree, le_refl _⟩

theorem track_mem (lt : i < img.tracks.length) : img.track i ∈ img.tracks := by
  rw [track, getD_eq_getElem _ _ lt]
  exact getElem_mem lt

theorem last_mem (session : Nat) : img.track ((img.trackRange session).2 - 1) ∈ img.tracks := by
  have hrange := img.trackRange_le session
  exact img.track_mem (by omega)

/-- The sectors of an image are read from the files of their tracks, no others are read, and the
lead-out of a session follows the last sector of its last track. -/
theorem sectors_agree (img : Image) (plain : ∀ t ∈ img.tracks, t.Plain)
    (apart : ∀ t ∈ img.tracks, ∀ u ∈ img.tracks, ∀ fad, t.Contains fad → u.Contains fad → t = u) :
    (∀ t ∈ img.tracks, ∀ fad : UInt32, t.Contains fad.toNat →
        readSector fad img.tracks = some (t.sector (fad.toNat - t.fadStart.toNat))) ∧
      (∀ fad : UInt32, (∀ t ∈ img.tracks, ¬t.Contains fad.toNat) →
        readSector fad img.tracks = none) ∧
      ∀ session toc, img.readToc session = some toc →
        ∀ fad : UInt32, (img.track (toc.lastTrack - 1)).fadStart ≤ fad →
          (fad < toc.leadout ↔ (img.track (toc.lastTrack - 1)).Contains fad.toNat) := by
  refine ⟨fun t ht fad hcontains => readSector_eq plain ht hcontains fun u hu h =>
    apart u hu t ht fad.toNat h hcontains, fun fad => readSector_eq_none plain, ?_⟩
  intro session toc htoc fad hstart
  rw [readToc] at htoc
  split at htoc
  · cases htoc
  · cases htoc
    dsimp only
    have hlast := (plain _ (img.last_mem session)).last
    have hleadout : (img.leadout session).toNat =
        (img.track ((img.trackRange session).2 - 1)).fadStart.toNat +
          (img.track ((img.trackRange session).2 - 1)).sectors := by
      rw [leadout, add_comm]
      exact toNat_ofNat_of_lt' hlast
    rw [lt_iff_toNat_lt, hleadout, Track.Contains]
    exact ⟨fun h => ⟨le_iff_toNat_le.mp hstart, h⟩, fun h => h.2⟩

end Image

/-! ## Encoding -/

/-- The bytes of an address in the other order, for the three high bytes of a word. -/
def swapFad (fad : UInt32) : UInt32 :=
  (fad &&& (0xff0000 : UInt32)) >>> (16 : UInt32) ||| (fad &&& (0x00ff00 : UInt32)) |||
    (fad &&& (0x0000ff : UInt32)) <<< (16 : UInt32)

def adrCtrl (t : MountTrack) : UInt32 :=
  (t.adr &&& (0xf : UInt32)) ||| (t.ctrl <<< (4 : UInt32) &&& (0xf0 : UInt32))

def trackBin (t : MountTrack) : UInt32 := adrCtrl t ||| (swapFad t.fad <<< 8)

def trackNoBin (t : MountTrack) (no : Nat) : UInt32 :=
  adrCtrl t ||| (ofNat no <<< (8 : UInt32) &&& 0xff00)

def leadoutBin (toc : MountToc) : UInt32 :=
  (swapFad toc.leadout <<< 8) ||| toc.leadoutAdr |||
    ((toc.tracks (toc.lastTrack - 1)).ctrl <<< (4 : UInt32) &&& 0xf0)

/-- The words that `mount_encode_toc` stores. -/
def tocWord (toc : MountToc) (i : Nat) : UInt32 :=
  if i < 99 then if (toc.tracks i).valid then trackBin (toc.tracks i) else 0xffffffff
  else if i = 99 then trackNoBin (toc.tracks (toc.firstTrack - 1)) toc.firstTrack
  else if i = 100 then trackNoBin (toc.tracks (toc.lastTrack - 1)) toc.lastTrack
  else leadoutBin toc

def wordByte (w : UInt32) : Nat → UInt8
  | 0 => w.toUInt8
  | 1 => (w >>> 8).toUInt8
  | 2 => (w >>> 16).toUInt8
  | _ => (w >>> 24).toUInt8

/-- `mount_encode_toc`. -/
def encodeToc (toc : MountToc) : List UInt8 :=
  (List.range 408).map fun j => wordByte (tocWord toc (j / 4)) (j % 4)

/-! ## Decoding -/

structure Entry where
  fad : UInt32
  ctrl : UInt32
  adr : UInt32

def readFad (b c d : UInt8) : UInt32 := (b.toUInt32 <<< 16) ||| (c.toUInt32 <<< 8) ||| d.toUInt32

/-- What the guest reads from an encoded table. An entry of ones is no track. -/
structure Decoded where
  entries : Nat → Option Entry
  first : UInt8
  last : UInt8
  leadout : UInt32

def decodeToc (bytes : List UInt8) : Decoded where
  entries i :=
    let byte k := bytes.getD (4 * i + k) 0
    if byte 0 = 0xff ∧ byte 1 = 0xff ∧ byte 2 = 0xff ∧ byte 3 = 0xff then none
    else some ⟨readFad (byte 1) (byte 2) (byte 3), (byte 0 >>> 4).toUInt32, (byte 0 &&& 0xf).toUInt32⟩
  first := bytes.getD 397 0
  last := bytes.getD 401 0
  leadout := readFad (bytes.getD 405 0) (bytes.getD 406 0) (bytes.getD 407 0)

theorem encodeToc_getD (toc : MountToc) {k : Nat} (hi : i < 102) (hk : k < 4) :
    (encodeToc toc).getD (4 * i + k) 0 = wordByte (tocWord toc i) k := by
  have hlt : 4 * i + k < (encodeToc toc).length := by
    rw [encodeToc, length_map, length_range]
    omega
  rw [getD_eq_getElem _ _ hlt]
  simp only [encodeToc, getElem_map, getElem_range]
  rw [show (4 * i + k) / 4 = i by omega, show (4 * i + k) % 4 = k by omega]

theorem readFad_wordByte (fad low : UInt32) (byte : low &&& 0xff = low) :
    readFad (wordByte (low ||| (swapFad fad <<< 8)) 1) (wordByte (low ||| (swapFad fad <<< 8)) 2)
      (wordByte (low ||| (swapFad fad <<< 8)) 3) = fad &&& 0xffffff := by
  rw [← byte]
  apply UInt32.toBitVec_inj.mp
  apply BitVec.eq_of_getLsbD_eq
  intro i hi
  interval_cases i <;> simp [readFad, wordByte, swapFad, -toUInt32_toUInt8]

theorem trackBin_zero (t : MountTrack) :
    (wordByte (trackBin t) 0 >>> 4).toUInt32 = t.ctrl &&& 0xf ∧
      (wordByte (trackBin t) 0 &&& 0xf).toUInt32 = t.adr &&& 0xf := by
  constructor
  all_goals
    apply UInt32.toBitVec_inj.mp
    apply BitVec.eq_of_getLsbD_eq
    intro i hi
    interval_cases i <;> simp [wordByte, trackBin, adrCtrl, -toUInt32_toUInt8,
      -UInt8.toUInt32_shiftLeft, -toUInt8_shiftLeft]

theorem adrCtrl_and (t : MountTrack) : adrCtrl t &&& 0xff = adrCtrl t := by
  apply UInt32.toBitVec_inj.mp
  apply BitVec.eq_of_getLsbD_eq
  intro i hi
  interval_cases i <;> simp [adrCtrl]

theorem trackNoBin_one (t : MountTrack) {no : Nat} (lt : no < 256) :
    (wordByte (trackNoBin t no) 1).toNat = no := by
  have hbyte : wordByte (trackNoBin t no) 1 = (ofNat no).toUInt8 := by
    unfold trackNoBin
    generalize ofNat no = x
    apply UInt8.toBitVec_inj.mp
    apply BitVec.eq_of_getLsbD_eq
    intro i hi
    interval_cases i <;> simp [wordByte, adrCtrl]
  rw [hbyte, toNat_toUInt8, toNat_ofNat']
  omega

theorem and_eq_self {x : UInt32} {k : Nat} (lt : x.toNat < 2 ^ k) (mask : UInt32)
    (hmask : mask.toNat = 2 ^ k - 1) : x &&& mask = x := by
  apply UInt32.toNat_inj.mp
  rw [UInt32.toNat_and, hmask, Nat.and_two_pow_sub_one_eq_mod, Nat.mod_eq_of_lt lt]

theorem decode_trackBin (toc : MountToc) (hi : i < 99) (t : Track)
    (entry : toc.tracks i = ⟨t.ctrl, 1, t.fadStart, true⟩) (ctrl : t.ctrl.toNat < 2 ^ 4)
    (fad : t.fadStart.toNat < 2 ^ 24) :
    (decodeToc (encodeToc toc)).entries i = some ⟨t.fadStart, t.ctrl, 1⟩ := by
  have hword : tocWord toc i = trackBin ⟨t.ctrl, 1, t.fadStart, true⟩ := by
    rw [tocWord, if_pos hi, entry]
    rfl
  obtain ⟨hctrl, hadr⟩ := trackBin_zero ⟨t.ctrl, 1, t.fadStart, true⟩
  have hfad := readFad_wordByte t.fadStart (adrCtrl ⟨t.ctrl, 1, t.fadStart, true⟩) (adrCtrl_and _)
  rw [and_eq_self ctrl 0xf rfl] at hctrl
  rw [and_eq_self fad 0xffffff rfl] at hfad
  dsimp only at hadr
  rw [show (1 : UInt32) &&& 0xf = 1 by decide] at hadr
  simp only [decodeToc, encodeToc_getD toc (show i < 102 by omega), hword, Nat.reduceLT]
  rw [if_neg, hctrl, hadr, trackBin, hfad]
  rintro ⟨hones, -⟩
  rw [hones] at hadr
  exact absurd hadr (by decide)

theorem decode_blank (toc : MountToc) (hi : i < 99) (blank : (toc.tracks i).valid = false) :
    (decodeToc (encodeToc toc)).entries i = none := by
  have hword : tocWord toc i = 0xffffffff := by
    rw [tocWord, if_pos hi, blank]
    rfl
  simp only [decodeToc, encodeToc_getD toc (show i < 102 by omega), hword, Nat.reduceLT]
  rfl

theorem decode_leadoutBin (toc : MountToc) (adr : toc.leadoutAdr = 1)
    (leadout : toc.leadout.toNat < 2 ^ 24) :
    (decodeToc (encodeToc toc)).leadout = toc.leadout := by
  have hword : tocWord toc 101 = adrCtrl ⟨(toc.tracks (toc.lastTrack - 1)).ctrl, 1, 0, true⟩ |||
      (swapFad toc.leadout <<< 8) := by
    rw [UInt32.or_comm]
    change leadoutBin toc = _
    rw [leadoutBin, adr, UInt32.or_assoc, adrCtrl, show (1 : UInt32) &&& 0xf = 1 by decide]
  change readFad (getD _ (4 * 101 + 1) _) (getD _ (4 * 101 + 2) _)
    (getD _ (4 * 101 + 3) _) = _
  simp only [encodeToc_getD _ (show 101 < 102 by decide), hword, Nat.reduceLT]
  rw [readFad_wordByte _ _ (adrCtrl_and _), and_eq_self leadout 0xffffff rfl]

/-- The table of a session is read back from its encoding, and each track is in one session. -/
theorem decodeToc_encodeToc (img : Image) (size : ∀ t ∈ img.tracks, t.sectorSize ≠ 0)
    (ctrl : ∀ t ∈ img.tracks, t.ctrl.toNat < 2 ^ 4)
    (fad : ∀ t ∈ img.tracks, t.fadStart.toNat < 2 ^ 24)
    (leadout : ∀ session, (img.leadout session).toNat < 2 ^ 24) :
    (∀ session < 2, ∃ toc, img.readToc session = some toc ∧ (encodeToc toc).length = 408 ∧
        (∀ i < 99, (decodeToc (encodeToc toc)).entries i = if img.InSession session i
          then some ⟨(img.track i).fadStart, (img.track i).ctrl, 1⟩ else none) ∧
        (decodeToc (encodeToc toc)).first.toNat = (img.trackRange session).1 ∧
        (decodeToc (encodeToc toc)).last.toNat = (img.trackRange session).2 ∧
        (decodeToc (encodeToc toc)).leadout = img.leadout session) ∧
      ∀ i < img.tracks.length, img.InSession 0 i ↔ ¬img.InSession 1 i := by
  refine ⟨fun session hsession => ?_, fun i => img.inSession_iff⟩
  obtain ⟨hfirst, hrange, hlast⟩ := img.trackRange_le session
  have hmost := img.atMost
  have hsize := size _ (img.last_mem session)
  refine ⟨⟨_, _, _, _, _⟩, if_neg (not_or.mpr ⟨by omega, hsize⟩), ?_, ?_, ?_, ?_, ?_⟩
  · rw [encodeToc, length_map, length_range]
  · intro i hi
    have hentry := img.fillTracks_eq (img.trackRange session).1
      ((img.trackRange session).2 + 1 - (img.trackRange session).1) i hfirst
    by_cases hin : img.InSession session i
    · have hmem := img.track_mem (show i < img.tracks.length by have := hin.2; omega)
      rw [if_pos ⟨hin.1, by have := hin.2; omega⟩] at hentry
      rw [decode_trackBin _ hi _ hentry (ctrl _ hmem) (fad _ hmem), if_pos hin]
    · rw [if_neg fun h => hin ⟨h.1, by omega⟩] at hentry
      rw [decode_blank _ hi (congrArg MountTrack.valid hentry), if_neg hin]
  · rw [decodeToc, encodeToc_getD _ (i := 99) (k := 1) (by decide) (by decide)]
    exact trackNoBin_one _ (by dsimp only; omega)
  · rw [decodeToc, encodeToc_getD _ (i := 100) (k := 1) (by decide) (by decide)]
    exact trackNoBin_one _ (by dsimp only; omega)
  · exact decode_leadoutBin _ rfl (leadout session)

def threeFiles (ctrl size : UInt32) (len : Nat) : List Track :=
  [⟨150, ctrl, size, replicate len 1⟩, ⟨151, ctrl, size, replicate len 2⟩,
    ⟨152, ctrl, size, replicate len 3⟩]

theorem threeFiles_length (ctrl size : UInt32) (len : Nat) :
    (threeFiles ctrl size len).length ≤ 64 := by
  show 3 ≤ 64
  decide

def threeTracks (ctrl size : UInt32) (len : Nat) : Image where
  tracks := threeFiles ctrl size len
  atLeast := le_refl 3
  atMost := threeFiles_length ctrl size len

theorem sectors_threeTracks {ctrl size : UInt32} {len : Nat} (one : len / size.toNat = 1)
    (mem : t ∈ (threeTracks ctrl size len).tracks) :
    t.sectors = 1 ∧ t.sectorSize = size ∧
      (t.fadStart = 150 ∧ t = (threeTracks ctrl size len).track 0 ∨
        t.fadStart = 151 ∧ t = (threeTracks ctrl size len).track 1 ∨
        t.fadStart = 152 ∧ t = (threeTracks ctrl size len).track 2) := by
  simp only [threeTracks, threeFiles, mem_cons, not_mem_nil, or_false] at mem
  obtain rfl | rfl | rfl := mem <;>
    simp [Track.sectors, one, Image.track, threeTracks, threeFiles, length_replicate]

theorem leadout_threeTracks {ctrl size : UInt32} {len : Nat} (one : len / size.toNat = 1)
    (session : Nat) :
    (threeTracks ctrl size len).leadout session = if session = 0 then 152 else 153 := by
  rw [Image.leadout, Image.trackRange]
  split <;> simp [Image.track, threeTracks, threeFiles, one]

/-- Three tracks of one sector. -/
theorem decodeToc_encodeToc_three :
    ∃ toc, (threeTracks 4 2352 2352).readToc 1 = some toc ∧
      (decodeToc (encodeToc toc)).leadout = 153 := by
  have hleadout := @leadout_threeTracks 4 2352 2352 (by decide)
  have hsmall : ∀ t ∈ (threeTracks 4 2352 2352).tracks,
      t.sectorSize ≠ 0 ∧ t.ctrl.toNat < 2 ^ 4 ∧ t.fadStart.toNat < 2 ^ 24 := by
    intro t ht
    simp only [threeTracks, threeFiles, mem_cons, not_mem_nil, or_false] at ht
    obtain rfl | rfl | rfl := ht <;> exact ⟨by decide, by decide, by decide⟩
  obtain ⟨toc, htoc, -, -, -, -, htable⟩ := (decodeToc_encodeToc (threeTracks 4 2352 2352)
    (fun t ht => (hsmall t ht).1) (fun t ht => (hsmall t ht).2.1) (fun t ht => (hsmall t ht).2.2)
    fun session => by rw [hleadout]; split <;> decide).1 1 (by decide)
  exact ⟨toc, htoc, htable.trans (hleadout 1)⟩

/-- Only four bits of the control field are encoded. -/
theorem encodeToc_loses_ctrl :
    ∃ toc, (threeTracks 20 2352 0).readToc 1 = some toc ∧
      (decodeToc (encodeToc toc)).entries 2 = some ⟨152, 4, 1⟩ :=
  ⟨_, rfl, rfl⟩

theorem sectors_agree_three :
    readSector 152 (threeTracks 4 2352 2352).tracks =
      some (((threeTracks 4 2352 2352).track 2).sector 0) := by
  have hone : 2352 / (2352 : UInt32).toNat = 1 := by decide
  have hmem : (threeTracks 4 2352 2352).track 2 ∈ (threeTracks 4 2352 2352).tracks :=
    Image.track_mem _ (by decide)
  refine (Image.sectors_agree (threeTracks 4 2352 2352) ?_ ?_).1 _ hmem 152 ?_
  · intro t ht
    obtain ⟨hsectors, hsize, hstart⟩ := sectors_threeTracks hone ht
    refine ⟨hsize, by rw [hsectors]; decide, ?_⟩
    rw [hsectors]
    obtain ⟨h, -⟩ | ⟨h, -⟩ | ⟨h, -⟩ := hstart <;> rw [h] <;> decide
  · intro t ht u hu fad hfad hfad'
    obtain ⟨hsectors, -, hstart⟩ := sectors_threeTracks hone ht
    obtain ⟨hsectors', -, hstart'⟩ := sectors_threeTracks hone hu
    rw [Track.Contains, hsectors] at hfad
    rw [Track.Contains, hsectors'] at hfad'
    have hsame : t.fadStart.toNat = u.fadStart.toNat := by omega
    have hsame : t.fadStart = u.fadStart := UInt32.toNat_inj.mp hsame
    grind
  · rw [Track.Contains, (sectors_threeTracks hone hmem).1]
    decide

/-- A sector of a track with sectors of 2048 bytes is not found. -/
theorem readSector_misses :
    ((threeTracks 4 2048 2048).track 2).Contains 152 ∧
      readSector 152 (threeTracks 4 2048 2048).tracks = none := by
  constructor
  · rw [Track.Contains, (sectors_threeTracks (by decide) (Image.track_mem _ (by decide))).1]
    decide
  · have hnone (n : Nat) (h : n / 2352 = 0) :
        readSector 152 (threeTracks 4 2048 n).tracks = none := by
      simp [readSector, threeTracks, threeFiles, h]
    exact hnone 2048 (by decide)

end Gdi
