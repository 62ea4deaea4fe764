import Mathlib.Data.List.TakeWhile
import Mathlib.Data.UInt
import Mathlib.Tactic.IntervalCases

/-!
# Hexadecimal numbers in strings

`string_append_hex32` and `string_read_hex32` of `stringlib.c`. The function that reads compares the
start index with the length of the string, but then it reads from the beginning.
-/
namespace StringLib

open List UInt32 Nat

def hexTbl : List Char :=
  ['0', '1', '2', '3', '4', '5', '6', '7', '8', '9', 'a', 'b', 'c', 'd', 'e', 'f']

def stringAppendHex32 (str : List Char) (val : UInt32) : List Char :=
  str ++ (range 8).map fun digit =>
    let shift := ofNat (4 * (7 - digit))
    let mask := (0xf : UInt32) <<< shift
    hexTbl.getD ((mask &&& val) >>> shift).toNat '0'

def isHexDigit (c : Char) : Bool :=
  ('a' ≤ c && c ≤ 'f') || ('A' ≤ c && c ≤ 'F') || ('0' ≤ c && c ≤ '9')

/-- `get_hex_val` for a digit. -/
def getHexVal (c : Char) : Nat :=
  if 'a' ≤ c ∧ c ≤ 'f' then c.toNat - 97 + 10
  else if 'A' ≤ c ∧ c ≤ 'F' then c.toNat - 65 + 10
  else c.toNat - 48

/-- The loop that fills `dat`, with the number of bytes that are left. -/
def readDigits : Nat → List Char → List Nat
  | 0, _ => []
  | _ + 1, [] => []
  | n + 1, c :: cs => if isHexDigit c then getHexVal c :: readDigits n cs else []

def stringReadHex32 (str : List Char) (startIdx : Nat) : UInt32 :=
  if str.length ≤ startIdx then 0
  else (readDigits 8 str).foldl (fun val d => val <<< 4 ||| ofNat d) 0

def hexValue (digits : List Nat) : Nat := digits.foldl (fun n d => 16 * n + d) 0

/-- The value of the longest run of at most eight digits that starts at the index. -/
def runValue (str : List Char) (startIdx : Nat) : UInt32 :=
  ofNat (hexValue ((((str.drop startIdx).takeWhile isHexDigit).take 8).map getHexVal))

theorem readDigits_eq (n : Nat) (cs : List Char) :
    readDigits n cs = ((cs.takeWhile isHexDigit).take n).map getHexVal := by
  induction n generalizing cs with
  | zero => simp [readDigits]
  | succ n ih =>
    cases cs with
    | nil => rfl
    | cons c cs => by_cases hc : isHexDigit c = true <;> simp [readDigits, ih, hc]

theorem getHexVal_lt {c : Char} (hex : isHexDigit c = true) : getHexVal c < 16 := by
  simp only [isHexDigit, Bool.or_eq_true, Bool.and_eq_true, decide_eq_true_eq, Char.le_def,
    le_iff_toNat_le, Char.toNat_val] at hex
  simp only [getHexVal, Char.le_def, le_iff_toNat_le, Char.toNat_val]
  simp only [Char.reduceToNat] at *
  split_ifs <;> omega

theorem readDigits_lt {n : Nat} {cs : List Char} : ∀ d ∈ readDigits n cs, d < 16 := by
  rw [readDigits_eq]
  intro d hd
  obtain ⟨c, hc, rfl⟩ := mem_map.mp hd
  exact getHexVal_lt (mem_takeWhile_imp (mem_of_mem_take hc))

theorem or_digit (n : Nat) {d : Nat} (digit : d < 16) :
    ofNat n <<< 4 ||| ofNat d = ofNat (16 * n + d) := by
  have hshift : n % 2 ^ 32 * 2 ^ 4 % 2 ^ 32 = 2 ^ 4 * (n % 2 ^ 28) := by omega
  have hdigit : d % 2 ^ 32 = d := by omega
  apply UInt32.toNat_inj.mp
  simp only [UInt32.toNat_or, UInt32.toNat_shiftLeft, toNat_ofNat']
  rw [show (4 : UInt32).toNat % 32 = 4 from rfl, shiftLeft_eq, hshift, hdigit,
    ← two_pow_add_eq_or_of_lt digit]
  omega

theorem foldl_digits {digits : List Nat} (small : ∀ d ∈ digits, d < 16) (n : Nat) :
    digits.foldl (fun val d => val <<< (4 : UInt32) ||| ofNat d) (ofNat n) =
      ofNat (digits.foldl (fun n d => 16 * n + d) n) := by
  induction digits generalizing n with
  | nil => rfl
  | cons d digits ih =>
    obtain ⟨hd, hdigits⟩ := forall_mem_cons.mp small
    rw [foldl_cons, or_digit n hd, ih hdigits, foldl_cons]

theorem stringReadHex32_eq {str : List Char} {startIdx : Nat} (inside : startIdx < str.length) :
    stringReadHex32 str startIdx = runValue str 0 := by
  rw [stringReadHex32, if_neg (by omega), runValue, drop_zero, ← readDigits_eq]
  exact foldl_digits readDigits_lt 0

theorem nibble (val : UInt32) {k : Nat} (lt : k < 8) :
    ((((0xf : UInt32) <<< ofNat (4 * k)) &&& val) >>> ofNat (4 * k)).toNat =
      val.toNat / 16 ^ k % 16 := by
  have hshift : (ofNat (4 * k)).toNat % 32 = 4 * k := by
    rw [toNat_ofNat']
    omega
  have hmask : 15 * 2 ^ (4 * k) < 2 ^ 32 := by
    interval_cases k <;> decide
  simp only [UInt32.toNat_shiftRight, UInt32.toNat_and, UInt32.toNat_shiftLeft, hshift]
  rw [show (0xf : UInt32).toNat = 15 from rfl, shiftLeft_eq, Nat.mod_eq_of_lt hmask,
    shiftRight_and_distrib, ← shiftLeft_eq, shiftLeft_shiftRight, Nat.and_comm,
    and_two_pow_sub_one_eq_mod _ 4, shiftRight_eq_div_pow, pow_mul]
  rfl

theorem getHexVal_hexTbl : ∀ n < 16, isHexDigit (hexTbl.getD n '0') = true ∧
    getHexVal (hexTbl.getD n '0') = n := by
  decide

theorem stringAppendHex32_eq (s : List Char) (val : UInt32) : stringAppendHex32 s val =
    s ++ (range 8).map fun digit => hexTbl.getD (val.toNat / 16 ^ (7 - digit) % 16) '0' := by
  rw [stringAppendHex32]
  refine congrArg (s ++ ·) (map_congr_left fun digit _ => ?_)
  dsimp only
  rw [nibble val (by omega)]

theorem runValue_append (s rest : List Char) (val : UInt32) :
    runValue (stringAppendHex32 s val ++ rest) s.length = val := by
  have hdigit := fun digit => getHexVal_hexTbl (val.toNat / 16 ^ (7 - digit) % 16)
    (Nat.mod_lt _ (by decide))
  have hall : ∀ c ∈ (range 8).map (fun digit =>
      hexTbl.getD (val.toNat / 16 ^ (7 - digit) % 16) '0'), isHexDigit c = true := by
    intro c hc
    obtain ⟨digit, -, rfl⟩ := mem_map.mp hc
    exact (hdigit digit).1
  have hlt := val.toNat_lt
  rw [stringAppendHex32_eq, runValue, append_assoc, drop_left,
    takeWhile_append_of_pos hall, take_left' (by simp), map_map,
    show getHexVal ∘ _ = _ from funext fun digit => (hdigit digit).2]
  refine (congrArg ofNat ?_).trans UInt32.ofNat_toNat
  simp only [hexValue, range_succ, range_zero, map_append, map_cons,
    map_nil, foldl_append, foldl_cons, foldl_nil]
  omega

/-- A number is read at an index, and the one that was appended there is read back, if and only if
the digits at the beginning of the string have its value. At the index 0 they have. -/
theorem stringReadHex32_iff (str : List Char) (k : Nat) :
    (stringReadHex32 str k = runValue str k ↔
      str.length ≤ k ∨ runValue str 0 = runValue str k) ∧
    ∀ (rest : List Char) (val : UInt32), k ≤ str.length →
      (stringReadHex32 (stringAppendHex32 (str.take k) val ++ rest) k = val ↔
        k = 0 ∨ runValue (stringAppendHex32 (str.take k) val ++ rest) 0 = val) := by
  constructor
  · by_cases hk : str.length ≤ k
    · rw [stringReadHex32, if_pos hk, runValue, drop_eq_nil_of_le hk]
      exact iff_of_true rfl (.inl hk)
    · rw [stringReadHex32_eq (by omega), or_iff_right hk]
  · intro rest val hk
    have hlength : (str.take k).length = k := length_take_of_le hk
    have hback := runValue_append (str.take k) rest val
    rw [hlength] at hback
    rw [stringReadHex32_eq (by simp [stringAppendHex32, hlength])]
    constructor
    · exact .inr
    · rintro (rfl | heq)
      · exact hback
      · exact heq

/-- The number 0x12 is not read back behind the character 0. -/
theorem stringReadHex32_from_start : stringReadHex32 (stringAppendHex32 ['0'] 0x12) 1 = 1 := by
  decide +kernel

end StringLib
