import Synthol.Data.Numeral
import Synthol.Setup.Strlen

/-!
# itoa

`itoa` of `src/src/setup.c` writes the sixteen hexadecimal digits of a 64-bit number and a NUL, from the last byte down.
The loop keeps what it has written: after `n` rounds the `n` bytes from the pointer up are the numeral of what has been
consumed (`bytes_itoaLoop`), and everything else is as it was (`itoaLoop_other`).
-/

namespace Synthol.Setup

open X86 Numeral

/-! ## The code -/

/-- `static const char *digits = "0123456789abcdef"`. -/
def hexDigits : List Byte :=
  ['0', '1', '2', '3', '4', '5', '6', '7', '8', '9', 'a', 'b', 'c', 'd', 'e', 'f'].map fun c => BitVec.ofNat 8 c.toNat

/-- The rounds of the loop that are left: `*--p = digits[x % 16]; x >>= 4;`. -/
def itoaLoop : Nat → Word → Word → Mem → Mem
  | 0, _, _, m => m
  | n + 1, p, x, m => itoaLoop n (p - 1) (x >>> 4) (m.write8 (p - 1) (hexDigits.getD (x.toNat % 16) 0))

def itoa (p x : Word) (m : Mem) : Mem := itoaLoop 16 (p + 16) x (m.write8 (p + 16) 0)

/-! ## Strings in memory -/

/-- The `n` bytes from `p` up. -/
def bytes (m : Mem) (p : Word) : Nat → List Byte
  | 0 => []
  | n + 1 => bytes m p n ++ [m (p + BitVec.ofNat 64 n)]

/-! ## The loop -/

/-- The digit for a number below 16. -/
def digit (d : Nat) : Byte := hexDigits.getD d 0

theorem itoaLoop_other {n : Nat} (hn : n < 2 ^ 64) : ∀ {p x : Word} {m : Mem} {a : Word},
    ¬Within (p - BitVec.ofNat 64 n) n a → itoaLoop n p x m a = m a := by
  induction n with
  | zero => intros; rfl
  | succ n ih =>
    intro p x m a ha
    have hp : p - BitVec.ofNat 64 (n + 1) = p - 1 - BitVec.ofNat 64 n := by bv_omega
    rw [hp] at ha
    rw [itoaLoop, ih (by omega) fun h => ha (h.mono (Nat.le_succ n)), Mem.write8_other]
    rintro rfl
    apply ha
    unfold Within
    bv_omega

/-- **The loop** writes a numeral. -/
theorem bytes_itoaLoop {n : Nat} (hn : n < 2 ^ 64) : ∀ (p x : Word) (m : Mem),
    bytes (itoaLoop n p x m) (p - BitVec.ofNat 64 n) n = (digits 16 n x.toNat).map digit := by
  induction n with
  | zero => intros; rfl
  | succ n ih =>
    intro p x m
    have hp : p - BitVec.ofNat 64 (n + 1) = p - 1 - BitVec.ofNat 64 n := by bv_omega
    have hx : (x >>> 4).toNat = x.toNat / 16 := by
      rw [BitVec.toNat_ushiftRight, Nat.shiftRight_eq_div_pow]
    have hlast : p - 1 - BitVec.ofNat 64 n + BitVec.ofNat 64 n = p - 1 := BitVec.sub_add_cancel _ _
    have hw : ¬Within (p - 1 - BitVec.ofNat 64 n) n (p - 1) := by
      unfold Within
      bv_omega
    rw [bytes, hp, itoaLoop, ih (by omega), hlast, itoaLoop_other (by omega) hw, Mem.write8_self, hx, digits,
      List.map_append]
    rfl

theorem bytes_itoa (p x : Word) (m : Mem) : bytes (itoa p x m) p 16 = (digits 16 16 x.toNat).map digit := by
  have h := bytes_itoaLoop (n := 16) (by omega) (p + 16) x (m.write8 (p + 16) 0)
  rwa [show BitVec.ofNat 64 16 = 16 from rfl, BitVec.add_sub_cancel] at h

theorem itoa_other {p x a : Word} {m : Mem} (h : ¬Within p 17 a) : itoa p x m a = m a := by
  have hp : p + 16 - BitVec.ofNat 64 16 = p := BitVec.add_sub_cancel p 16
  rw [itoa, itoaLoop_other (by omega), Mem.write8_other]
  · rintro rfl
    apply h
    unfold Within
    bv_omega
  · rw [hp]
    exact fun hw => h (hw.mono (by omega))

theorem itoa_nul (p x : Word) (m : Mem) : itoa p x m (p + 16) = 0 := by
  have hp : p + 16 - BitVec.ofNat 64 16 = p := BitVec.add_sub_cancel p 16
  rw [itoa, itoaLoop_other (by omega), Mem.write8_self]
  rw [hp]
  unfold Within
  bv_omega

/-! ## Digits -/

/-- `0` to `9` or `a` to `f`. -/
def IsHexDigit (c : Byte) : Prop := (0x30 ≤ c ∧ c ≤ 0x39) ∨ (0x61 ≤ c ∧ c ≤ 0x66)

instance (c : Byte) : Decidable (IsHexDigit c) := inferInstanceAs (Decidable (_ ∨ _))

/-- The number that a hexadecimal digit stands for. -/
def hexValue (c : Byte) : Nat := if c ≤ 0x39 then c.toNat - 0x30 else c.toNat - 0x61 + 10

/-- A hexadecimal string, the most significant digit first. -/
def decode (l : List Byte) : Nat := value 16 (l.map hexValue)

theorem isHexDigit_digit {d : Nat} (h : d < 16) : IsHexDigit (digit d) := by
  have hall : ∀ d < 16, IsHexDigit (digit d) := by decide
  exact hall d h

theorem hexValue_digit {d : Nat} (h : d < 16) : hexValue (digit d) = d := by
  have hall : ∀ d < 16, hexValue (digit d) = d := by decide
  exact hall d h

/-- The gap between `9` and `a` keeps the order. -/
theorem digit_lt_digit {d e : Nat} (hd : d < 16) (he : e < 16) : digit d < digit e ↔ d < e := by
  have hall : ∀ d < 16, ∀ e < 16, digit d < digit e ↔ d < e := by decide
  exact hall d hd e he

/-! ## What is printed -/

/-- `SAY(X)`: the bytes that `HYPERCALL_console_io(CONSOLEIO_write, strlen(X), X)` is given. -/
def say (fuel : Nat) (m : Mem) (p : Word) : Option (List Byte) :=
  (strlen fuel m p).map fun n => bytes m p n.toNat

/-- `SAYU(X)`, with `buf` where `buf` is. -/
def sayu (fuel : Nat) (m : Mem) (buf x : Word) : Option (List Byte) := say fuel (itoa buf x m) buf

theorem mem_bytes {m : Mem} {p : Word} {n k : Nat} (hk : k < n) : m (p + BitVec.ofNat 64 k) ∈ bytes m p n := by
  induction n with
  | zero => cases hk
  | succ n ih =>
    rw [bytes, List.mem_append, List.mem_singleton]
    rcases Nat.lt_succ_iff_lt_or_eq.mp hk with hk | rfl
    · exact .inl (ih hk)
    · exact .inr rfl

section Results

variable (p x : Word) (m : Mem)

theorem isHexDigit_itoa : ∀ c ∈ bytes (itoa p x m) p 16, IsHexDigit c := by
  intro c hc
  rw [bytes_itoa, List.mem_map] at hc
  obtain ⟨d, hd, rfl⟩ := hc
  exact isHexDigit_digit (lt_of_mem_digits (by omega) hd)

theorem stringAt_itoa : StringAt (itoa p x m) p 16 := by
  refine ⟨itoa_nul p x m, fun k hk h0 => ?_⟩
  have hd := isHexDigit_itoa p x m _ (mem_bytes hk)
  rw [h0] at hd
  exact absurd hd (by decide)

theorem value_hex : value 16 (digits 16 16 x.toNat) = x.toNat := value_digits (Nat.lt_of_lt_of_le x.isLt (by decide))

theorem decode_itoa : decode (bytes (itoa p x m) p 16) = x.toNat := by
  rw [decode, bytes_itoa, List.map_map]
  have hid : (digits 16 16 x.toNat).map (hexValue ∘ digit) = digits 16 16 x.toNat :=
    (List.map_congr_left fun d hd => hexValue_digit (lt_of_mem_digits (by omega) hd)).trans (List.map_id _)
  rw [hid, value_hex]

/-- Strings written by itoa compare as the numbers. -/
theorem itoa_lt_itoa (q y : Word) (m' : Mem) :
    bytes (itoa p x m) p 16 < bytes (itoa q y m') q 16 ↔ x < y := by
  have hlt : ∀ z : Word, ∀ d ∈ digits 16 16 z.toNat, d < 16 := fun z d hd => lt_of_mem_digits (by omega) hd
  rw [bytes_itoa, bytes_itoa,
    map_lt_map_iff (p := (· < 16)) (fun d e => digit_lt_digit) (fun d e hd he h => ?_) (hlt x) (hlt y),
    lt_iff_value_lt (b := 16) (by simp) (hlt x) (hlt y), value_hex, value_hex, BitVec.lt_def]
  rw [← hexValue_digit hd, h, hexValue_digit he]

/-- `SAYU` prints the sixteen digits. -/
theorem sayu_eq {fuel : Nat} (hf : 16 < fuel) : sayu fuel m p x = some ((digits 16 16 x.toNat).map digit) := by
  rw [sayu, say, strlen_eq (stringAt_itoa p x m) hf, Option.map_some, ← bytes_itoa p x m]
  rfl

/-- **itoa is faithful**: it writes bytes 0 to 16 and nothing else, sixteen lowercase hexadecimal digits and a NUL; the
digits are those of `x`, and strings compare as the numbers do. -/
theorem itoa_faithful :
    (∀ a, ¬Within p 17 a → itoa p x m a = m a) ∧ itoa p x m (p + 16) = 0 ∧
      (∀ c ∈ bytes (itoa p x m) p 16, IsHexDigit c) ∧ (∀ fuel, 16 < fuel → strlen fuel (itoa p x m) p = some 16) ∧
      decode (bytes (itoa p x m) p 16) = x.toNat ∧
      ∀ q y m', x < y ↔ bytes (itoa p x m) p 16 < bytes (itoa q y m') q 16 :=
  ⟨fun _ h => itoa_other h, itoa_nul p x m, isHexDigit_itoa p x m, fun _ hf => strlen_eq (stringAt_itoa p x m) hf,
    decode_itoa p x m, fun q y m' => (itoa_lt_itoa p x m q y m').symm⟩

end Results

end Synthol.Setup
