import Synthol.X86.Mem

/-!
# strlen

`strlen` of `src/musl/src/string/strlen.c` goes byte by byte to an aligned address, then word by word until a word has
a zero byte, then byte by byte again. The loops run on fuel; `strlen_eq` says that fuel for the bytes up to the NUL is
enough, and that the result is their number.
-/

namespace Synthol.Setup

open X86

/-! ## The code -/

def ones : Word := 0x0101010101010101
def highs : Word := 0x8080808080808080

/-- `HASZERO(x)`. -/
def hasZero (x : Word) : Word := (x - ones) &&& ~~~x &&& highs

section Loops

variable (m : Mem) (a : Word)

/-- `for (s = (const void *)w; *s; s++); return s-a;` -/
def strlenBytes : Nat → Word → Option Word
  | 0, _ => none
  | n + 1, s => if m s = 0 then some (s - a) else strlenBytes n (s + 1)

/-- `for (w = (const void *)s; !HASZERO(*w); w++);` -/
def strlenWords : Nat → Word → Option Word
  | 0, _ => none
  | n + 1, w => if hasZero (m.read64 w) = 0 then strlenWords n (w + 8) else strlenBytes m a (n + 1) w

/-- `for (; (uintptr_t)s % ALIGN; s++) if (!*s) return s-a;` -/
def strlenAlign : Nat → Word → Option Word
  | 0, _ => none
  | n + 1, s =>
    if s.toNat % 8 ≠ 0 then if m s = 0 then some (s - a) else strlenAlign n (s + 1) else strlenWords m a (n + 1) s

end Loops

def strlen (fuel : Nat) (m : Mem) (a : Word) : Option Word := strlenAlign m a fuel a

/-! ## Zero bytes -/

/-- Byte `k` of a load. -/
theorem load_byte (m : Mem) (a : Word) {n k : Nat} (hk : k < n) :
    m.load a n / 2 ^ (8 * k) % 2 ^ 8 = (m (a + BitVec.ofNat 64 k)).toNat := by
  apply Nat.eq_of_testBit_eq
  intro i
  rw [Nat.testBit_mod_two_pow, Nat.testBit_div_two_pow, Mem.testBit_load, BitVec.testBit_toNat]
  by_cases hi : i < 8
  · rw [decide_eq_true hi, decide_eq_true (show i + 8 * k < 8 * n by omega), show (i + 8 * k) / 8 = k by omega,
      show (i + 8 * k) % 8 = i by omega, Bool.true_and, Bool.true_and]
  · rw [decide_eq_false hi, Bool.false_and, BitVec.getLsbD_of_ge _ _ (by omega)]

theorem getLsbD_eq_div (x : Word) (i : Nat) : x.getLsbD i = decide (x.toNat / 2 ^ i % 2 = 1) := by
  rw [← BitVec.testBit_toNat, Nat.testBit_eq_decide_div_mod_eq]

/-- The subtraction of `ONES` borrows from no byte under the lowest zero byte, and turns that into `0xFF`. -/
theorem sub_ones_bit {x : Word} {k : Nat} (hk : k < 8) (h0 : x.toNat / 2 ^ (8 * k) % 2 ^ 8 = 0)
    (hlow : ∀ j < k, x.toNat / 2 ^ (8 * j) % 2 ^ 8 ≠ 0) : (x - ones).getLsbD (8 * k + 7) = true := by
  have hx := x.isLt
  rw [getLsbD_eq_div, BitVec.toNat_sub, show ones.toNat = 0x0101010101010101 from rfl, decide_eq_true_eq]
  have l0 := hlow 0
  have l1 := hlow 1
  have l2 := hlow 2
  have l3 := hlow 3
  have l4 := hlow 4
  have l5 := hlow 5
  have l6 := hlow 6
  obtain rfl | rfl | rfl | rfl | rfl | rfl | rfl | rfl :
    k = 0 ∨ k = 1 ∨ k = 2 ∨ k = 3 ∨ k = 4 ∨ k = 5 ∨ k = 6 ∨ k = 7 := by omega
  all_goals omega

/-- The lowest zero byte of a word is seen. -/
theorem hasZero_ne {x : Word} {k : Nat} (hk : k < 8) (h0 : x.toNat / 2 ^ (8 * k) % 2 ^ 8 = 0)
    (hlow : ∀ j < k, x.toNat / 2 ^ (8 * j) % 2 ^ 8 ≠ 0) : hasZero x ≠ 0 := by
  intro hz
  have hbit := congrArg (·.getLsbD (8 * k + 7)) hz
  simp only [hasZero, BitVec.getLsbD_and, BitVec.getLsbD_not, sub_ones_bit hk h0 hlow] at hbit
  have hhigh : highs.getLsbD (8 * k + 7) = true := by
    have hall : ∀ k < 8, highs.getLsbD (8 * k + 7) = true := by decide
    exact hall k hk
  have hx : x.getLsbD (8 * k + 7) = false := by
    rw [getLsbD_eq_div, Nat.pow_add, ← Nat.div_div_eq_div_mul, decide_eq_false_iff_not]
    omega
  rw [hhigh, hx, decide_eq_true (show 8 * k + 7 < 64 by omega)] at hbit
  simp at hbit

/-- A word in which no zero byte is seen has none. -/
theorem byte_ne_of_hasZero {m : Mem} {w : Word} (h : hasZero (m.read64 w) = 0) :
    ∀ k < 8, m (w + BitVec.ofNat 64 k) ≠ 0 := by
  intro k
  induction k using Nat.strong_induction_on with
  | _ k ih =>
    intro hk h0
    have hbyte : ∀ j < 8, (m.read64 w).toNat / 2 ^ (8 * j) % 2 ^ 8 = (m (w + BitVec.ofNat 64 j)).toNat := by
      intro j hj
      rw [Mem.read64, BitVec.toNat_ofNat, Nat.mod_eq_of_lt (m.load_lt w 8), load_byte m w hj]
    refine hasZero_ne hk ?_ (fun j hj hj0 => ih j hj (by omega) ?_) h
    · rw [hbyte k hk, h0]
      rfl
    · rw [hbyte j (by omega)] at hj0
      exact BitVec.eq_of_toNat_eq hj0

/-! ## The loops -/

/-- The string at `a` has `n` bytes. -/
structure StringAt (m : Mem) (a : Word) (n : Nat) : Prop where
  nul : m (a + BitVec.ofNat 64 n) = 0
  ne : ∀ k < n, m (a + BitVec.ofNat 64 k) ≠ 0

section Loops

variable {m : Mem} {a : Word} {n : Nat} (h : StringAt m a n)
include h

theorem strlenBytes_eq : ∀ {fuel j : Nat}, j ≤ n → n - j < fuel →
    strlenBytes m a fuel (a + BitVec.ofNat 64 j) = some (BitVec.ofNat 64 n)
  | 0, _, _, hf => absurd hf (Nat.not_lt_zero _)
  | fuel + 1, j, hj, hf => by
    rw [strlenBytes]
    by_cases hjn : j = n
    · subst hjn
      rw [if_pos h.nul, add_sub_self]
    · rw [if_neg (h.ne j (by omega)), show a + BitVec.ofNat 64 j + 1 = a + BitVec.ofNat 64 (j + 1) by bv_omega,
        strlenBytes_eq (by omega) (by omega)]

theorem strlenWords_eq : ∀ {fuel j : Nat}, j ≤ n → n - j < fuel →
    strlenWords m a fuel (a + BitVec.ofNat 64 j) = some (BitVec.ofNat 64 n)
  | 0, _, _, hf => absurd hf (Nat.not_lt_zero _)
  | fuel + 1, j, hj, hf => by
    rw [strlenWords]
    split
    · rename_i hz
      -- the NUL is not in this word
      have hn : j + 8 ≤ n := by
        by_contra hlt
        apply byte_ne_of_hasZero hz (n - j) (by omega)
        rw [BitVec.add_assoc, ← BitVec.ofNat_add, Nat.add_sub_cancel' hj]
        exact h.nul
      rw [show a + BitVec.ofNat 64 j + 8 = a + BitVec.ofNat 64 (j + 8) by bv_omega, strlenWords_eq hn (by omega)]
    · exact strlenBytes_eq h hj hf

theorem strlenAlign_eq : ∀ {fuel j : Nat}, j ≤ n → n - j < fuel →
    strlenAlign m a fuel (a + BitVec.ofNat 64 j) = some (BitVec.ofNat 64 n)
  | 0, _, _, hf => absurd hf (Nat.not_lt_zero _)
  | fuel + 1, j, hj, hf => by
    rw [strlenAlign]
    by_cases ha : (a + BitVec.ofNat 64 j).toNat % 8 ≠ 0
    · rw [if_pos ha]
      by_cases hjn : j = n
      · subst hjn
        rw [if_pos h.nul, add_sub_self]
      · rw [if_neg (h.ne j (by omega)), show a + BitVec.ofNat 64 j + 1 = a + BitVec.ofNat 64 (j + 1) by bv_omega,
          strlenAlign_eq (by omega) (by omega)]
    · rw [if_neg ha]
      exact strlenWords_eq h hj hf

/-- **strlen** is the number of bytes before the NUL. -/
theorem strlen_eq {fuel : Nat} (hf : n < fuel) : strlen fuel m a = some (BitVec.ofNat 64 n) := by
  have hs : strlenAlign m a fuel (a + BitVec.ofNat 64 0) = _ := strlenAlign_eq h (Nat.zero_le n) (by omega)
  rwa [show a + BitVec.ofNat 64 0 = a from BitVec.add_zero a] at hs

end Loops

end Synthol.Setup
