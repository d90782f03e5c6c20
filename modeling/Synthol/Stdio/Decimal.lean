import Synthol.Stdio.Convert

/-!
# Decimal numbers

A number as decimal text (`natText`), and `getint`, which reads it back (`getint_natText`).
-/

namespace Synthol.Stdio

open X86 Numeral

/-- The digit of a number below ten. -/
def dig (k : Nat) : Byte := ch '0' + BitVec.ofNat 8 k

/-- A number without leading zeros. -/
def natText (n : Nat) : Frag := if n = 0 then text ['0'] else (Nat.digits 10 n).reverse.map dig

theorem isdigit_dig {k : Nat} (h : k < 10) : isdigit (dig k) = true := by
  have hall : ∀ k < 10, isdigit (dig k) = true := by decide
  exact hall k h

theorem digit_dig {k : Nat} (h : k < 10) : digit (dig k) = k := by
  have hall : ∀ k < 10, digit (dig k) = k := by decide
  exact hall k h

/-- The digits of the text. -/
theorem natText_digits (n : Nat) : ∃ l : List Nat, natText n = l.map dig ∧ (∀ d ∈ l, d < 10) ∧ value 10 l = n ∧
    l ≠ [] ∧ (n ≠ 0 → ∀ d, l.head? = some d → d ≠ 0) := by
  by_cases h0 : n = 0
  · refine ⟨[0], by rw [natText, if_pos h0]; rfl, ?_, by rw [h0]; rfl, List.cons_ne_nil _ _, fun h => absurd h0 h⟩
    intro d hd
    rw [List.mem_singleton.mp hd]
    decide
  · have hw : n < 10 ^ n := Nat.lt_pow_self (by decide)
    refine ⟨numeral 10 n n, ?_, ?_, value_numeral hw, ?_, fun _ d hd => head_numeral hw hd⟩
    · rw [natText, if_neg h0, numeral_eq (by decide) hw]
    · intro d hd
      rw [numeral_eq (by decide) hw] at hd
      exact Nat.digits_lt_base (by decide) (List.mem_reverse.mp hd)
    · rw [ne_eq, numeral_eq_nil hw]
      exact h0

/-- A number that is not zero, and digits behind it. -/
theorem natText_append {x n y : Nat} (hx : x ≠ 0) (h : y < 10 ^ n) :
    natText (x * 10 ^ n + y) = natText x ++ (digits 10 n y).map dig := by
  have hw : x < 10 ^ x := Nat.lt_pow_self (by decide)
  have hsum : x * 10 ^ n + y < 10 ^ (x + n) := by
    have hm : (x + 1) * 10 ^ n ≤ 10 ^ x * 10 ^ n := Nat.mul_le_mul_right _ hw
    rw [Nat.add_mul, Nat.one_mul] at hm
    rw [Nat.pow_add]
    omega
  have hne : x * 10 ^ n + y ≠ 0 := by
    have hpos := Nat.mul_pos (Nat.pos_of_ne_zero hx) (Nat.pow_pos (n := n) (show 0 < 10 by decide))
    omega
  rw [natText, natText, if_neg hx, if_neg hne, ← numeral_eq (by decide) hsum, ← numeral_eq (by decide) hw,
    numeral_append (by decide) x hx h, List.map_append]

/-! ## Reading -/

/-- Digits that stay below `INT_MAX`, before a byte that is none. -/
theorem getintFrom_digits {rest : List Byte} (hr : ∀ c, rest.head? = some c → isdigit c = false) :
    ∀ {l : List Nat} {i : Int}, (∀ d ∈ l, d < 10) → 0 ≤ i → i * 10 ^ l.length + value 10 l ≤ intMax →
      getintFrom i (l.map dig ++ rest) = (i * 10 ^ l.length + value 10 l, rest)
  | [], i, _, _, _ => by
    simp only [List.map_nil, List.nil_append, List.length_nil, pow_zero, mul_one, value_nil, Nat.cast_zero, add_zero]
    cases rest with
    | nil => rfl
    | cons c rest => rw [getintFrom, hr c rfl, if_neg (by decide)]
  | d :: l, i, hd, hi, hmax => by
    have hd10 := hd d List.mem_cons_self
    have hpow : (1 : Int) ≤ 10 ^ l.length := one_le_pow₀ (by decide)
    have hval : (value 10 (d :: l) : Int) = d * 10 ^ l.length + value 10 l := by
      rw [value_cons]
      push_cast
      rfl
    have hsum : i * 10 ^ (d :: l).length + value 10 (d :: l) = (10 * i + d) * 10 ^ l.length + value 10 l := by
      rw [hval, List.length_cons, pow_succ]
      ring
    have hle : 10 * i + d ≤ (10 * i + d) * 10 ^ l.length := by nlinarith
    rw [hsum] at hmax ⊢
    have hnext : (if i < 0 ∨ i > intMax / 10 ∨ (digit (dig d) : Int) > intMax - 10 * i then -1
        else 10 * i + digit (dig d)) = 10 * i + d := by
      rw [digit_dig hd10, if_neg]
      omega
    rw [List.map_cons, List.cons_append, getintFrom, if_pos (isdigit_dig hd10), hnext,
      getintFrom_digits hr (fun d hm => hd d (List.mem_cons_of_mem _ hm)) (by omega) hmax]

/-- **getint** reads a number that an `int` can hold. -/
theorem getint_natText {n : Nat} (h : (n : Int) ≤ intMax) {rest : List Byte}
    (hr : ∀ c, rest.head? = some c → isdigit c = false) : getint (natText n ++ rest) = ((n : Int), rest) := by
  obtain ⟨l, htext, hd, hv, -, -⟩ := natText_digits n
  have hread := getintFrom_digits hr hd (Int.le_refl 0) (by rw [hv]; omega)
  rw [Int.zero_mul, Int.zero_add, hv] at hread
  rw [getint, htext, hread]

/-- Where there is no digit. -/
theorem getint_none {rest : List Byte} (hr : ∀ c, rest.head? = some c → isdigit c = false) : getint rest = (0, rest) := by
  cases rest with
  | nil => rfl
  | cons c rest => rw [getint, getintFrom, hr c rfl, if_neg (by decide)]

end Synthol.Stdio
