import Mathlib.Tactic.Linarith
import Mathlib.Tactic.Ring

/-!
# Rounding to the nearest, ties to even

`halfEven n d` is the quotient of `n` and `d` rounded.

- it is nearest (`halfEven_near`), exact on multiples (`halfEven_mul`) and the same in other units (`halfEven_scale`);
- it can be told from the floor and the next digits, when one knows whether anything comes after them
  (`halfEven_digits`).
-/

namespace Synthol

def halfEven (n d : Nat) : Nat :=
  n / d + if d < 2 * (n % d) ∨ 2 * (n % d) = d ∧ n / d % 2 = 1 then 1 else 0

variable {n d : Nat}

theorem halfEven_mul (hd : 0 < d) (k : Nat) : halfEven (k * d) d = k := by
  rw [halfEven, Nat.mul_mod_left, Nat.mul_div_cancel _ hd, if_neg (by omega)]
  rfl

/-- No multiple of `d` is nearer. -/
theorem halfEven_near (hd : 0 < d) : 2 * n ≤ 2 * (halfEven n d * d) + d ∧ 2 * (halfEven n d * d) ≤ 2 * n + d := by
  have hdm := Nat.div_add_mod n d
  have hlt := Nat.mod_lt n hd
  rw [Nat.mul_comm] at hdm
  unfold halfEven
  split
  · rw [Nat.add_mul, Nat.one_mul]
    omega
  · rw [Nat.add_zero]
    omega

theorem halfEven_scale {k : Nat} (hk : 0 < k) : halfEven (n * k) (d * k) = halfEven n d := by
  have hmod : n * k % (d * k) = n % d * k := Nat.mul_mod_mul_right k n d
  have hdiv : n * k / (d * k) = n / d := Nat.mul_div_mul_right n d hk
  have hlt : d * k < 2 * (n % d * k) ↔ d < 2 * (n % d) := by
    rw [← Nat.mul_assoc]
    exact Nat.mul_lt_mul_right hk
  have heq : 2 * (n % d * k) = d * k ↔ 2 * (n % d) = d := by
    rw [← Nat.mul_assoc]
    exact Nat.mul_left_inj (Nat.ne_of_gt hk)
  rw [halfEven, halfEven, hmod, hdiv]
  simp only [hlt, heq]

/-- What the digits down to some place tell: `q` is the floor there, of which the last part `x`, below `i`, is to go.
Nothing comes after `q` if it is exact. -/
theorem halfEven_digits {i : Nat} (hd : 0 < d) (hi : 0 < i) (heven : i % 2 = 0) :
    halfEven n (i * d) = n / d / i +
      if i / 2 < n / d % i ∨ n / d % i = i / 2 ∧ (n % d ≠ 0 ∨ n / d / i % 2 = 1) then 1 else 0 := by
  have hquot : n / (i * d) = n / d / i := by rw [Nat.mul_comm, Nat.div_div_eq_div_mul]
  have hmod : n % (i * d) = n / d % i * d + n % d := by
    rw [Nat.mul_comm i d, Nat.mod_mul, Nat.mul_comm d]
    omega
  have hlt := Nat.mod_lt n hd
  obtain ⟨h, rfl⟩ : ∃ h, i = 2 * h := ⟨i / 2, by omega⟩
  have hh : 2 * h / 2 = h := by omega
  rw [halfEven, hquot, hmod, hh]
  generalize n / d / (2 * h) = k
  generalize n / d % (2 * h) = x
  generalize n % d = r at hlt
  congr 1
  have hiff : (2 * h * d < 2 * (x * d + r) ∨ 2 * (x * d + r) = 2 * h * d ∧ k % 2 = 1) ↔
      (h < x ∨ x = h ∧ (r ≠ 0 ∨ k % 2 = 1)) := by
    rcases Nat.lt_trichotomy x h with hx | rfl | hx
    · have hm : (x + 1) * d ≤ h * d := Nat.mul_le_mul_right d hx
      constructor
      · rintro (hlt' | ⟨heq, -⟩)
        · nlinarith
        · nlinarith
      · rintro (hlt' | ⟨rfl, -⟩)
        · omega
        · omega
    · have hassoc : 2 * x * d = 2 * (x * d) := Nat.mul_assoc 2 x d
      rw [hassoc]
      constructor
      · rintro (hlt' | ⟨-, hk⟩)
        · exact .inr ⟨rfl, .inl (by omega)⟩
        · exact .inr ⟨rfl, .inr hk⟩
      · rintro (hlt' | ⟨-, hr⟩)
        · omega
        · by_cases h0 : r = 0
          · exact .inr ⟨by omega, hr.resolve_left fun hne => hne h0⟩
          · exact .inl (by omega)
    · have hm : (h + 1) * d ≤ x * d := Nat.mul_le_mul_right d hx
      constructor
      · intro _
        exact .inl hx
      · intro _
        left
        nlinarith
  simp only [hiff]

end Synthol
