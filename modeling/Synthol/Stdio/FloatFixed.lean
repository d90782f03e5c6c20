import Synthol.Stdio.Decimal
import Synthol.Stdio.FloatCount

/-!
# What %f prints

`%f` is exact: the text is the number rounded to the precision, to the nearest and ties to even, however large or small
the number is, as long as no `int` overflows (`fpFinite_fixed`). The limbs that the loop cuts off do no harm, because
what is left is the integer part in units of the last limb, and the code takes it for inexact.

- the limbs before rounding are that integer part (`decimal_approx`);
- the digits that are rounded are those of `halfEven` (`Approx.halfEven`), and in units of the last place that stays
  the ones before become the old ones, or one more (`round_value`);
- the limbs that are left, written one after the other, are the digits of the result (`intLimbs_text`,
  `fracLimbs_text`).
-/

namespace Synthol.Stdio

open X86 Numeral Limbs Function

/-! ## The number -/

/-- The number is `y.num / y.den`. -/
def Finite.num (y : Finite) : Nat := y.m * 2 ^ (y.e - 63).toNat

def Finite.den (y : Finite) : Nat := 2 ^ (63 - y.e).toNat

theorem Finite.den_pos (y : Finite) : 0 < y.den := Nat.two_pow_pos _

/-- The number in the limbs before `top`, in units of the last. -/
def Big.upTo (x : Big) (top : Int) : Nat := value limbBase x.big (min x.a 0) (span (min x.a 0) top)

/-- The limbs before `top` are the integer part of `n / 2 ^ t`. Behind `z` they are zero; if there is more behind `top`,
then `z` is as far as it goes. -/
structure Approx (n t : Nat) (p : Int) (x : Big) (top : Int) : Prop where
  le : x.z ≤ top ∧ 1 ≤ top
  zero : ∀ i, x.z ≤ i → i < top → x.big i = 0
  units : x.upTo top = n * limbBase ^ (top - 1).toNat / 2 ^ t
  exact : 2 ^ t ∣ n * limbBase ^ (top - 1).toNat → 1 < x.z → x.big (x.z - 1) ≠ 0
  inexact : ¬2 ^ t ∣ n * limbBase ^ (top - 1).toNat → top = x.z ∧ x.z = needFor p

section

variable (junk : Cells) {y : Finite} {p : Int}

theorem decimal_approx (hp : 0 ≤ p) :
    ∃ n t top, n * y.den = y.num * 2 ^ t ∧ Approx n t p (decimal junk y true p) top := by
  by_cases hm : y.m = 0
  · refine ⟨0, 0, 1, by simp [Finite.num, hm], ?_⟩
    rw [decimal_zero junk hm]
    have hv : ({ big := update junk 0 0, a := 0, z := 1 } : Big).upTo 1 = 0 := by
      simp [Big.upTo, span, value_one]
    refine ⟨⟨Int.le_refl 1, Int.le_refl 1⟩, fun i h₁ h₂ => ?_, ?_, fun _ h => ?_, fun h => ?_⟩
    · simp only at h₁
      omega
    · rw [hv, Nat.zero_mul, Nat.zero_div]
    · simp only at h
      omega
    · exact absurd ⟨0, by simp⟩ h
  · by_cases he : y.e < 28
    · have hneed := needFor_pos hp
      have hf := shrink_floor hneed (28 - y.e).toNat (28 - y.e).toNat
        (expanded_floor junk hm hneed)
      have ht : 35 + min (28 - y.e).toNat (9 * (28 - y.e).toNat) = (63 - y.e).toNat := by omega
      rw [ht, ← decimal_neg junk (f := true) (p := p) hm he] at hf
      have hd := hf.kept.down
      have hpos := hd.pos
      refine ⟨y.m, (63 - y.e).toNat, _, ?_, ⟨Int.le_refl _, hpos⟩, fun i h₁ h₂ => by omega, ?_, fun h _ h0 => ?_,
        fun h => ⟨rfl, hf.inexact h⟩⟩
      · have he' : (y.e - 63).toNat = 0 := by omega
        rw [Finite.num, Finite.den, he', Nat.pow_zero, Nat.mul_one]
      · have hstart := hd.start
        rw [← hf.units, Big.units, Big.upTo, Int.min_eq_right hstart, span, Int.sub_zero]
      · -- a last limb of zero would divide the number
        apply hf.exact h
        obtain ⟨k, hk⟩ : ∃ k : Nat, (decimal junk y true p).z.toNat = k + 1 :=
          ⟨(decimal junk y true p).z.toNat - 1, by omega⟩
        have hcell : (0 : Int) + (k : Int) = (decimal junk y true p).z - 1 := by omega
        rw [Big.units, hk, value_succ, hcell, h0, Nat.add_zero]
        exact Nat.dvd_mul_left _ _
    · obtain ⟨hw, -⟩ := grow_whole (y.e - 28).toNat (y.e - 28).toNat (expanded_whole junk hm)
      have hpow : min (y.e - 28).toNat (29 * (y.e - 28).toNat) = (y.e - 28).toNat := by omega
      rw [hpow, ← decimal_nonneg junk (f := true) (p := p) hm (by omega)] at hw
      have hval := expanded_value junk (y := y)
      have hpos := (expanded_down junk hm).pos
      have hnum : (decimal junk y true p).upTo (expanded junk y).z * 2 ^ 35 =
          2 ^ (y.e - 28).toNat * y.m * limbBase ^ ((expanded junk y).z - 1).toNat := by
        rw [Big.upTo, Int.min_eq_left hw.start, hw.value, Nat.mul_assoc, hval, Nat.mul_assoc]
      refine ⟨2 ^ (y.e - 28).toNat * y.m, 35, _, ?_, ⟨hw.le, hpos⟩, hw.zero, ?_, fun _ _ => hw.last,
        fun h => absurd ⟨_, by rw [← hnum, Nat.mul_comm]⟩ h⟩
      · have hexp : (y.e - 28).toNat + (63 - y.e).toNat = (y.e - 63).toNat + 35 := by omega
        calc 2 ^ (y.e - 28).toNat * y.m * 2 ^ (63 - y.e).toNat
            = y.m * 2 ^ ((y.e - 28).toNat + (63 - y.e).toNat) := by rw [Nat.pow_add]; ring
          _ = y.m * 2 ^ (y.e - 63).toNat * 2 ^ 35 := by rw [hexp, Nat.pow_add]; ring
      · rw [← hnum, Nat.mul_div_cancel _ (by decide)]

end

/-! ## The decision -/

/-- The limbs before `top`, and those behind. -/
theorem Big.upTo_add (x : Big) {d top : Int} (hd : min x.a 0 ≤ d) (h : d ≤ top) :
    x.upTo top = x.upTo d * limbBase ^ span d top + value limbBase x.big d (span d top) := by
  have hspan : span (min x.a 0) top = span (min x.a 0) d + span d top := by
    unfold span
    omega
  have hpos : min x.a 0 + (span (min x.a 0) d : Int) = d := by
    unfold span
    omega
  rw [Big.upTo, Big.upTo, hspan, value_add, hpos]

theorem Big.upTo_succ {x : Big} {d : Int} (hd : min x.a 0 ≤ d) : x.upTo (d + 1) = x.upTo d * limbBase + x.big d := by
  have hspan : span d (d + 1) = 1 := by
    unfold span
    omega
  rw [x.upTo_add hd (by omega), hspan, value_one, Nat.pow_one]

/-- Zeros between the radix and the first limb do not count. -/
theorem Big.upTo_eq {x : Big} {top : Int} (h₀ : 0 ≤ top) (ha : x.a ≤ top) (h : ∀ i, 0 ≤ i → i < x.a → x.big i = 0) :
    x.upTo top = value limbBase x.big x.a (span x.a top) := by
  by_cases hn : x.a ≤ 0
  · rw [Big.upTo, Int.min_eq_left hn]
  · have hspan : span 0 top = x.a.toNat + span x.a top := by
      unfold span
      omega
    have hpos : (0 : Int) + (x.a.toNat : Int) = x.a := by omega
    rw [Big.upTo, Int.min_eq_right (by omega), hspan, value_skip fun i h₁ h₂ => h i h₁ (by omega), hpos]

/-- The digits down to the `p`-th, in units of a limb. -/
theorem pow_worth {p : Int} (hp : 0 ≤ p) : 10 ^ p.toNat * worth p = limbBase ^ (place p).toNat := by
  have hexp : p.toNat + (9 - (p % 9).toNat) = 9 * (place p).toNat := by
    unfold place
    omega
  rw [worth, ← Nat.pow_add, hexp, Nat.pow_mul]
  rfl

theorem halfEven_eq {n n' d d' : Nat} (hd : 0 < d) (hd' : 0 < d') (h : n * d' = n' * d) :
    halfEven n d = halfEven n' d' := by
  rw [← halfEven_scale hd', h, Nat.mul_comm d d', halfEven_scale hd]

section

variable {n t : Nat} {p top : Int} {x : Big} (hx : Formed true x)
include hx

theorem Approx.upTo_eq_div (h : Approx n t p x top) {d : Int} (hd : 1 ≤ d) (hd' : d + 1 ≤ top) :
    x.upTo (d + 1) = n * limbBase ^ d.toNat / 2 ^ t := by
  have hle := h.le
  have hlt : value limbBase x.big (d + 1) (span (d + 1) top) < limbBase ^ span (d + 1) top := by
    apply Limbs.value_lt
    intro i h₁ h₂
    unfold span at h₂
    by_cases hi : i < x.z
    · exact hx.cells i (by omega) (by omega)
    · rw [h.zero i (by omega) (by omega)]
      exact limbBase_pos
  have hpow : (top - 1).toNat = d.toNat + span (d + 1) top := by
    unfold span
    omega
  have hB : 0 < limbBase ^ span (d + 1) top := Nat.pow_pos limbBase_pos
  have hadd := x.upTo_add (d := d + 1) (by omega) hd'
  have hdiv : x.upTo top / limbBase ^ span (d + 1) top = x.upTo (d + 1) := by
    rw [hadd, Nat.mul_comm, Nat.mul_add_div hB, Nat.div_eq_of_lt hlt, Nat.add_zero]
  rw [← hdiv, h.units, hpow, Nat.pow_add, ← Nat.mul_assoc, Nat.div_div_eq_div_mul, Nat.mul_comm (2 ^ t),
    ← Nat.div_div_eq_div_mul, Nat.mul_div_cancel _ hB]

/-- There is something behind a limb exactly when the code thinks so. -/
theorem Approx.exact_iff (h : Approx n t p x top) (hp : 0 ≤ p) (hj : p < 9 * (x.z - 1)) :
    n * limbBase ^ (place p).toNat % 2 ^ t ≠ 0 ↔ place p + 1 ≠ x.z := by
  obtain ⟨hle, htop⟩ := h.le
  have hplace : 1 ≤ place p ∧ place p + 1 ≤ x.z := by
    unfold place
    omega
  have hpow : (top - 1).toNat = (place p).toNat + span (place p + 1) top := by
    unfold span
    omega
  have hB : 0 < limbBase ^ span (place p + 1) top := Nat.pow_pos limbBase_pos
  have hadd := x.upTo_add (d := place p + 1) (by omega) (show place p + 1 ≤ top by omega)
  constructor
  · intro hne heq
    by_cases hex : 2 ^ t ∣ n * limbBase ^ (top - 1).toNat
    · -- the limbs behind are zeros
      have hzero : value limbBase x.big (place p + 1) (span (place p + 1) top) = 0 :=
        value_eq_zero fun i h₁ h₂ => h.zero i (by omega) (by unfold span at h₂; omega)
      have hval : x.upTo top * 2 ^ t = n * limbBase ^ (top - 1).toNat := by
        rw [h.units, Nat.div_mul_cancel hex]
      rw [hadd, hzero, Nat.add_zero, hpow, Nat.pow_add, ← Nat.mul_assoc, Nat.mul_right_comm] at hval
      have hcancel := Nat.eq_of_mul_eq_mul_right hB hval
      rw [← hcancel, Nat.mul_mod_left] at hne
      exact hne rfl
    · obtain ⟨-, hneed⟩ := h.inexact hex
      unfold place at heq
      unfold needFor at hneed
      omega
  · intro hne hmod
    have hdvd := Nat.dvd_of_mod_eq_zero hmod
    have hex : 2 ^ t ∣ n * limbBase ^ (top - 1).toNat := by
      rw [hpow, Nat.pow_add, ← Nat.mul_assoc]
      exact Nat.dvd_mul_right_of_dvd hdvd _
    apply h.exact hex (by omega)
    have hval := h.units
    rw [hadd, h.upTo_eq_div hx hplace.1 (by omega), hpow, Nat.pow_add, ← Nat.mul_assoc,
      Nat.mul_comm _ (limbBase ^ span (place p + 1) top), Nat.mul_comm _ (limbBase ^ span (place p + 1) top),
      Nat.mul_div_assoc _ hdvd] at hval
    have hzero : value limbBase x.big (place p + 1) (span (place p + 1) top) = 0 := by omega
    exact eq_zero_of_value limbBase_pos hzero _ (by omega) (by unfold span; omega)

/-- The last digit that stays is odd exactly when the code thinks so. -/
theorem odd_iff (hp : 0 ≤ p) (hj : p < 9 * (x.z - 1)) : x.upTo (place p + 1) / worth p % 2 = 1 ↔
    x.big (place p) / worth p % 2 = 1 ∨ worth p = limbBase ∧ place p > x.a ∧ x.big (place p - 1) % 2 = 1 := by
  have hplace : 1 ≤ place p ∧ place p + 1 ≤ x.z := by
    unfold place
    omega
  have hlt : x.big (place p) < limbBase := hx.cells _ (by omega) (by omega)
  have hsucc : x.upTo (place p + 1) = x.upTo (place p) * limbBase + x.big (place p) := Big.upTo_succ (by omega)
  have hsucc' : x.upTo (place p) = x.upTo (place p - 1) * limbBase + x.big (place p - 1) := by
    have h' := Big.upTo_succ (x := x) (d := place p - 1) (by omega)
    rwa [Int.sub_add_cancel] at h'
  have heven : limbBase % 2 = 0 := by decide
  by_cases hk : p % 9 = 0
  · -- the digit is the last of the limb before
    have hworth : worth p = limbBase := by rw [worth, hk]; rfl
    have hdiv : x.upTo (place p + 1) / limbBase = x.upTo (place p) := by
      rw [hsucc, Nat.mul_comm, Nat.mul_add_div limbBase_pos, Nat.div_eq_of_lt hlt, Nat.add_zero]
    have hpar : x.upTo (place p) % 2 = x.big (place p - 1) % 2 := by
      rw [hsucc', Nat.add_mod, Nat.mul_mod, heven, Nat.mul_zero, Nat.zero_mod, Nat.zero_add, Nat.mod_mod]
    rw [hworth, hdiv, hpar, Nat.div_eq_of_lt hlt]
    constructor
    · intro h1
      refine .inr ⟨rfl, ?_, h1⟩
      by_contra hle
      rw [hx.below _ (by omega) (by omega)] at h1
      omega
    · rintro (h1 | ⟨-, -, h1⟩)
      · omega
      · exact h1
  · have hne : worth p ≠ limbBase := by
      have hlt' : worth p < 10 ^ 9 := Nat.pow_lt_pow_right (by decide) (by omega)
      exact Nat.ne_of_lt hlt'
    obtain ⟨k, hk'⟩ : ∃ k, (p % 9).toNat = k + 1 := ⟨(p % 9).toNat - 1, by omega⟩
    have hB : limbBase = 10 ^ (k + 1) * worth p := by
      rw [worth, hk', ← Nat.pow_add]
      rw [show k + 1 + (9 - (k + 1)) = 9 by omega]
      rfl
    have hdiv : x.upTo (place p + 1) / worth p = x.upTo (place p) * 10 ^ (k + 1) + x.big (place p) / worth p := by
      rw [hsucc]
      conv_lhs => rw [hB]
      rw [← Nat.mul_assoc, Nat.mul_comm _ (worth p), Nat.mul_add_div (worth_pos p)]
    have hpar : (x.upTo (place p) * 10 ^ (k + 1) + x.big (place p) / worth p) % 2 = x.big (place p) / worth p % 2 := by
      have h2 : x.upTo (place p) * 10 ^ (k + 1) = 2 * (x.upTo (place p) * 10 ^ k * 5) := by
        rw [Nat.pow_succ]
        ring
      rw [h2, Nat.mul_add_mod]
    rw [hdiv, hpar]
    constructor
    · exact .inl
    · rintro (h1 | ⟨h1, -⟩)
      · exact h1
      · exact absurd h1 hne

/-- **The code rounds up** exactly when `halfEven` does. -/
theorem Approx.halfEven (h : Approx n t p x top) (hp : 0 ≤ p) (hj : p < 9 * (x.z - 1)) :
    Synthol.halfEven (n * 10 ^ p.toNat) (2 ^ t) = x.upTo (place p + 1) / worth p + if x.goesUp p then 1 else 0 := by
  have hplace : 1 ≤ place p ∧ place p + 1 ≤ x.z := by
    unfold place
    omega
  have heven := worth_even p
  have hpos := worth_pos p
  have hmod : x.upTo (place p + 1) % worth p = x.big (place p) % worth p := by
    have hsucc : x.upTo (place p + 1) = x.upTo (place p) * limbBase + x.big (place p) := Big.upTo_succ (by omega)
    rw [hsucc, Nat.add_mod, Nat.mod_eq_zero_of_dvd (Nat.dvd_mul_left_of_dvd (worth_dvd p) _), Nat.zero_add, Nat.mod_mod]
  have hup : x.goesUp p = true ↔ worth p / 2 < x.upTo (place p + 1) % worth p ∨
      x.upTo (place p + 1) % worth p = worth p / 2 ∧
        (n * limbBase ^ (place p).toNat % 2 ^ t ≠ 0 ∨ x.upTo (place p + 1) / worth p % 2 = 1) := by
    rw [h.exact_iff hx hp hj, odd_iff hx hp hj, hmod]
    simp only [Big.goesUp, Bool.and_eq_true, decide_eq_true_eq, up_iff, hj, true_and]
    constructor
    · exact fun hc => hc.2
    · refine fun hc => ⟨?_, hc⟩
      by_contra hn
      omega
  have hscale : Synthol.halfEven (n * 10 ^ p.toNat) (2 ^ t) =
      Synthol.halfEven (n * limbBase ^ (place p).toNat) (worth p * 2 ^ t) := by
    rw [← halfEven_scale hpos, Nat.mul_assoc, pow_worth hp, Nat.mul_comm (2 ^ t)]
  rw [hscale, halfEven_digits (Nat.two_pow_pos t) hpos heven, ← h.upTo_eq_div hx hplace.1 (by have := h.le; omega)]
  by_cases hg : x.goesUp p = true
  · rw [if_pos hg, if_pos (hup.mp hg)]
  · rw [if_neg hg, if_neg fun hc => hg (hup.mpr hc)]

/-- What rounding leaves in the limbs up to the digit. -/
theorem round_value (e : Int) (hp : 0 ≤ p) (hj : p < 9 * (x.z - 1)) : (round x e p).1.upTo (place p + 1) =
    worth p * (x.upTo (place p + 1) / worth p + if x.goesUp p then 1 else 0) := by
  have hplace : 1 ≤ place p ∧ place p + 1 ≤ x.z := by
    unfold place
    omega
  have hd : x.a ≤ place p ∨ 0 ≤ place p := .inr (by omega)
  have hdm := Nat.div_add_mod (x.upTo (place p + 1)) (worth p)
  have hmod : x.upTo (place p + 1) % worth p = x.big (place p) % worth p := by
    have hsucc : x.upTo (place p + 1) = x.upTo (place p) * limbBase + x.big (place p) := Big.upTo_succ (by omega)
    rw [hsucc, Nat.add_mod, Nat.mod_eq_zero_of_dvd (Nat.dvd_mul_left_of_dvd (worth_dvd p) _), Nat.zero_add, Nat.mod_mod]
  -- what is in the cells before the carry
  have hcells (c : Nat) : ({ x with big := update x.big (place p) (x.big (place p) - x.big (place p) % worth p + c) } :
      Big).upTo (place p + 1) = worth p * (x.upTo (place p + 1) / worth p) + c := by
    have hrest : ({ x with big := update x.big (place p) (x.big (place p) - x.big (place p) % worth p + c) } :
        Big).upTo (place p) = x.upTo (place p) :=
      value_congr fun i h₁ h₂ => update_of_ne (by simp only [span] at h₁ h₂; omega) _ _
    have hle := Nat.mod_le (x.big (place p)) (worth p)
    rw [Big.upTo_succ (by simp only; omega), hrest]
    simp only [update_self]
    rw [Big.upTo_succ (by omega)] at hdm hmod ⊢
    omega
  have hzero (c : Nat) : ∀ i, 0 ≤ i → i < x.a → i < place p →
      update x.big (place p) (x.big (place p) - x.big (place p) % worth p + c) i = 0 := by
    intro i h₁ h₂ h₃
    rw [update_of_ne (by omega)]
    exact hx.below i h₁ h₂
  rw [round_eq, if_pos hj]
  split
  · rename_i hup
    have hle := hx.le_of_up hd hup
    have hc := hx.carried hd hj hup
    rw [Big.bumped] at hc ⊢
    generalize carryLoop limbBase (place p - x.a + 1).toNat _ x.a (place p) = r at hc ⊢
    have hr : r.2 ≤ place p := by
      rcases hc.first with hr | ⟨hr, -⟩ <;> omega
    have hbelow : ∀ i, 0 ≤ i → i < r.2 → r.1 i = 0 := by
      intro i h₁ h₂
      rw [hc.outside i (.inl h₂)]
      exact hzero _ i h₁ (by have := hc.first; omega) (by omega)
    have hnew := hcells (worth p)
    have hold : ({ x with big := update x.big (place p) (x.big (place p) - x.big (place p) % worth p + worth p) } :
        Big).upTo (place p + 1) = _ :=
      Big.upTo_eq (by omega) (by simp only; omega) fun i h₁ h₂ => hzero _ i h₁ h₂ (by simp only at h₂; omega)
    rw [hold] at hnew
    rw [Big.upTo_eq (by omega) (by simp only; omega) hbelow, hc.value, hnew, Nat.mul_add, Nat.mul_one]
  · have hnew := hcells 0
    simp only [Nat.add_zero] at hnew ⊢
    exact hnew

end

/-! ## The result -/

/-- The limbs with zeros behind. -/
def Big.shown (x : Big) : Big := { x with big := fun i => if i < x.z then x.big i else 0 }

theorem Big.shown_of_lt {x : Big} {i : Int} (h : i < x.z) : x.shown.big i = x.big i := if_pos h

theorem Big.shown_of_le {x : Big} {i : Int} (h : x.z ≤ i) : x.shown.big i = 0 := if_neg (Int.not_lt.mpr h)

/-- The limbs of a number with `p` digits behind the radix. -/
structure Settled (n : Nat) (p : Int) (x : Big) : Prop where
  units : x.shown.upTo (place p + 1) = worth p * n
  cells : ∀ i, min x.a 0 ≤ i → x.shown.big i < limbBase
  first : x.a < 0 → x.big x.a ≠ 0
  whole : ∀ i, i ≤ 0 → x.shown.big i = x.big i

theorem Big.trim_z_le (x : Big) : x.trim.z ≤ x.z := trim_le _ _ _

/-- Only zeros are dropped. -/
theorem Big.trim_zero {x : Big} {i : Int} (h₁ : x.trim.z ≤ i) (h₂ : i < x.z) : x.trim.big i = 0 :=
  Limbs.trim_zero x.big _ x.z i h₁ h₂

theorem Big.shown_trim (x : Big) (d : Int) : x.trim.shown.upTo d = x.shown.upTo d := by
  apply value_congr
  intro i _ _
  have hle := x.trim_z_le
  by_cases hi : i < x.trim.z
  · rw [shown_of_lt hi, shown_of_lt (by omega)]
    rfl
  · rw [shown_of_le (Int.not_lt.mp hi)]
    by_cases hz : i < x.z
    · rw [shown_of_lt hz]
      exact (trim_zero (Int.not_lt.mp hi) hz).symm
    · rw [shown_of_le (Int.not_lt.mp hz)]

section

variable {n t : Nat} {p top e : Int} {x : Big}

theorem Formed.round_first (hx : Formed true x) (hp : 0 ≤ p) (ha : (round x e p).1.a < 0) :
    (round x e p).1.big (round x e p).1.a ≠ 0 := by
  have hd : x.a ≤ place p ∨ 0 ≤ place p := by
    right
    unfold place
    omega
  have hplace : 1 ≤ place p := by
    unfold place
    omega
  have hold : x.a < 0 → x.big x.a ≠ 0 := by
    intro hneg
    rcases hx.first with h0 | ⟨h0, -⟩
    · exact h0
    · omega
  rw [round_eq] at ha ⊢
  by_cases hj : p < 9 * (x.z - 1)
  · rw [if_pos hj] at ha ⊢
    split at ha
    · rename_i hup
      rw [if_pos hup]
      have hc := hx.carried hd hj hup
      rcases hc.first with hr | ⟨-, hr⟩
      · simp only at ha ⊢
        rw [hr] at ha ⊢
        apply hc.grows hr
        rw [Big.bumped, update_of_ne (by omega)]
        exact hold ha
      · exact hr
    · rename_i hup
      rw [if_neg hup]
      simp only at ha ⊢
      rw [update_of_ne (by omega)]
      exact hold ha
  · rw [if_neg hj] at ha ⊢
    exact hold ha

/-- Nothing to round: the limbs are the number, and fewer than are asked for. -/
theorem Approx.whole (h : Approx n t p x top) (hp : 0 ≤ p) (hj : ¬p < 9 * (x.z - 1)) :
    x.shown.upTo (place p + 1) = worth p * Synthol.halfEven (n * 10 ^ p.toNat) (2 ^ t) := by
  obtain ⟨hle, htop⟩ := h.le
  obtain ⟨z, hz, hz₁⟩ : ∃ z, z = max x.z 1 ∧ 1 ≤ z := ⟨_, rfl, by omega⟩
  have hplace : z ≤ place p + 1 := by
    unfold place
    omega
  have hex : 2 ^ t ∣ n * limbBase ^ (top - 1).toNat := by
    by_contra hn
    have hneed := h.inexact hn
    unfold needFor at hneed
    omega
  -- the number is that of the limbs before `z`
  have hnum : x.upTo z * 2 ^ t = n * limbBase ^ (z - 1).toNat := by
    have hadd := x.upTo_add (d := z) (by omega) (show z ≤ top by omega)
    have hzero : value limbBase x.big z (span z top) = 0 :=
      value_eq_zero fun i h₁ h₂ => h.zero i (by omega) (by unfold span at h₂; omega)
    have hpow : (top - 1).toNat = (z - 1).toNat + span z top := by
      unfold span
      omega
    have hval : x.upTo top * 2 ^ t = n * limbBase ^ (top - 1).toNat := by
      rw [h.units, Nat.div_mul_cancel hex]
    rw [hadd, hzero, Nat.add_zero, hpow, Nat.pow_add, ← Nat.mul_assoc, Nat.mul_right_comm] at hval
    exact Nat.eq_of_mul_eq_mul_right (Nat.pow_pos limbBase_pos) hval
  have hshown : x.shown.upTo (place p + 1) = x.upTo z * limbBase ^ span z (place p + 1) := by
    have hzero : value limbBase x.shown.big z (span z (place p + 1)) = 0 := by
      apply value_eq_zero
      intro i h₁ _
      simp only [Big.shown]
      rw [if_neg (by omega)]
    have hfront : x.shown.upTo z = x.upTo z := by
      apply value_congr
      intro i h₁ h₂
      simp only [Big.shown]
      split
      · rfl
      · simp only [Big.shown, span] at h₁ h₂
        exact (h.zero i (by omega) (by omega)).symm
    rw [x.shown.upTo_add (d := z) (by simp only [Big.shown]; omega) hplace, hzero, Nat.add_zero, hfront]
  obtain ⟨c, hc⟩ : ∃ c : Nat, p.toNat = 9 * (z - 1).toNat + c := ⟨p.toNat - 9 * (z - 1).toNat, by omega⟩
  have hpow : limbBase ^ (z - 1).toNat = 10 ^ (9 * (z - 1).toNat) := by
    rw [Nat.pow_mul]
    rfl
  have hround : Synthol.halfEven (n * 10 ^ p.toNat) (2 ^ t) = x.upTo z * 10 ^ c := by
    rw [hc, Nat.pow_add, ← Nat.mul_assoc, ← hpow, ← hnum, Nat.mul_right_comm, halfEven_mul (Nat.two_pow_pos t)]
  have hexp : 9 * span z (place p + 1) = 9 - (p % 9).toNat + c := by
    unfold span place
    omega
  have hB : limbBase ^ span z (place p + 1) = worth p * 10 ^ c := by
    rw [worth, ← Nat.pow_add, ← hexp, Nat.pow_mul]
    rfl
  rw [hshown, hround, hB]
  ring

/-- **After rounding** the limbs are the rounded number. -/
theorem Approx.settled (h : Approx n t p x top) (hx : Formed true x) (hp : 0 ≤ p) :
    Settled (Synthol.halfEven (n * 10 ^ p.toNat) (2 ^ t)) p (round x e p).1.trim := by
  have hplace : 1 ≤ place p := by
    unfold place
    omega
  have hd : x.a ≤ place p ∨ 0 ≤ place p := .inr (by omega)
  obtain ⟨-, -, hz⟩ := hx.round_start (e := e) hd
  have hcells := hx.round_cells (e := e) hd
  have htrim := (round x e p).1.trim_z_le
  have habove : ∀ i, (round x e p).1.z ≤ i → i ≤ 0 → (round x e p).1.big i = 0 := by
    intro i h₁ h₂
    by_cases hj : p < 9 * (x.z - 1)
    · exfalso
      rw [round_eq, if_pos hj] at h₁
      split at h₁ <;> simp only at h₁ <;> omega
    · rw [round_eq, if_neg hj] at h₁ ⊢
      exact hx.above i h₁ h₂
  refine ⟨?_, ?_, hx.round_first hp, ?_⟩
  · rw [Big.shown_trim]
    by_cases hj : p < 9 * (x.z - 1)
    · have hzr : (round x e p).1.z = place p + 1 := by
        rw [round_eq, if_pos hj]
        split <;> rfl
      have hshown : (round x e p).1.shown.upTo (place p + 1) = (round x e p).1.upTo (place p + 1) := by
        apply value_congr
        intro i _ h₂
        apply Big.shown_of_lt
        simp only [Big.shown, span] at h₂
        omega
      rw [hshown, round_value hx e hp hj, h.halfEven hx hp hj]
    · rw [round_eq, if_neg hj]
      exact h.whole hp hj
  · intro i hi
    by_cases hz' : i < (round x e p).1.trim.z
    · rw [Big.shown_of_lt hz']
      exact hcells i hi (by omega)
    · rw [Big.shown_of_le (Int.not_lt.mp hz')]
      exact limbBase_pos
  · intro i hi
    by_cases hz' : i < (round x e p).1.trim.z
    · rw [Big.shown_of_lt hz']
    · rw [Big.shown_of_le (Int.not_lt.mp hz')]
      by_cases hi' : i < (round x e p).1.z
      · exact (Big.trim_zero (Int.not_lt.mp hz') hi').symm
      · exact (habove i (by omega) hi).symm

end

section

variable {junk : Cells} {y : Finite} {p : Int} {t : Byte} {q : Big × Int}

theorem rounded_fixed (hf : t ||| 32 = ch 'f') (h : rounded junk y p t = .ok q) : q.1 = (round (decimal junk y true p)
    (if (decimal junk y true p).a < (decimal junk y true p).z then
      exponent (decimal junk y true p).big (decimal junk y true p).a else 0) p).1.trim := by
  have hg : ¬(ch 'f' = ch 'g' ∧ p ≠ 0) := fun h => absurd h.1 (by decide)
  simp only [rounded, hf, decide_true, if_true, Int.sub_zero] at h
  obtain ⟨j, hj, rfl⟩ := map_ok.mp h
  rw [inInt_ok hj]
  simp only [if_neg hg, Int.sub_zero]

theorem rounded_settled (hp : 0 ≤ p) (hf : t ||| 32 = ch 'f') (h : rounded junk y p t = .ok q) :
    Settled (halfEven (y.num * 10 ^ p.toNat) y.den) p q.1 := by
  obtain ⟨n, k, top, hnum, happrox⟩ := decimal_approx junk (y := y) hp
  have hround : halfEven (y.num * 10 ^ p.toNat) y.den = halfEven (n * 10 ^ p.toNat) (2 ^ k) := by
    apply halfEven_eq y.den_pos (Nat.two_pow_pos k)
    rw [Nat.mul_right_comm, ← hnum]
    ring
  rw [hround, rounded_fixed hf h]
  exact happrox.settled (decimal_formed junk hp) hp

/-- No number has more than 5103 digits before the point. -/
theorem rounded_exponent_le (hp : 0 ≤ p) (hf : t ||| 32 = ch 'f') (h : rounded junk y p t = .ok q) : q.2 ≤ 5102 := by
  have hx : Formed true (decimal junk y true p) := decimal_formed junk hp
  have hd : (decimal junk y true p).a ≤ place p ∨ 0 ≤ place p := by
    right
    unfold place
    omega
  have hlow := hx.low
  obtain ⟨hstart, -, -⟩ := hx.round_start (e := if (decimal junk y true p).a < (decimal junk y true p).z then
    exponent (decimal junk y true p).big (decimal junk y true p).a else 0) hd
  obtain ⟨⟨top, -, htop, -, hcells⟩, hlead, -⟩ := rounded_ready hp h
  have ha : (decimal junk y true p).a - 1 ≤ q.1.a := by
    rw [rounded_fixed hf h]
    exact hstart
  by_cases hq : q.1.a ≤ 0
  · have hlog := log_lt (hcells q.1.a (by omega) (by omega))
    rw [(hlead hf).whole hq]
    omega
  · have hpart := (hlead hf).part (by omega)
    omega

end

/-! ## The text -/

/-- The number `n` in units of the `p`-th digit behind the point. -/
def fixedText (n p : Nat) (alt : Bool) : Frag :=
  natText (n / 10 ^ p) ++ (if p ≠ 0 ∨ alt then text ['.'] else []) ++ (digits 10 p (n % 10 ^ p)).map dig

theorem limb_eq {c : Nat} (h : c < limbBase) : limb c = (numeral 10 64 c).map dig := by
  have hc : (BitVec.ofNat 64 c).toNat = c := by
    rw [BitVec.toNat_ofNat]
    exact Nat.mod_eq_of_lt (Nat.lt_of_lt_of_le h (by norm_num [limbBase]))
  rw [limb, fmtU, fmtDigits, hc]
  rfl

theorem natText_eq {n w : Nat} (h : n < 10 ^ w) : natText n = atLeast 1 ((numeral 10 w n).map dig) := by
  unfold natText atLeast
  split
  · rename_i h0
    rw [h0, numeral_zero]
    rfl
  · rename_i h0
    have hlen := length_numeral (by decide) h h0
    rw [← numeral_eq (by decide) h, List.length_map, hlen, Nat.sub_eq_zero_of_le (by omega)]
    rfl

/-- Nine digits. -/
theorem other_eq {c : Nat} (h : c < limbBase) : atLeast 9 (limb c) = (digits 10 9 c).map dig := by
  have hnum : numeral 10 64 c = numeral 10 9 c := by
    rw [numeral_eq (by decide) (lt_pow_64 h), numeral_eq (by decide) h]
  rw [limb_eq h, hnum, digits_eq h, List.map_append, List.map_replicate, atLeast, List.length_map]
  rfl

theorem first_text {c : Nat} (h : c < limbBase) : atLeast 1 (limb c) = natText c := by
  rw [limb_eq h, natText_eq (lt_pow_64 h)]

section

variable {big : Cells} {a z : Int}

/-- The limbs before the radix, from the first on. -/
theorem limbs_text : ∀ {n : Nat}, (∀ i, a ≤ i → i < a + n + 1 → big i < limbBase) → (0 < n → big a ≠ 0) →
    ((List.range (n + 1)).map fun k : Nat => atLeast (if k = 0 then 1 else 9) (limb (big (a + k)))).flatten =
      natText (value limbBase big a (n + 1))
  | 0, h, _ => by
    rw [value_one, ← first_text (h a (Int.le_refl a) (by omega))]
    simp
  | n + 1, h, h0 => by
    have hne := h0 (Nat.succ_pos n)
    have ih := limbs_text (n := n) (fun i h₁ h₂ => h i h₁ (by omega)) fun _ => hne
    have hcell := h (a + (n + 1 : Nat)) (by omega) (by omega)
    have hval : value limbBase big a (n + 1) ≠ 0 :=
      fun hv => hne (eq_zero_of_value limbBase_pos hv a (Int.le_refl a) (by omega))
    have hstep : natText (value limbBase big a (n + 1 + 1)) =
        natText (value limbBase big a (n + 1)) ++ (digits 10 9 (big (a + (n + 1 : Nat)))).map dig := by
      rw [value_succ]
      exact natText_append (n := 9) hval hcell
    rw [List.range_succ, List.map_append, List.flatten_append, ih, hstep, List.map_singleton, List.flatten_singleton,
      if_neg (Nat.succ_ne_zero n), other_eq hcell]

theorem intLimbs_text (ha : a ≤ 0) (h : ∀ i, a ≤ i → i < 1 → big i < limbBase) (h0 : a < 0 → big a ≠ 0) :
    (intLimbs big a).flatten = natText (value limbBase big a (span a 1)) := by
  obtain ⟨n, hn⟩ : ∃ n, span a 1 = n + 1 := ⟨(0 - a).toNat, by unfold span; omega⟩
  have hn' : (1 - a).toNat = n + 1 := hn
  have hpos : a + (n : Int) + 1 = 1 := by
    unfold span at hn
    omega
  rw [hn, intLimbs, hn', limbs_text (fun i h₁ h₂ => h i h₁ (by omega)) fun hpos => h0 (by omega)]

/-- The limbs behind the radix and the zeros that make up for those that are not there. -/
theorem fracLimbs_text {x : Big} (hx : ∀ i, 1 ≤ i → x.shown.big i < limbBase) : ∀ {n k : Nat} {d p : Int}, 1 ≤ d →
    x.z ≤ d + n → p ≤ 9 * k →
    (fracLimbs x.big x.z n d p).1.flatten ++ List.replicate (fracLimbs x.big x.z n d p).2.toNat (ch '0') =
      ((digits 10 (9 * k) (value limbBase x.shown.big d k)).take p.toNat).map dig
  | n, k, d, p, hd, hn, hp => by
    have hrest : ¬(d < x.z ∧ p > 0) → List.replicate p.toNat (ch '0') =
        ((digits 10 (9 * k) (value limbBase x.shown.big d k)).take p.toNat).map dig := by
      intro hc
      by_cases hp0 : p ≤ 0
      · rw [Int.toNat_of_nonpos hp0]
        rfl
      · have hzero : value limbBase x.shown.big d k = 0 :=
          value_eq_zero fun i h₁ _ => Big.shown_of_le (by omega)
        rw [hzero, digits_zero, List.take_replicate, Nat.min_eq_left (by omega), List.map_replicate]
        rfl
    cases n with
    | zero => exact hrest (by omega)
    | succ n =>
      rw [fracLimbs]
      by_cases hc : d < x.z ∧ p > 0
      · obtain ⟨k, rfl⟩ : ∃ l, k = l + 1 := ⟨k - 1, by omega⟩
        have ih := fracLimbs_text hx (n := n) (k := k) (d := d + 1) (p := p - 9) (by omega) (by omega) (by omega)
        have hcell := hx d hd
        have hvalue : value limbBase x.shown.big (d + 1) k < 10 ^ (9 * k) := by
          rw [Nat.pow_mul]
          exact Limbs.value_lt fun i h₁ _ => hx i (by omega)
        have hbig : x.big d = x.shown.big d := (Big.shown_of_lt hc.1).symm
        have hbase : limbBase ^ k = 10 ^ (9 * k) := by
          rw [Nat.pow_mul]
          rfl
        have hlen : 9 * (k + 1) = 9 + 9 * k := by omega
        have htake : (min 9 p).toNat = min 9 p.toNat := by omega
        rw [if_pos hc, List.flatten_cons, List.append_assoc, ih, Limbs.value_cons, hbase, hlen, digits_append _ _ hvalue,
          List.take_append, length_digits, List.map_append, hbig, other_eq hcell, ← List.map_take, htake]
        congr 2
        · rw [List.take_eq_take_iff, length_digits]
          omega
        · congr 1
          omega
      · rw [if_neg hc]
        exact hrest hc

end

section

variable {n : Nat} {p : Int} {x : Big} (h : Settled n p x) (hp : 0 ≤ p) {k : Nat} (hk : place p = k)
include h hp hk

/-- The limbs before the radix, and those behind. -/
theorem Settled.parts : x.shown.upTo 1 = n / 10 ^ p.toNat ∧
    value limbBase x.shown.big 1 k = n % 10 ^ p.toNat * worth p := by
  have hpow : 10 ^ p.toNat * worth p = limbBase ^ k := by
    rw [pow_worth hp, hk]
    rfl
  have hspan : span 1 (place p + 1) = k := by
    unfold span
    omega
  have hfrac : value limbBase x.shown.big 1 k < limbBase ^ k :=
    Limbs.value_lt fun i h₁ _ => h.cells i (by omega)
  have hsplit : x.shown.upTo 1 * limbBase ^ k + value limbBase x.shown.big 1 k = worth p * n := by
    rw [← h.units, x.shown.upTo_add (d := 1) (by simp only [Big.shown]; omega) (show 1 ≤ place p + 1 by omega),
      hspan]
  have hpos : 0 < limbBase ^ k := Nat.pow_pos limbBase_pos
  constructor
  · have hdiv := congrArg (· / limbBase ^ k) hsplit
    rw [Nat.mul_comm, Nat.mul_add_div hpos, Nat.div_eq_of_lt hfrac, Nat.add_zero, ← hpow, Nat.mul_comm (10 ^ p.toNat),
      Nat.mul_div_mul_left _ _ (worth_pos p)] at hdiv
    exact hdiv
  · have hmod := congrArg (· % limbBase ^ k) hsplit
    rw [Nat.mul_comm, Nat.mul_add_mod, Nat.mod_eq_of_lt hfrac, ← hpow, Nat.mul_comm (10 ^ p.toNat),
      Nat.mul_mod_mul_left, Nat.mul_comm] at hmod
    exact hmod

theorem Settled.int_text :
    (intLimbs x.big (if x.a > 0 then 0 else x.a)).flatten = natText (n / 10 ^ p.toNat) := by
  have ha : (if x.a > 0 then 0 else x.a) = min x.a 0 := by
    split <;> omega
  have hcells : value limbBase x.big (min x.a 0) (span (min x.a 0) 1) = n / 10 ^ p.toNat := by
    rw [← (h.parts hp hk).1]
    apply value_congr
    intro i h₁ h₂
    unfold span at h₂
    exact (h.whole i (by omega)).symm
  rw [ha, intLimbs_text (by omega), hcells]
  · intro i h₁ h₂
    rw [← h.whole i (by omega)]
    exact h.cells i h₁
  · intro hneg
    rw [Int.min_eq_left (by omega)]
    exact h.first (by omega)

theorem Settled.frac_text :
    (fracLimbs x.big x.z (x.z - 1).toNat 1 p).1.flatten ++
        List.replicate (fracLimbs x.big x.z (x.z - 1).toNat 1 p).2.toNat (ch '0') =
      (digits 10 p.toNat (n % 10 ^ p.toNat)).map dig := by
  have hk1 : p ≤ 9 * k := by
    unfold place at hk
    omega
  have hworth : worth p = 10 ^ (9 * k - p.toNat) := by
    rw [worth]
    congr 1
    unfold place at hk
    omega
  have hlen : 9 * k = p.toNat + (9 * k - p.toNat) := by omega
  have htext := fracLimbs_text (x := x) (n := (x.z - 1).toNat) (d := 1) (fun i h₁ => h.cells i (by omega)) (Int.le_refl 1)
    (by omega) hk1
  rw [(h.parts hp hk).2, hlen, take_digits, ← hworth, Nat.mul_div_cancel _ (worth_pos p)] at htext
  exact htext

end

/-- **The digits** of a rounded number. -/
theorem Settled.body {n : Nat} {p : Int} {x : Big} (h : Settled n p x) (fl : Flags) (hp : 0 ≤ p) {body : List Frag}
    (hbody : fixedBody x p fl = .ok body) : body.flatten = fixedText n p.toNat fl.altForm := by
  obtain ⟨k, hk⟩ : ∃ k : Nat, place p = k := ⟨(place p).toNat, by unfold place; omega⟩
  have hzeros : (pad (ch '0') ((fracLimbs x.big x.z (x.z - 1).toNat 1 p).2 + 9) 9 {}).flatten =
      List.replicate (fracLimbs x.big x.z (x.z - 1).toNat 1 p).2.toNat (ch '0') := by
    rw [zeros_flatten, Int.add_sub_cancel]
  have hpoint : (if p ≠ 0 ∨ fl.altForm then [text ['.']] else [] : List Frag).flatten =
      if p.toNat ≠ 0 ∨ fl.altForm then text ['.'] else [] := by
    have hiff : p ≠ 0 ↔ p.toNat ≠ 0 := by omega
    simp only [hiff]
    split <;> rfl
  obtain ⟨v, hv, rfl⟩ := map_ok.mp hbody
  rw [inInt_ok hv]
  simp only [List.flatten_append, h.int_text hp hk, hpoint, hzeros]
  rw [List.append_assoc, h.frac_text hp hk]
  rfl

section

variable (junk : Cells) (neg : Bool) (y : Finite) (w p : Int) {fl : Flags} {t : Byte}

/-- **%f is exact**: the digits are those of the number rounded to the precision, to the nearest and ties to even,
whenever `fmt_fp` returns a length. It does so unless the precision is close to `INT_MAX`. -/
theorem fpFinite_fixed (ht : t ||| 32 = ch 'f') (hfl : fl.Proper) :
    let k := (if p < 0 then 6 else p).toNat
    (∀ r, fpFinite junk neg y w p fl t = .ok r →
      r.1.flatten = padded w fl (sign neg fl) (fixedText (halfEven (y.num * 10 ^ k) y.den) k fl.altForm) ∧
        r.2 = r.1.flatten.length) ∧
      (p + 6000 ≤ intMax → ∃ r, fpFinite junk neg y w p fl t = .ok r) := by
  have ha : t ||| 32 ≠ ch 'a' := fun h => absurd (ht.symm.trans h) (by decide)
  have hg : t ||| 32 ≠ ch 'g' := fun h => absurd (ht.symm.trans h) (by decide)
  simp only [fpFinite, if_neg ha, fpDecimal, if_neg hg]
  have hq : 0 ≤ (if p < 0 then 6 else p) ∧ (p + 6000 ≤ intMax → (if p < 0 then 6 else p) + 6000 ≤ intMax) := by
    unfold intMax
    split <;> omega
  generalize (if p < 0 then 6 else p) = q at hq ⊢
  obtain ⟨hq, hmax⟩ := hq
  constructor
  · intro r h
    obtain ⟨x, hround, h⟩ := bind_ok.mp h
    obtain ⟨body, hbody, rfl⟩ := fpText_fixed h ht
    obtain ⟨⟨top, hz, htop, -, hcells⟩, hlead, -⟩ := rounded_ready hq hround
    have hlen := length_fixedBody fl hq (fun i h₁ h₂ => hcells i h₁ (by omega)) (hlead ht) hbody
    obtain ⟨htext, hcount⟩ := layout_text w (sign neg fl) hfl hlen
    rw [htext, hcount, (rounded_settled hq ht hround).body fl hq hbody]
    exact ⟨rfl, rfl⟩
  · intro hp
    have hmax := hmax hp
    obtain ⟨x, hround⟩ := @rounded_ok junk y _ t hq (by rw [if_pos ht]; omega)
    obtain ⟨⟨top, hz, htop, -, hcells⟩, -, -⟩ := rounded_ready hq hround
    obtain ⟨body, hbody⟩ := fixedBody_ok fl hq (by omega) (x := x.1) fun i h₁ h₂ => hcells i (by omega) (by omega)
    have hexp := rounded_exponent_le hq ht hround
    have hsign := sign_length_le neg fl
    have hpoint : 0 ≤ pointLen q fl ∧ pointLen q fl ≤ 1 := by
      unfold pointLen
      split <;> omega
    refine ⟨layout w (sign neg fl) (if x.2 > 0 then 1 + q + pointLen q fl + x.2 else 1 + q + pointLen q fl) body fl, ?_⟩
    rw [hround]
    show fpText x.1 x.2 neg w q fl t = _
    simp only [fpText, if_pos ht]
    rw [if_neg (by omega), if_neg (by omega), if_neg (by split <;> omega), hbody]
    rfl

end

/-- 2.5 -/
def twoAndAHalf : Finite where
  m := 0xa000000000000000
  e := 1
  norm := by decide
  lower := by decide
  upper := by decide
  subnormal := by decide

/-- A tie goes to the even digit. -/
theorem fpFinite_fixed_tie : ∃ r, fpFinite (fun _ => 7) true twoAndAHalf 4 0 {} (ch 'f') = .ok r ∧
    r.1.flatten = text [' ', ' ', '-', '2'] := by
  obtain ⟨htext, hok⟩ := fpFinite_fixed (fun _ => 7) true twoAndAHalf 4 0 (t := ch 'f') (by decide)
    Flags.proper_none
  obtain ⟨r, hr⟩ := hok (by decide)
  have hround : halfEven (twoAndAHalf.num * 10 ^ Int.toNat 0) twoAndAHalf.den = 2 := by decide
  have hnat : natText 2 = text ['2'] := by
    simp [natText, text, dig, ch]
  refine ⟨r, hr, ?_⟩
  rw [(htext r hr).1, if_neg (by decide), hround]
  simp [fixedText, hnat, digits, padded, sign, text, List.replicate]

end Synthol.Stdio
