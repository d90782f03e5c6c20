import Synthol.Stdio.FloatLimbs

/-!
# Rounding in fmt_fp

- the addition to `round` decides as it should (`probe_eq`);
- `exponent` is the exponent of the first digit (`exponent_eq`);
- rounding leaves limbs below the base (`Formed.round_cells`), with one more in front at most (`Formed.round_start`),
  and the exponent of the first digit (`Formed.round_lead`).
-/

namespace Synthol.Stdio

open Numeral Limbs Function

/-! ## Sums of ints -/

theorem inInt_ok {x y : Int} (h : inInt x = .ok y) : y = x := by
  unfold inInt at h
  split at h <;> cases h
  rfl

theorem inInt_of {x : Int} (h₀ : -intMax - 1 ≤ x) (h₁ : x ≤ intMax) : inInt x = .ok x := if_pos ⟨h₀, h₁⟩

/-! ## Digits of a limb -/

theorem lt_pow_64 {c : Nat} (h : c < limbBase) : c < 10 ^ 64 :=
  Nat.lt_of_lt_of_le h (by norm_num [limbBase])

theorem log_lt {c : Nat} (h : c < limbBase) : Nat.log 10 c < 9 :=
  Nat.log_lt_of_lt_pow' (by decide) h

theorem countUp_eq {c : Nat} : ∀ {n k : Nat} {e : Int}, k ≤ Nat.log 10 c → Nat.log 10 c ≤ k + n →
    countUp c n (10 ^ (k + 1)) e = e + (Nat.log 10 c - k : Nat)
  | 0, k, e, h₁, h₂ => by
    rw [countUp]
    omega
  | n + 1, k, e, h₁, h₂ => by
    rw [countUp]
    by_cases hk : k + 1 ≤ Nat.log 10 c
    · have hc : c ≠ 0 := by
        rintro rfl
        rw [Nat.log_zero_right] at hk
        omega
      rw [if_pos (Nat.pow_le_of_le_log hc hk), ← Nat.pow_succ, countUp_eq hk (by omega)]
      omega
    · rw [if_neg]
      · omega
      · intro hle
        exact hk (Nat.le_log_of_pow_le (by decide) hle)

/-- The exponent of the first digit of the limb at `a`. -/
theorem exponent_eq {big : Cells} {a : Int} (h : big a < limbBase) :
    exponent big a = -9 * a + (Nat.log 10 (big a) : Nat) := by
  have hlog := log_lt h
  have hcount := countUp_eq (c := big a) (n := 9) (k := 0) (e := 9 * (0 - a)) (Nat.zero_le _) (by omega)
  rw [Nat.zero_add, Nat.pow_one] at hcount
  rw [exponent, hcount]
  omega

/-! ## The decision -/

theorem probe_eq (odd : Bool) {small : Nat} (h : small = 1 ∨ small = 2 ∨ small = 3) :
    probe odd small = (decide (small = 3) || decide (small = 2) && odd) := by
  rcases h with rfl | rfl | rfl <;> cases odd <;> decide

variable {x : Big} {d e j : Int} {i : Nat}

/-- The digits from `d` on that are worth less than `i` are rounded up when they are more than a half, or a half and
either something comes after them or the digit before them is odd. -/
theorem up_iff : x.up d i = true ↔ i / 2 < x.big d % i ∨ x.big d % i = i / 2 ∧
    (d + 1 ≠ x.z ∨ x.big d / i % 2 = 1 ∨ i = limbBase ∧ d > x.a ∧ x.big (d - 1) % 2 = 1) := by
  simp only [Big.up]
  rw [probe_eq]
  · simp only [Bool.or_eq_true, Bool.and_eq_true, decide_eq_true_eq]
    rcases Nat.lt_trichotomy (x.big d % i) (i / 2) with hc | hc | hc
    · rw [if_pos hc]
      omega
    · rw [if_neg (by omega)]
      by_cases hd : d + 1 = x.z
      · rw [if_pos ⟨hc, hd⟩]
        simp [hc, hd]
      · rw [if_neg (by tauto)]
        simp [hc, hd]
    · rw [if_neg (by omega), if_neg (by omega)]
      simp [hc]
  · split
    · exact .inl rfl
    · split
      · exact .inr (.inl rfl)
      · exact .inr (.inr rfl)

/-! ## What rounding does -/

/-- The limb in which the `j`-th digit after the radix lies, and what this digit is worth there. -/
def place (j : Int) : Int := 1 + j / 9

def worth (j : Int) : Nat := 10 ^ (9 - (j % 9).toNat)

theorem worth_dvd (j : Int) : worth j ∣ limbBase := Nat.pow_dvd_pow 10 (Nat.sub_le 9 _)

theorem worth_pos (j : Int) : 0 < worth j := Nat.pow_pos (by decide)

theorem worth_even (j : Int) : worth j % 2 = 0 := by
  obtain ⟨k, hk⟩ : ∃ k, 9 - (j % 9).toNat = k + 1 := ⟨8 - (j % 9).toNat, by omega⟩
  rw [worth, hk, Nat.pow_succ]
  omega

/-- Whether the `j`-th digit goes up. -/
def Big.goesUp (x : Big) (j : Int) : Bool :=
  decide (j < 9 * (x.z - 1)) && decide (x.big (place j) % worth j ≠ 0 ∨ place j + 1 ≠ x.z) && x.up (place j) (worth j)

/-- The digits after the `j`-th one replaced by zeros, and the carry. -/
def Big.bumped (x : Big) (d : Int) (i : Nat) : Cells :=
  update x.big d (x.big d - x.big d % i + i)

/-- Rounding, without the source's way to divide a negative number. -/
theorem round_eq (x : Big) (e j : Int) : round x e j =
    if j < 9 * (x.z - 1) then
      if x.goesUp j then
        (⟨(carryLoop limbBase (place j - x.a + 1).toNat (x.bumped (place j) (worth j)) x.a (place j)).1,
          (carryLoop limbBase (place j - x.a + 1).toNat (x.bumped (place j) (worth j)) x.a (place j)).2, place j + 1⟩,
          exponent (carryLoop limbBase (place j - x.a + 1).toNat (x.bumped (place j) (worth j)) x.a (place j)).1
            (carryLoop limbBase (place j - x.a + 1).toNat (x.bumped (place j) (worth j)) x.a (place j)).2)
      else (⟨update x.big (place j) (x.big (place j) - x.big (place j) % worth j), x.a, place j + 1⟩, e)
    else (x, e) := by
  by_cases hj : j < 9 * (x.z - 1)
  · have hplace : 1 + ((j + 9 * 16384) / 9 - 16384) = place j := by
      unfold place
      omega
    have hworth : 10 ^ (9 - ((j + 9 * 16384) % 9).toNat) = worth j := by
      unfold worth
      congr 3
      omega
    have hz : place j + 1 ≤ x.z := by
      unfold place
      omega
    simp only [round, hplace, hworth, Big.goesUp, Big.bumped, hj, decide_true, Bool.true_and,
      Bool.and_eq_true, decide_eq_true_eq]
    by_cases hc : x.big (place j) % worth j ≠ 0 ∨ place j + 1 ≠ x.z
    · by_cases hup : x.up (place j) (worth j) = true
      · simp only [hc, hup, if_true, and_self, update_self, update_idem]
        split
        · rfl
        · rename_i hlt
          rw [show x.z = place j + 1 by omega]
      · simp only [hc, hup, if_true, and_false, if_false, Bool.false_eq_true]
        split
        · rfl
        · rename_i hlt
          rw [show x.z = place j + 1 by omega]
    · have hc' := hc
      rw [not_or, not_not, not_not] at hc'
      simp [hc'.1, hc'.2]
  · rw [round, if_neg hj, if_neg hj]

/-- The digits that are printed before the radix are those of `e`, or a single zero. -/
structure Lead (x : Big) (e : Int) : Prop where
  whole : x.a ≤ 0 → e = -9 * x.a + (Nat.log 10 (x.big x.a) : Nat)
  part : 0 < x.a → e ≤ 0 ∧ x.big 0 = 0

theorem exponent_lead {big : Cells} {a z : Int} (h : big a < limbBase) (h0 : 0 < a → big 0 = 0) :
    Lead ⟨big, a, z⟩ (exponent big a) := by
  have hlog := log_lt h
  rw [exponent_eq h]
  exact ⟨fun _ => rfl, fun ha => ⟨by simp only at ha; omega, h0 ha⟩⟩

/-- Before rounding. -/
theorem Formed.lead {f : Bool} (h : Formed f x) : Lead x (if x.a < x.z then exponent x.big x.a else 0) := by
  have h0 : 0 < x.a → x.big 0 = 0 := h.below 0 (Int.le_refl 0)
  split
  · exact exponent_lead (h.cells x.a (by omega) (by omega)) h0
  · rename_i hlt
    exact ⟨fun ha => absurd (h.lt (.inr ha)) hlt, fun ha => ⟨Int.le_refl 0, h0 ha⟩⟩

section

variable {f : Bool} (h : Formed f x) (hd : x.a ≤ place j ∨ 0 ≤ place j)
include h hd

/-- Zeros before the first limb do not go up. -/
theorem Formed.le_of_up (hup : x.goesUp j = true) : x.a ≤ place j := by
  by_contra hlt
  have h0 : x.big (place j) = 0 := h.below _ (by omega) (by omega)
  have heven := worth_even j
  have hpos := worth_pos j
  simp only [Big.goesUp, Bool.and_eq_true, up_iff, h0, Nat.zero_mod] at hup
  omega

theorem Formed.bumped_le (hj : j < 9 * (x.z - 1)) : x.bumped (place j) (worth j) (place j) ≤ limbBase := by
  have hlt : x.big (place j) < limbBase := h.cells _ (by omega) (by unfold place; omega)
  have hdm := Nat.div_add_mod (x.big (place j)) (worth j)
  have hq := Nat.div_lt_div_of_lt_of_dvd (worth_dvd j) hlt
  have hm := Nat.mul_le_mul_left (worth j) hq
  rw [Nat.mul_div_cancel' (worth_dvd j), Nat.mul_succ] at hm
  rw [Big.bumped, update_self]
  omega

theorem Formed.carried (hj : j < 9 * (x.z - 1)) (hup : x.goesUp j = true) :
    Carried limbBase (x.bumped (place j) (worth j)) x.a (place j)
      (carryLoop limbBase (place j - x.a + 1).toNat (x.bumped (place j) (worth j)) x.a (place j)) := by
  have hle := h.le_of_up hd hup
  apply carryLoop_carried one_lt_limbBase hle
  · unfold span
    omega
  · intro i h₁ h₂
    rw [Big.bumped, update_of_ne (by omega)]
    exact h.cells i (by omega) (by unfold place at h₂; omega)
  · exact h.bumped_le hd hj

/-- **Rounding** leaves limbs below the base. -/
theorem Formed.round_cells : ∀ i, min (round x e j).1.a 0 ≤ i → i < max x.z 1 → (round x e j).1.big i < limbBase := by
  rw [round_eq]
  by_cases hj : j < 9 * (x.z - 1)
  · have hz : place j + 1 ≤ x.z := by
      unfold place
      omega
    rw [if_pos hj]
    split
    · rename_i hup
      have hc := h.carried hd hj hup
      have hle := h.le_of_up hd hup
      intro i h₁ h₂
      simp only at h₁ h₂ ⊢
      by_cases hi : i < (carryLoop limbBase (place j - x.a + 1).toNat (x.bumped (place j) (worth j)) x.a (place j)).2 ∨
          place j < i
      · have hfirst := hc.first
        rw [hc.outside i hi, Big.bumped, update_of_ne (by omega)]
        exact h.cells i (by omega) (by omega)
      · exact hc.lt i (by omega) (by omega)
    · intro i h₁ h₂
      simp only at h₁ h₂ ⊢
      have hcell := h.cells i h₁ (by omega)
      by_cases hi : i = place j
      · subst hi
        rw [update_self]
        omega
      · rwa [update_of_ne hi]
  · rw [if_neg hj]
    exact h.cells

/-- Rounding behind the radix keeps track of the exponent. -/
theorem Formed.round_lead (hj0 : 0 ≤ j) (he : Lead x e) : Lead (round x e j).1 (round x e j).2 := by
  rw [round_eq]
  have hplace : 1 ≤ place j := by
    unfold place
    omega
  by_cases hj : j < 9 * (x.z - 1)
  · rw [if_pos hj]
    split
    · rename_i hup
      have hc := h.carried hd hj hup
      have hle := h.le_of_up hd hup
      have hfirst := hc.first
      apply exponent_lead
      · exact hc.lt _ (Int.le_refl _) (by omega)
      · intro ha
        rw [hc.outside 0 (.inl ha), Big.bumped, update_of_ne (by omega)]
        exact h.below 0 (Int.le_refl 0) (by omega)
    · constructor
      · intro ha
        simp only at ha ⊢
        rw [update_of_ne (by omega)]
        exact he.whole ha
      · intro ha
        simp only at ha ⊢
        rw [update_of_ne (by omega)]
        exact he.part ha
  · rw [if_neg hj]
    exact he

/-- Where the first and the last limb are after rounding. -/
theorem Formed.round_start : x.a - 1 ≤ (round x e j).1.a ∧ (round x e j).1.a ≤ x.a ∧ (round x e j).1.z ≤ x.z := by
  rw [round_eq]
  by_cases hj : j < 9 * (x.z - 1)
  · have hz : place j + 1 ≤ x.z := by
      unfold place
      omega
    rw [if_pos hj]
    split
    · rename_i hup
      have hfirst := (h.carried hd hj hup).first
      exact ⟨by simp only; omega, by simp only; omega, hz⟩
    · exact ⟨by simp only; omega, Int.le_refl _, hz⟩
  · rw [if_neg hj]
    exact ⟨by simp only; omega, Int.le_refl _, Int.le_refl _⟩

/-- The first limb does not get smaller when the digits go up. -/
theorem Formed.first_le (hj : j < 9 * (x.z - 1)) (hup : x.goesUp j = true) {r : Cells × Int}
    (hc : Carried limbBase (x.bumped (place j) (worth j)) x.a (place j) r) (hr : r.2 = x.a) :
    x.big x.a ≤ r.1 x.a := by
  have hle := h.le_of_up hd hup
  obtain ⟨k, hk⟩ : ∃ k, span x.a (place j + 1) = k + 1 := ⟨(place j - x.a).toNat, by unfold span; omega⟩
  have hd' : x.a + (k : Int) = place j := by
    unfold span at hk
    omega
  have hval := hc.value
  rw [hr, hk] at hval
  have hold : x.big x.a = value limbBase x.big x.a (k + 1) / limbBase ^ k :=
    first_eq (fun i h₁ h₂ => h.cells i (by omega) (by unfold place at hd'; omega)) limbBase_pos
  have hnew : r.1 x.a = value limbBase r.1 x.a (k + 1) / limbBase ^ k :=
    first_eq (fun i h₁ h₂ => hc.lt i (by omega) (by omega)) limbBase_pos
  have hbumped : value limbBase x.big x.a (k + 1) ≤ value limbBase (x.bumped (place j) (worth j)) x.a (k + 1) := by
    have hfront : value limbBase (x.bumped (place j) (worth j)) x.a k = value limbBase x.big x.a k :=
      value_congr fun i _ h₂ => update_of_ne (by omega) _ _
    have hmod := Nat.mod_le (x.big (place j)) (worth j)
    have hlt := Nat.mod_lt (x.big (place j)) (worth_pos j)
    rw [value_succ, value_succ, hfront, hd', Big.bumped, update_self]
    omega
  rw [hold, hnew, hval]
  exact Nat.div_le_div_right hbumped

/-- The exponent does not get smaller. -/
theorem Formed.exponent_le (ha : x.a < x.z) (he : e = exponent x.big x.a) : e ≤ (round x e j).2 := by
  have hcell : x.big x.a < limbBase := h.cells x.a (by omega) (by omega)
  have hlog := log_lt hcell
  rw [exponent_eq hcell] at he
  rw [round_eq]
  by_cases hj : j < 9 * (x.z - 1)
  · rw [if_pos hj]
    split
    · rename_i hup
      have hle := h.le_of_up hd hup
      have hc := h.carried hd hj hup
      simp only
      rw [exponent_eq (hc.lt _ (Int.le_refl _) (by have := hc.first; omega))]
      rcases hc.first with hr | ⟨hr, -⟩
      · have hmono : Nat.log 10 (x.big x.a) ≤ Nat.log 10 _ := Nat.log_mono_right (h.first_le hd hj hup hc hr)
        rw [hr, he]
        omega
      · rw [hr, he]
        omega
    · exact Int.le_refl e
  · rw [if_neg hj]

end

end Synthol.Stdio
