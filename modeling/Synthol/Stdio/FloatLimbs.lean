import Mathlib.Data.Nat.Prime.Basic
import Synthol.Stdio.Float

/-!
# The limbs of a long double

What the loops of `fmt_fp` leave in the array.

- the expansion is the number `n / 2 ^ 35` itself, with a last limb that is not zero (`expand_spec`);
- a round of `while (e2>0)` multiplies the number by a power of two (`growStep_whole`, `grow_whole`);
- a round of `while (e2<0)` divides it, exactly as long as nothing has been cut off (`shiftDown_shifted`).
-/

namespace Synthol.Stdio

open Limbs Function

theorem limbBase_pos : 0 < limbBase := by decide
theorem one_lt_limbBase : 1 < limbBase := by decide

/-- The base has nine factors of two. -/
theorem pow_dvd_limbBase {k : Nat} (h : k ≤ 9) : 2 ^ k ∣ limbBase :=
  Nat.dvd_trans (Nat.pow_dvd_pow 2 h) (by decide)

/-! ## Expansion -/

structure Expanded (big : Cells) (z : Int) (n : Nat) (r : Cells × Int) : Prop where
  lt : z < r.2
  value : value limbBase r.1 z (span z r.2) * 2 ^ 35 = n * limbBase ^ (span z r.2 - 1)
  cells : ∀ i, z ≤ i → i < r.2 → r.1 i < limbBase
  outside : ∀ i, i < z → r.1 i = big i
  last : n ≠ 0 → r.1 (r.2 - 1) ≠ 0
  first : r.1 z = n / 2 ^ 35

theorem expand_spec : ∀ {k : Nat} (big : Cells) {z : Int} {n : Nat}, 2 ^ (35 - 9 * k) ∣ n → n < limbBase * 2 ^ 35 →
    Expanded big z n (expand big z (k + 1) n) ∧ (expand big z (k + 1) n).2 ≤ z + k + 1
  | k, big, z, n, hdvd, hn => by
    have hdm := Nat.div_add_mod n (2 ^ 35)
    have hcell : n / 2 ^ 35 < limbBase := Nat.div_lt_of_lt_mul (by rwa [Nat.mul_comm])
    rw [expand]
    split
    · rename_i h0
      have hmod : n % 2 ^ 35 = 0 := (Nat.mul_eq_zero.mp h0).resolve_left (by decide)
      have hw : span z (z + 1) = 1 := by
        unfold span
        omega
      refine ⟨⟨by simp only; omega, ?_, ?_, ?_, ?_, by simp only [update_self]⟩, by simp only; omega⟩
      · simp only
        rw [hw, value_one, update_self, Nat.sub_self, Nat.pow_zero]
        omega
      · intro i h₁ h₂
        simp only at h₂ ⊢
        obtain rfl : i = z := by omega
        rwa [update_self]
      · intro i hi
        simp only
        rw [update_of_ne (by omega)]
      · intro hne
        simp only
        rw [Int.add_sub_cancel, update_self]
        omega
    · rename_i h0
      cases k with
      | zero =>
        have hmod := Nat.mod_eq_zero_of_dvd hdvd
        exact absurd (by rw [hmod, Nat.mul_zero]) h0
      | succ k =>
        have hmod : n % 2 ^ 35 < 2 ^ 35 := Nat.mod_lt _ (by decide)
        have hdvd' : 2 ^ (35 - 9 * k) ∣ limbBase * (n % 2 ^ 35) := by
          have hlow : 2 ^ (35 - 9 * (k + 1)) ∣ n % 2 ^ 35 :=
            (Nat.dvd_mod_iff (Nat.pow_dvd_pow 2 (Nat.sub_le _ _))).mpr hdvd
          have hmul := Nat.mul_dvd_mul (pow_dvd_limbBase (Nat.le_refl 9)) hlow
          rw [← Nat.pow_add] at hmul
          exact Nat.dvd_trans (Nat.pow_dvd_pow 2 (by omega)) hmul
        obtain ⟨ih, hle⟩ := expand_spec (update big z (n / 2 ^ 35)) (z := z + 1) hdvd'
          (Nat.mul_lt_mul_of_pos_left hmod limbBase_pos)
        generalize expand (update big z (n / 2 ^ 35)) (z + 1) (k + 1) (limbBase * (n % 2 ^ 35)) = r at ih hle
        have hlt := ih.lt
        have hz : r.1 z = n / 2 ^ 35 := by rw [ih.outside z (by omega), update_self]
        obtain ⟨l, hl⟩ : ∃ l, span (z + 1) r.2 = l + 1 := ⟨span (z + 1) r.2 - 1, by unfold span; omega⟩
        have hw : span z r.2 = l + 1 + 1 := by
          unfold span at hl ⊢
          omega
        refine ⟨⟨by omega, ?_, ?_, ?_, fun _ => ih.last h0, hz⟩, by omega⟩
        · have hval := ih.value
          rw [hl, Nat.add_sub_cancel] at hval
          rw [hw, value_cons, hz, Nat.add_sub_cancel]
          calc (n / 2 ^ 35 * limbBase ^ (l + 1) + Limbs.value limbBase r.1 (z + 1) (l + 1)) * 2 ^ 35
              = 2 ^ 35 * (n / 2 ^ 35) * limbBase ^ (l + 1) +
                  Limbs.value limbBase r.1 (z + 1) (l + 1) * 2 ^ 35 := by ring
            _ = (2 ^ 35 * (n / 2 ^ 35) + n % 2 ^ 35) * limbBase ^ (l + 1) := by rw [hval]; ring
            _ = n * limbBase ^ (l + 1) := by rw [hdm]
        · intro i h₁ h₂
          by_cases hi : i = z
          · rwa [hi, hz]
          · exact ih.cells i (by omega) h₂
        · intro i hi
          rw [ih.outside i (by omega), update_of_ne (by omega)]

/-! ## While e2 is positive -/

/-- The limbs of `v` without those behind `top`, all of which are zero from `z` on. -/
structure Whole (top : Int) (v : Nat) (x : Big) : Prop where
  start : x.a ≤ 0
  lt : x.a < x.z
  le : x.z ≤ top
  cells : ∀ i, x.a ≤ i → i < top → x.big i < limbBase
  zero : ∀ i, x.z ≤ i → i < top → x.big i = 0
  first : x.big x.a ≠ 0
  last : x.big (x.z - 1) ≠ 0
  value : value limbBase x.big x.a (span x.a top) = v

/-- The limbs before `trim`. -/
theorem mulLoop_whole {top : Int} {v sh : Nat} {x : Big} (hsh : sh ≤ 29) (h : Whole top v x) {r : Cells × Nat}
    (hr : mulLoop limbBase (2 ^ sh) x.big x.z (x.z - x.a).toNat = r) :
    (∀ i, x.a ≤ i → i < top → r.1 i < limbBase) ∧ (∀ i, x.z ≤ i → i < top → r.1 i = 0) ∧ r.2 < limbBase ∧
      (r.2 = 0 → r.1 x.a ≠ 0) ∧
      r.2 * limbBase ^ span x.a top + value limbBase r.1 x.a (span x.a top) = 2 ^ sh * v := by
  have hlt := h.lt
  have hle := h.le
  have hpow : (2 : Nat) ^ sh ≤ 2 ^ 29 := Nat.pow_le_pow_right (by decide) hsh
  obtain ⟨k, hk⟩ : ∃ k : Nat, (x.z - x.a).toNat = k + 1 := ⟨(x.z - x.a).toNat - 1, by omega⟩
  have hza : x.z - ((k + 1 : Nat) : Int) = x.a := by omega
  have ha : x.z - 1 - k = x.a := by omega
  rw [hk] at hr
  have hout : ∀ i, x.z ≤ i → r.1 i = x.big i := by
    intro i hi
    rw [← hr]
    exact mulLoop_outside (.inr hi)
  have hzero : ∀ i, x.z ≤ i → i < top → r.1 i = 0 := by
    intro i h₁ h₂
    rw [hout i h₁, h.zero i h₁ h₂]
  refine ⟨?_, hzero, ?_, ?_, ?_⟩
  · intro i h₁ h₂
    by_cases hi : i < x.z
    · rw [← hr]
      exact mulLoop_lt limbBase_pos (by omega) hi
    · rw [hzero i (by omega) h₂]
      exact limbBase_pos
  · have hcarry : r.2 < 2 ^ sh := by
      rw [← hr]
      exact mulLoop_carry_lt limbBase_pos (Nat.two_pow_pos sh) fun i h₁ h₂ => h.cells i (by omega) (by omega)
    have hB : 2 ^ 29 < limbBase := by decide
    omega
  · intro h0
    rw [← hr] at h0 ⊢
    rw [← ha]
    exact mulLoop_first (Nat.two_pow_pos sh) (by rw [ha]; exact h.first) h0
  · have hval := mulLoop_value (B := limbBase) (q := 2 ^ sh) x.big x.z (k + 1)
    rw [hr, hza] at hval
    obtain ⟨l, hl⟩ : ∃ l : Nat, span x.a top = (k + 1) + l := ⟨span x.a top - (k + 1), by unfold span; omega⟩
    have hback : x.a + ((k + 1 : Nat) : Int) = x.z := by omega
    have hrest : value limbBase r.1 x.z l = 0 :=
      value_eq_zero fun i h₁ h₂ => hzero i h₁ (by unfold span at hl; omega)
    have hrest' : value limbBase x.big x.z l = 0 :=
      value_eq_zero fun i h₁ h₂ => h.zero i h₁ (by unfold span at hl; omega)
    have hv := h.value
    rw [hl, value_add, hback, hrest', Nat.add_zero] at hv
    rw [hl, value_add, hback, hrest, ← hv, Nat.pow_add]
    calc r.2 * (limbBase ^ (k + 1) * limbBase ^ l) + (value limbBase r.1 x.a (k + 1) * limbBase ^ l + 0)
        = (r.2 * limbBase ^ (k + 1) + value limbBase r.1 x.a (k + 1)) * limbBase ^ l := by ring
      _ = 2 ^ sh * (value limbBase x.big x.a (k + 1) * limbBase ^ l) := by rw [hval]; ring

/-- **A round of `while (e2>0)`** multiplies, and takes one cell more at most. -/
theorem growStep_whole {top : Int} {v sh : Nat} {x : Big} (hsh : sh ≤ 29) (h : Whole top v x) :
    Whole top (2 ^ sh * v) (growStep sh x) ∧ x.a - 1 ≤ (growStep sh x).a := by
  have hlt := h.lt
  have hle := h.le
  have hstart := h.start
  generalize hr : mulLoop limbBase (2 ^ sh) x.big x.z (x.z - x.a).toNat = r
  obtain ⟨hcells, hzero, hcarry, hfirst, hval⟩ := mulLoop_whole hsh h hr
  -- the limbs with the carry in front
  obtain ⟨y, hy, hya, hyz, hya', hyc, hyzero, hyfirst, hyval⟩ : ∃ y : Big,
      y = (if r.2 ≠ 0 then ⟨update r.1 (x.a - 1) r.2, x.a - 1, x.z⟩ else ⟨r.1, x.a, x.z⟩) ∧ y.a ≤ 0 ∧ y.z = x.z ∧
      (y.a ≤ x.a ∧ x.a - 1 ≤ y.a) ∧ (∀ i, y.a ≤ i → i < top → y.big i < limbBase) ∧
      (∀ i, x.z ≤ i → i < top → y.big i = 0) ∧ y.big y.a ≠ 0 ∧
      value limbBase y.big y.a (span y.a top) = 2 ^ sh * v := by
    by_cases hc : r.2 = 0
    · rw [if_neg (not_not.mpr hc)]
      refine ⟨_, rfl, hstart, rfl, ⟨Int.le_refl _, by simp only; omega⟩, hcells, hzero, hfirst hc, ?_⟩
      rwa [hc, Nat.zero_mul, Nat.zero_add] at hval
    · rw [if_pos hc]
      refine ⟨_, rfl, by simp only; omega, rfl, ⟨by simp only; omega, Int.le_refl _⟩, ?_, ?_, ?_, ?_⟩
      · intro i h₁ h₂
        simp only at h₁ ⊢
        by_cases hi : i = x.a - 1
        · rwa [hi, update_self]
        · rw [update_of_ne hi]
          exact hcells i (by omega) h₂
      · intro i h₁ h₂
        simp only
        rw [update_of_ne (by omega)]
        exact hzero i h₁ h₂
      · simp only
        rwa [update_self]
      · have hw : span (x.a - 1) top = span x.a top + 1 := by
          unfold span
          omega
        have hrest : value limbBase (update r.1 (x.a - 1) r.2) x.a (span x.a top) =
            value limbBase r.1 x.a (span x.a top) :=
          value_congr fun i h₁ _ => update_of_ne (by omega) _ _
        simp only
        rw [hw, value_cons, update_self, Int.sub_add_cancel, hrest, hval]
  have hstep : growStep sh x = { y with z := trim y.big (y.z - y.a).toNat y.z } := by
    rw [hy]
    simp only [growStep, hr]
  have hn : y.a + (y.z - y.a).toNat = y.z := by omega
  have ht_le := trim_le y.big (y.z - y.a).toNat y.z
  have ht_lt := lt_trim hyfirst hn (by omega)
  rw [hstep]
  refine ⟨⟨hya, ht_lt, by simp only; omega, hyc, ?_, hyfirst, trim_last hn ht_lt, hyval⟩, hya'.2⟩
  intro i h₁ h₂
  by_cases hi : i < x.z
  · exact trim_zero y.big _ y.z i h₁ (by omega)
  · exact hyzero i (by omega) h₂

/-- The loop after `n` rounds. -/
theorem grow_whole {top : Int} : ∀ (n e2 : Nat) {v : Nat} {x : Big}, Whole top v x →
    Whole top (2 ^ min e2 (29 * n) * v) (grow n e2 x) ∧ x.a - (grow n e2 x).a ≤ ((e2 + 28) / 29 : Nat)
  | 0, e2, v, x, h => by
    rw [Nat.mul_zero, Nat.min_zero, Nat.pow_zero, Nat.one_mul, grow]
    exact ⟨h, by omega⟩
  | n + 1, e2, v, x, h => by
    rw [grow]
    split
    · obtain ⟨hstep, ha⟩ := growStep_whole (Nat.min_le_left 29 e2) h
      obtain ⟨hw, ha'⟩ := grow_whole n (e2 - min 29 e2) hstep
      have hpow : 2 ^ min e2 (29 * (n + 1)) * v =
          2 ^ min (e2 - min 29 e2) (29 * n) * (2 ^ min 29 e2 * v) := by
        rw [← Nat.mul_assoc, ← Nat.pow_add]
        congr 2
        omega
      rw [hpow]
      exact ⟨hw, by omega⟩
    · rename_i h0
      obtain rfl : e2 = 0 := by omega
      rw [Nat.zero_min, Nat.pow_zero, Nat.one_mul]
      exact ⟨h, by omega⟩

/-! ## While e2 is negative -/

/-- The limbs from the radix on of a number that is less than the base, as they are before something is cut off. -/
structure Down (x : Big) : Prop where
  start : 0 ≤ x.a
  le : x.a ≤ x.z
  pos : 1 ≤ x.z
  cells : ∀ i, 0 ≤ i → i < x.z → x.big i < limbBase
  zero : ∀ i, 0 ≤ i → i < x.a → x.big i = 0
  first : x.big x.a ≠ 0

/-- The number in the limbs, in units of the last. -/
def Big.units (x : Big) : Nat := value limbBase x.big 0 x.z.toNat

/-- **A shift** divides by `2 ^ sh`, with a limb more where there is a remainder. -/
structure Shifted (sh : Nat) (x y : Big) : Prop where
  down : Down y
  units : (y.z = x.z ∧ 2 ^ sh * y.units = x.units) ∨
    (y.z = x.z + 1 ∧ 2 ^ sh * y.units = x.units * limbBase ∧ y.big (y.z - 1) ≠ 0)
  start : x.a ≤ y.a ∧ y.a ≤ x.a + 1
  lt : x.a < x.z → y.a < y.z
  stay : x.a = x.z → y = x

theorem units_eq {x : Big} (h₀ : 0 ≤ x.a) (h₁ : x.a ≤ x.z) (hzero : ∀ i, 0 ≤ i → i < x.a → x.big i = 0) :
    x.units = value limbBase x.big x.a (x.z - x.a).toNat := by
  have hz : x.z.toNat = x.a.toNat + (x.z - x.a).toNat := by omega
  have ha : (0 : Int) + (x.a.toNat : Int) = x.a := by omega
  rw [Big.units, hz, value_skip fun i hi hi' => hzero i hi (by omega), ha]

/-- What the loop of a shift leaves in the cells of `x`, the first that is not zero at `a`. -/
structure Divided (sh : Nat) (x : Big) (big : Cells) (carry : Nat) (a : Int) : Prop where
  start : x.a ≤ a ∧ a ≤ x.a + 1
  cells : ∀ i, 0 ≤ i → i < x.z → big i < limbBase
  zero : ∀ i, 0 ≤ i → i < a → big i = 0
  carry_lt : carry < limbBase
  first : big a ≠ 0 ∧ a < x.z ∨ a = x.z ∧ carry ≠ 0
  units : 2 ^ sh * (value limbBase big 0 x.z.toNat * limbBase + carry) = x.units * limbBase

theorem divLoop_divided {sh k : Nat} (hsh : sh ≤ 9) {x : Big} (h : Down x) (hk : (x.z - x.a).toNat = k + 1)
    {r : Cells × Nat} (hr : divLoop limbBase (2 ^ sh) x.big x.a (k + 1) = r) :
    Divided sh x r.1 r.2 (if r.1 x.a = 0 then x.a + 1 else x.a) := by
  have hstart := h.start
  have hle := h.le
  have hqB := pow_dvd_limbBase hsh
  have hq := Nat.two_pow_pos sh
  have hbefore : ∀ i, 0 ≤ i → i < x.a → r.1 i = 0 := by
    intro i h₁ h₂
    rw [← hr, divLoop_outside (.inl h₂), h.zero i h₁ h₂]
  have hfirst : r.1 x.a = 0 → if k = 0 then r.2 ≠ 0 else r.1 (x.a + 1) ≠ 0 := by
    rw [← hr]
    exact divLoop_first hqB limbBase_pos h.first
  refine ⟨by split <;> omega, ?_, ?_, ?_, ?_, ?_⟩
  · intro i h₁ h₂
    rw [← hr]
    by_cases hi : i < x.a
    · rw [divLoop_outside (.inl hi)]
      exact h.cells i h₁ h₂
    · exact divLoop_lt hq hqB (fun j h₃ h₄ => h.cells j (by omega) (by omega)) i (by omega) (by omega)
  · intro i h₁ h₂
    by_cases hi : i < x.a
    · exact hbefore i h₁ hi
    · split at h₂
      · obtain rfl : i = x.a := by omega
        assumption
      · omega
  · have hc := divLoop_carry_le x.big x.a hq hqB (k + 1)
    have hBq : 0 < limbBase / 2 ^ sh := Nat.div_pos (Nat.le_of_dvd limbBase_pos hqB) hq
    rw [hr] at hc
    omega
  · by_cases h0 : r.1 x.a = 0
    · have hf := hfirst h0
      rw [if_pos h0]
      split at hf
      · exact .inr ⟨by omega, hf⟩
      · exact .inl ⟨hf, by omega⟩
    · rw [if_neg h0]
      exact .inl ⟨h0, by omega⟩
  · have hv := divLoop_value x.big x.a hqB (k + 1)
    rw [hr] at hv
    have hu := units_eq (x := ⟨r.1, x.a, x.z⟩) hstart hle hbefore
    rw [units_eq hstart hle h.zero, hk, ← hv]
    simp only [Big.units, hk] at hu
    rw [hu]

/-- Nothing is left over. -/
theorem Divided.even {sh : Nat} {x : Big} {big : Cells} {a : Int} (hd : Divided sh x big 0 a) (h : Down x)
    (hlt : x.a < x.z) : Shifted sh x ⟨big, a, x.z⟩ := by
  have hstart := h.start
  have hab := hd.start
  obtain ⟨hne, haz⟩ := hd.first.resolve_right fun hf => hf.2 rfl
  have hunits := hd.units
  rw [Nat.add_zero, ← Nat.mul_assoc] at hunits
  refine ⟨⟨by simp only; omega, by simp only; omega, h.pos, hd.cells, hd.zero, hne⟩, .inl ⟨rfl, ?_⟩, hab,
    fun _ => haz, fun heq => by omega⟩
  exact Nat.eq_of_mul_eq_mul_right limbBase_pos hunits

/-- What is left over goes to a new limb. -/
theorem Divided.more {sh c : Nat} {x : Big} {big : Cells} {a : Int} (hd : Divided sh x big c a) (hc : c ≠ 0)
    (h : Down x) (hlt : x.a < x.z) : Shifted sh x ⟨update big x.z c, a, x.z + 1⟩ := by
  have hstart := h.start
  have hpos := h.pos
  have hab := hd.start
  refine ⟨⟨by simp only; omega, by simp only; omega, by simp only; omega, ?_, ?_, ?_⟩, .inr ⟨rfl, ?_, ?_⟩, hab,
    fun _ => by simp only; omega, fun heq => by omega⟩
  · intro i h₁ h₂
    simp only at h₂ ⊢
    by_cases hi : i = x.z
    · rw [hi, update_self]
      exact hd.carry_lt
    · rw [update_of_ne hi]
      exact hd.cells i h₁ (by omega)
  · intro i h₁ h₂
    simp only at h₂ ⊢
    rw [update_of_ne (by omega)]
    exact hd.zero i h₁ h₂
  · simp only
    rcases hd.first with ⟨hne, haz⟩ | ⟨haz, -⟩
    · rwa [update_of_ne (by omega)]
    · rwa [haz, update_self]
  · have hunits := hd.units
    have hzn : (x.z + 1).toNat = x.z.toNat + 1 := by omega
    have hzi : (0 : Int) + (x.z.toNat : Int) = x.z := by omega
    have hrest : value limbBase (update big x.z c) 0 x.z.toNat = value limbBase big 0 x.z.toNat :=
      value_congr fun i _ h₂ => update_of_ne (by omega) _ _
    simp only [Big.units] at hunits ⊢
    rw [hzn, value_succ, hzi, update_self, hrest, hunits]
  · simp only [Int.add_sub_cancel]
    rwa [update_self]

theorem shiftDown_shifted {sh : Nat} (hsh : sh ≤ 9) {x : Big} (h : Down x) : Shifted sh x (shiftDown sh x) := by
  have hle := h.le
  cases hk : (x.z - x.a).toNat with
  | zero =>
    -- no limb is left, and the cell at `a` is one that was cut off
    have heq : shiftDown sh x = x := by simp [shiftDown, hk, divLoop, h.first]
    have hu : x.units = 0 := by
      rw [units_eq h.start hle h.zero, hk, value_zero]
    rw [heq]
    exact ⟨h, .inl ⟨rfl, by rw [hu, Nat.mul_zero]⟩, by omega, fun hlt => hlt, fun _ => rfl⟩
  | succ k =>
    generalize hr : divLoop limbBase (2 ^ sh) x.big x.a (k + 1) = r
    have hd := divLoop_divided hsh h hk hr
    have hlt : x.a < x.z := by omega
    rw [shiftDown, hk, hr]
    by_cases hc : r.2 = 0
    · rw [if_neg (not_not.mpr hc)]
      rw [hc] at hd
      exact hd.even h hlt
    · rw [if_pos hc]
      exact hd.more hc h hlt

/-! ## What is cut off -/

/-- The last limb is the number modulo the base. -/
theorem Down.not_dvd {x : Big} (h : Down x) (hlast : x.big (x.z - 1) ≠ 0) : ¬limbBase ∣ x.units := by
  have hpos := h.pos
  obtain ⟨n, hn⟩ : ∃ n : Nat, x.z.toNat = n + 1 := ⟨x.z.toNat - 1, by omega⟩
  have hcell : (0 : Int) + (n : Int) = x.z - 1 := by omega
  have hlt := h.cells (x.z - 1) (by omega) (by omega)
  intro hdvd
  rw [Big.units, hn, value_succ, hcell, Nat.dvd_add_right (Nat.dvd_mul_left _ _)] at hdvd
  exact hlast (Nat.eq_zero_of_dvd_of_lt hdvd hlt)

/-- Limbs that are cut off leave the quotient. -/
theorem units_cut {x : Big} (h : Down x) {c : Nat} {z : Int} (hz : 0 ≤ z) (hc : x.z = z + c) :
    ({ x with z := z } : Big).units = x.units / limbBase ^ c := by
  have hn : x.z.toNat = z.toNat + c := by omega
  have hlt : value limbBase x.big (0 + (z.toNat : Int)) c < limbBase ^ c :=
    value_lt fun i h₁ h₂ => h.cells i (by omega) (by omega)
  simp only [Big.units]
  rw [hn, value_add, Nat.mul_comm, Nat.mul_add_div (Nat.pow_pos limbBase_pos), Nat.div_eq_of_lt hlt, Nat.add_zero]

theorem Down.cut {x : Big} (h : Down x) {z : Int} (ha : x.a ≤ z) (h₁ : 1 ≤ z) (h₂ : z ≤ x.z) :
    Down { x with z := z } :=
  ⟨h.start, ha, h₁, fun i hi hi' => h.cells i hi (Int.lt_of_lt_of_le hi' h₂), h.zero, h.first⟩

/-- The limbs between the rounds of `while (e2<0)`. What is cut off leaves at least the limb at `a`, for `%f` at least
those up to `need`. -/
structure Kept (f : Bool) (need : Int) (x : Big) : Prop where
  down : Down x
  room : if f then x.a ≤ need ∧ (x.z ≤ need ∨ x.a = 0) else x.a < x.z

theorem kept_step {f : Bool} {sh : Nat} {need : Int} {x : Big} (hneed : 1 ≤ need) (hsh : sh ≤ 9) (h : Kept f need x) :
    Kept f need ((shiftDown sh x).cut f need) := by
  have hs := shiftDown_shifted hsh h.down
  generalize shiftDown sh x = y at hs
  have hroom := h.room
  have hle := h.down.le
  have hst := hs.start
  cases f with
  | true =>
    simp only [if_true, Big.cut, Int.sub_zero, Int.zero_add] at hroom ⊢
    obtain ⟨hr₁, hr₂⟩ := hroom
    have hya : y.a ≤ need := by
      by_cases hlt : x.a = x.z
      · rw [hs.stay hlt]
        exact hr₁
      · rcases hr₂ with hr₂ | hr₂ <;> omega
    split
    · exact ⟨hs.down.cut hya hneed (by omega), hya, .inl (Int.le_refl _)⟩
    · exact ⟨hs.down, hya, .inl (by omega)⟩
  | false =>
    have hlt : y.a < y.z := hs.lt hroom
    have hya := hs.down.start
    simp only [Bool.false_eq_true, if_false, Big.cut] at hroom ⊢
    split
    · refine ⟨hs.down.cut (by omega) (by omega) (by omega), ?_⟩
      rw [if_neg Bool.false_ne_true]
      simp only
      omega
    · exact ⟨hs.down, by rwa [if_neg Bool.false_ne_true]⟩

/-- The limbs of `n / 2 ^ t` for `%f`. Where some have been cut off they are its integer part, in units of the last. -/
structure Floor (n t : Nat) (need : Int) (x : Big) : Prop where
  kept : Kept true need x
  units : x.units = n * limbBase ^ (x.z - 1).toNat / 2 ^ t
  exact : 2 ^ t ∣ n * limbBase ^ (x.z - 1).toNat → ¬limbBase ∣ x.units
  inexact : ¬2 ^ t ∣ n * limbBase ^ (x.z - 1).toNat → x.z = need

/-- A shift of a number of which nothing has been cut off. -/
theorem Shifted.exact {sh n t : Nat} {need : Int} {x y : Big} (hs : Shifted sh x y) (h : Floor n t need x)
    (hdvd : 2 ^ t ∣ n * limbBase ^ (x.z - 1).toNat) :
    y.units * 2 ^ (t + sh) = n * limbBase ^ (y.z - 1).toNat ∧ ¬limbBase ∣ y.units := by
  have hpos := h.kept.down.pos
  have hunits : x.units * 2 ^ t = n * limbBase ^ (x.z - 1).toNat := by
    rw [h.units, Nat.div_mul_cancel hdvd]
  have hmul : y.units * 2 ^ (t + sh) = 2 ^ sh * y.units * 2 ^ t := by
    rw [Nat.pow_add]
    ring
  rcases hs.units with ⟨hz, hu⟩ | ⟨hz, hu, hlast⟩
  · refine ⟨by rw [hmul, hu, hunits, hz], fun hB => h.exact hdvd ?_⟩
    rw [← hu]
    exact Nat.dvd_mul_left_of_dvd hB _
  · have hn : (y.z - 1).toNat = (x.z - 1).toNat + 1 := by omega
    refine ⟨?_, hs.down.not_dvd hlast⟩
    rw [hmul, hu, hn, Nat.pow_succ, ← Nat.mul_assoc, ← hunits]
    ring

/-- A shift of a number of which something has been cut off, where the new limb is cut off as well. -/
theorem Shifted.inexact {sh : Nat} {need : Int} {x y : Big} (hs : Shifted sh x y) (hneed : 1 ≤ need)
    (hz : x.z = need) : (y.cut true need).z = need ∧ (y.cut true need).units = x.units / 2 ^ sh := by
  have hq := Nat.two_pow_pos sh
  rcases hs.units with ⟨hyz, hu⟩ | ⟨hyz, hu, -⟩
  · have hcut : y.cut true need = y := by
      simp only [Big.cut, if_true]
      rw [if_neg (by omega)]
    rw [hcut, ← hu, Nat.mul_div_cancel_left _ hq]
    exact ⟨by omega, rfl⟩
  · have hcut : y.cut true need = { y with z := need } := by
      simp only [Big.cut, if_true, Int.zero_add]
      rw [if_pos (by omega)]
    have hy : y.units = x.units * limbBase / 2 ^ sh := by
      rw [← hu, Nat.mul_div_cancel_left _ hq]
    rw [hcut]
    refine ⟨rfl, ?_⟩
    rw [units_cut hs.down (c := 1) (by omega) (by omega), hy, Nat.pow_one, Nat.div_div_eq_div_mul, Nat.mul_comm (2 ^ sh),
      ← Nat.div_div_eq_div_mul, Nat.mul_div_cancel _ limbBase_pos]

/-- **A round of `while (e2<0)` for `%f`** keeps the integer part. -/
theorem floor_step {sh n t : Nat} {need : Int} {x : Big} (hneed : 1 ≤ need) (hsh : sh ≤ 9) (h : Floor n t need x) :
    Floor n (t + sh) need ((shiftDown sh x).cut true need) := by
  have hkept := kept_step hneed hsh h.kept
  have hs := shiftDown_shifted hsh h.kept.down
  generalize shiftDown sh x = y at hs hkept
  have hcut : y.cut true need = if y.z > need then { y with z := need } else y := by
    simp only [Big.cut, if_true, Int.sub_zero, Int.zero_add]
  by_cases hdvd : 2 ^ t ∣ n * limbBase ^ (x.z - 1).toNat
  · obtain ⟨hy, hyB⟩ := hs.exact h hdvd
    have hq := Nat.two_pow_pos (t + sh)
    have hyu : y.units = n * limbBase ^ (y.z - 1).toNat / 2 ^ (t + sh) := by
      rw [← hy, Nat.mul_div_cancel _ hq]
    by_cases hz : y.z > need
    · rw [if_pos hz] at hcut
      obtain ⟨c, hc⟩ : ∃ c : Nat, y.z = need + c := ⟨(y.z - need).toNat, by omega⟩
      have hn : (y.z - 1).toNat = (need - 1).toNat + c := by omega
      have hBc : 0 < limbBase ^ c := Nat.pow_pos limbBase_pos
      rw [hcut] at hkept ⊢
      refine ⟨hkept, ?_, ?_, fun _ => rfl⟩
      · rw [units_cut hs.down (by omega) hc, hyu, hn, Nat.pow_add, ← Nat.mul_assoc, Nat.div_div_eq_div_mul,
          Nat.mul_comm (2 ^ (t + sh)), ← Nat.div_div_eq_div_mul, Nat.mul_div_cancel _ hBc]
      · rintro ⟨k, hk⟩
        simp only at hk
        have hyk : y.units = k * limbBase ^ c := by
          apply Nat.eq_of_mul_eq_mul_right hq
          rw [hy, hn, Nat.pow_add limbBase, ← Nat.mul_assoc, hk]
          ring
        rw [hyk] at hyB
        exact absurd (Nat.dvd_mul_left_of_dvd (dvd_pow_self _ (by omega)) _) hyB
    · rw [if_neg hz] at hcut
      rw [hcut] at hkept ⊢
      exact ⟨hkept, hyu, fun _ => hyB, fun hn => absurd ⟨y.units, by rw [← hy, Nat.mul_comm]⟩ hn⟩
  · have hz := h.inexact hdvd
    obtain ⟨hz', hu⟩ := hs.inexact hneed hz
    refine ⟨hkept, ?_, ?_, fun _ => hz'⟩
    · rw [hu, h.units, hz', hz, Nat.div_div_eq_div_mul, Nat.pow_add]
    · intro hd
      rw [hz', ← hz] at hd
      exact absurd (Nat.dvd_trans (Nat.pow_dvd_pow 2 (Nat.le_add_right t sh)) hd) hdvd

/-! ## How many limbs there are -/

/-- A decimal fraction with `u` bits behind the point has as many decimals, so that nine bits are a limb. -/
structure Bits (u : Int) (x : Big) : Prop where
  twos : 2 ^ (9 * (x.z - 1) - u).toNat ∣ x.units
  few : x.z ≤ 1 ∨ 9 * (x.z - 2) < u

/-- A number with nine factors of two and of five has a last limb of zero. -/
theorem limbBase_dvd {v k : Nat} (h₂ : 2 ^ k ∣ v) (hk : 9 ≤ k) (h₅ : 5 ^ 9 ∣ v) : limbBase ∣ v := by
  have hcop : Nat.Coprime (2 ^ 9) (5 ^ 9) := by decide
  exact hcop.mul_dvd_of_dvd_of_dvd (Nat.dvd_trans (Nat.pow_dvd_pow 2 hk) h₂) h₅

theorem Shifted.bits {sh : Nat} {x y : Big} (hs : Shifted sh x y) {u : Int} (h : Bits u x) : Bits (u + sh) y := by
  have hq := Nat.two_pow_pos sh
  have cancel {k v : Nat} (hv : 2 ^ k ∣ 2 ^ sh * v) : 2 ^ (k - sh) ∣ v := by
    by_cases hk : k ≤ sh
    · rw [Nat.sub_eq_zero_of_le hk, Nat.pow_zero]
      exact Nat.one_dvd v
    · obtain ⟨j, rfl⟩ : ∃ j, k = sh + j := ⟨k - sh, by omega⟩
      rw [Nat.pow_add] at hv
      rw [Nat.add_sub_cancel_left]
      exact Nat.dvd_of_mul_dvd_mul_left hq hv
  have htwos := h.twos
  have hfew := h.few
  rcases hs.units with ⟨hz, hu⟩ | ⟨hz, hu, hlast⟩
  · rw [← hu] at htwos
    refine ⟨Nat.dvd_trans (Nat.pow_dvd_pow 2 ?_) (cancel htwos), ?_⟩ <;> rw [hz] <;> omega
  · have hmul : 2 ^ ((9 * (x.z - 1) - u).toNat + 9) ∣ 2 ^ sh * y.units := by
      rw [hu, Nat.pow_add]
      exact Nat.mul_dvd_mul htwos (pow_dvd_limbBase (Nat.le_refl 9))
    have hy := cancel hmul
    refine ⟨Nat.dvd_trans (Nat.pow_dvd_pow 2 ?_) hy, ?_⟩
    · rw [hz]
      omega
    · right
      by_contra hn
      have h₅ : 5 ^ 9 ∣ y.units := by
        have hcop : Nat.Coprime (5 ^ 9) (2 ^ sh) := Nat.Coprime.pow 9 sh (by decide)
        apply hcop.dvd_of_dvd_mul_left
        rw [hu]
        exact Nat.dvd_mul_left_of_dvd (by decide) _
      exact hs.down.not_dvd hlast (limbBase_dvd hy (by omega) h₅)

theorem bits_step {f : Bool} {sh : Nat} {need u : Int} {x : Big} (hneed : 1 ≤ need) (hsh : sh ≤ 9)
    (hk : Kept f need x) (h : Bits u x) : Bits (u + sh) ((shiftDown sh x).cut f need) := by
  have hs := shiftDown_shifted hsh hk.down
  have hpos := (kept_step hneed hsh hk).down.pos
  have hy := hs.bits h
  generalize shiftDown sh x = y at hs hpos hy
  have hfew := hy.few
  simp only [Big.cut] at hpos ⊢
  generalize (if f = true then 0 else y.a) = b at hpos ⊢
  by_cases hz : y.z - b > need
  · simp only [if_pos hz] at hpos ⊢
    have hexp : (9 * (b + need - 1) - (u + sh)).toNat = 0 := by omega
    refine ⟨?_, by simp only; omega⟩
    rw [hexp, Nat.pow_zero]
    exact Nat.one_dvd _
  · rwa [if_neg hz]

/-- The loop after `k` rounds. -/
theorem shrink_kept {f : Bool} {need : Int} (hneed : 1 ≤ need) : ∀ (k e2 : Nat) {u : Int} {x : Big}, Kept f need x →
    Bits u x → Kept f need (shrink f need k e2 x) ∧ Bits (u + e2) (shrink f need k e2 x)
  | 0, e2, u, x, h, hb => ⟨h, Nat.dvd_trans (Nat.pow_dvd_pow 2 (by simp only [shrink]; omega)) hb.twos, by
      have hfew := hb.few
      simp only [shrink]
      omega⟩
  | k + 1, e2, u, x, h, hb => by
    rw [shrink]
    split
    · have hsh : min 9 e2 ≤ 9 := Nat.min_le_left 9 e2
      have hrec := shrink_kept hneed k (e2 - min 9 e2) (kept_step hneed hsh h) (bits_step hneed hsh h hb)
      have hu : u + (min 9 e2 : Nat) + (e2 - min 9 e2 : Nat) = u + e2 := by omega
      rwa [hu] at hrec
    · rename_i h0
      obtain rfl : e2 = 0 := by omega
      rw [Nat.cast_zero, Int.add_zero]
      exact ⟨h, hb⟩

theorem shrink_floor {n : Nat} {need : Int} (hneed : 1 ≤ need) : ∀ (k e2 : Nat) {t : Nat} {x : Big}, Floor n t need x →
    Floor n (t + min e2 (9 * k)) need (shrink true need k e2 x)
  | 0, e2, t, x, h => by
    rw [Nat.mul_zero, Nat.min_zero]
    exact h
  | k + 1, e2, t, x, h => by
    rw [shrink]
    split
    · have hstep := shrink_floor hneed k (e2 - min 9 e2) (floor_step hneed (Nat.min_le_left 9 e2) h)
      have ht : t + min e2 (9 * (k + 1)) = t + min 9 e2 + min (e2 - min 9 e2) (9 * k) := by omega
      rwa [ht]
    · rename_i h0
      obtain rfl : e2 = 0 := by omega
      rw [Nat.zero_min]
      exact h

/-! ## The number before rounding -/

/-- The array after the expansion. -/
def expanded (junk : Cells) (y : Finite) : Big := ⟨(expand junk 0 5 y.m).1, 0, (expand junk 0 5 y.m).2⟩

section

variable (junk : Cells) {y : Finite}

theorem expanded_spec : Expanded junk 0 y.m ((expanded junk y).big, (expanded junk y).z) ∧ (expanded junk y).z ≤ 5 := by
  have hm : y.m < limbBase * 2 ^ 35 := by
    have hB : 2 ^ 64 ≤ limbBase * 2 ^ 35 := by norm_num [limbBase]
    rcases y.norm with ⟨h, -⟩ | ⟨-, h⟩
    · rw [h]
      exact Nat.mul_pos limbBase_pos (Nat.two_pow_pos 35)
    · exact Nat.lt_of_lt_of_le h hB
  exact expand_spec junk (Nat.one_dvd _) hm

theorem expanded_value : (expanded junk y).units * 2 ^ 35 = y.m * limbBase ^ ((expanded junk y).z - 1).toNat := by
  obtain ⟨h, -⟩ := expanded_spec junk (y := y)
  have hval := h.value
  have hz : span 0 (expanded junk y).z = (expanded junk y).z.toNat := by
    unfold span
    omega
  have hz' : ((expanded junk y).z - 1).toNat = (expanded junk y).z.toNat - 1 := by omega
  rwa [hz, ← hz'] at hval

variable (hm : y.m ≠ 0)
include hm

theorem significand_ge : 2 ^ 63 ≤ y.m := by
  rcases y.norm with ⟨h, -⟩ | ⟨h, -⟩
  · exact absurd h hm
  · exact h

theorem expanded_down : Down (expanded junk y) := by
  obtain ⟨h, -⟩ := expanded_spec junk (y := y)
  have hlt := h.lt
  simp only at hlt
  refine ⟨Int.le_refl 0, by simp only [expanded] at hlt ⊢; omega, by omega, h.cells, ?_, ?_⟩
  · intro i h₁ h₂
    simp only [expanded] at h₂
    omega
  · have hfirst := h.first
    have hge := significand_ge hm
    simp only [expanded] at hfirst ⊢
    omega

theorem expanded_kept {f : Bool} {need : Int} (hneed : 1 ≤ need) : Kept f need (expanded junk y) := by
  have hd := expanded_down junk hm
  have hpos := hd.pos
  refine ⟨hd, ?_⟩
  split
  · exact ⟨by simp only [expanded]; omega, .inr rfl⟩
  · simp only [expanded] at hpos ⊢
    omega

theorem expanded_last : ¬limbBase ∣ (expanded junk y).units :=
  (expanded_down junk hm).not_dvd ((expanded_spec junk).1.last hm)

theorem expanded_floor {need : Int} (hneed : 1 ≤ need) : Floor y.m 35 need (expanded junk y) := by
  have hval := expanded_value junk (y := y)
  refine ⟨expanded_kept junk hm hneed, ?_, fun _ => expanded_last junk hm,
    fun hn => absurd ⟨_, by rw [← hval, Nat.mul_comm]⟩ hn⟩
  rw [← hval, Nat.mul_div_cancel _ (by decide)]

theorem expanded_bits {b : Nat} (hb : 2 ^ b ∣ y.m) : Bits (35 - b) (expanded junk y) := by
  have hval := expanded_value junk (y := y)
  have hpos := (expanded_down junk hm).pos
  have hlast := expanded_last junk hm
  have htwos : 2 ^ (9 * ((expanded junk y).z - 1) - (35 - b)).toNat ∣ (expanded junk y).units := by
    apply Nat.dvd_of_mul_dvd_mul_right (k := 2 ^ 35) (by decide)
    rw [hval, ← Nat.pow_add]
    have hB : 2 ^ (b + 9 * ((expanded junk y).z - 1).toNat) ∣ y.m * limbBase ^ ((expanded junk y).z - 1).toNat := by
      rw [Nat.pow_add, Nat.pow_mul]
      exact Nat.mul_dvd_mul hb (pow_dvd_pow_of_dvd (pow_dvd_limbBase (Nat.le_refl 9)) _)
    by_cases h : 35 ≤ b + 9 * ((expanded junk y).z - 1).toNat
    · exact Nat.dvd_trans (Nat.pow_dvd_pow 2 (by omega)) hB
    · have hexp : (9 * ((expanded junk y).z - 1) - (35 - b)).toNat = 0 := by omega
      rw [hexp, Nat.zero_add, ← hval]
      exact Nat.dvd_mul_left _ _
  refine ⟨htwos, ?_⟩
  by_contra hn
  rw [not_or] at hn
  apply hlast
  apply limbBase_dvd htwos (by omega)
  have hcop : Nat.Coprime (5 ^ 9) (2 ^ 35) := by decide
  apply hcop.dvd_of_dvd_mul_right
  rw [hval]
  obtain ⟨k, hk⟩ : ∃ k, ((expanded junk y).z - 1).toNat = k + 1 := ⟨((expanded junk y).z - 2).toNat, by omega⟩
  rw [hk, Nat.pow_succ]
  exact Nat.dvd_mul_left_of_dvd (Nat.dvd_mul_left_of_dvd (by decide) _) _

theorem expanded_whole : Whole (expanded junk y).z (expanded junk y).units (expanded junk y) := by
  obtain ⟨h, -⟩ := expanded_spec junk (y := y)
  have hd := expanded_down junk hm
  have hlt := h.lt
  simp only at hlt
  exact ⟨Int.le_refl 0, hlt, Int.le_refl _, h.cells, fun i h₁ h₂ => by omega, hd.first, h.last hm, by
    simp only [Big.units, span, expanded, Int.sub_zero]⟩

end

/-- The array when the loops are done, and where the digits before the radix are zero. -/
structure Formed (f : Bool) (x : Big) : Prop where
  le : x.a ≤ x.z
  lt : f = false ∨ x.a ≤ 0 → x.a < x.z
  cells : ∀ i, min x.a 0 ≤ i → i < max x.z 1 → x.big i < limbBase
  below : ∀ i, 0 ≤ i → i < x.a → x.big i = 0
  above : ∀ i, x.z ≤ i → i ≤ 0 → x.big i = 0
  first : x.big x.a ≠ 0 ∨ x.a = 0 ∧ x.z = 1
  low : -566 < x.a
  high : x.z ≤ 1829

theorem Kept.formed {f : Bool} {need : Int} {x : Big} (h : Kept f need x) (hz : x.z ≤ 1829) : Formed f x := by
  have hd := h.down
  have hpos := hd.pos
  have hstart := hd.start
  have hroom := h.room
  refine ⟨hd.le, ?_, ?_, hd.zero, fun i h₁ h₂ => by omega, .inl hd.first, by omega, hz⟩
  · rintro (rfl | ha)
    · simpa using hroom
    · omega
  · intro i h₁ h₂
    exact hd.cells i (by omega) (by omega)

theorem Whole.formed {f : Bool} {top : Int} {v : Nat} {x : Big} (h : Whole top v x) (ht : 1 ≤ top) (ht' : top ≤ 5)
    (ha : -566 < x.a) : Formed f x := by
  have hle := h.le
  have hlt := h.lt
  have hstart := h.start
  refine ⟨Int.le_of_lt hlt, fun _ => hlt, ?_, ?_, fun i h₁ h₂ => h.zero i h₁ (by omega), .inl h.first, ha, by omega⟩
  · intro i h₁ h₂
    exact h.cells i (by omega) (by omega)
  · intro i h₁ h₂
    omega

theorem needFor_pos {p : Int} (hp : 0 ≤ p) : 1 ≤ needFor p := by
  unfold needFor
  omega

section

variable (junk : Cells) {y : Finite} {f : Bool} {p : Int}

theorem decimal_zero (hm : y.m = 0) : decimal junk y f p = ⟨update junk 0 0, 0, 1⟩ := by
  have he : y.e = 0 := by
    rcases y.norm with ⟨-, h⟩ | ⟨h, -⟩
    · exact h
    · omega
  simp [decimal, hm, he, expand, grow]

theorem decimal_neg (hm : y.m ≠ 0) (he : y.e < 28) :
    decimal junk y f p = shrink f (needFor p) (28 - y.e).toNat (28 - y.e).toNat (expanded junk y) := by
  have hneg : -(y.e - 28) = 28 - y.e := by omega
  simp only [decimal, expanded, if_pos hm, if_pos (show y.e - 28 < 0 by omega), hneg]

theorem decimal_nonneg (hm : y.m ≠ 0) (he : 28 ≤ y.e) :
    decimal junk y f p = grow (y.e - 28).toNat (y.e - 28).toNat (expanded junk y) := by
  simp only [decimal, expanded, if_pos hm, if_neg (show ¬y.e - 28 < 0 by omega)]

/-- **The limbs of any number**, in the array: 1770 cells before `r` where `e2` is positive, 1835 cells in all. -/
theorem decimal_formed (hp : 0 ≤ p) : Formed f (decimal junk y f p) := by
  by_cases hm : y.m = 0
  · rw [decimal_zero junk hm]
    refine ⟨Int.zero_le_ofNat 1, fun _ => Int.one_pos, ?_, ?_, ?_, .inr ⟨rfl, rfl⟩, by simp only; omega,
      by simp only; omega⟩
    · intro i h₁ h₂
      simp only at h₁ h₂ ⊢
      obtain rfl : i = 0 := by omega
      rw [update_self]
      exact limbBase_pos
    · intro i h₁ h₂
      simp only at h₂
      omega
    · intro i h₁ h₂
      simp only at h₁
      omega
  · by_cases he : y.e < 28
    · rw [decimal_neg junk hm he]
      have hb := expanded_bits junk hm y.subnormal
      obtain ⟨hk, hbits⟩ := shrink_kept (f := f) (needFor_pos hp) (28 - y.e).toNat (28 - y.e).toNat
        (expanded_kept junk hm (needFor_pos hp)) hb
      have hfew := hbits.few
      have hlower := y.lower
      exact hk.formed (by omega)
    · rw [decimal_nonneg junk hm (by omega)]
      obtain ⟨hw, ha⟩ := grow_whole (y.e - 28).toNat (y.e - 28).toNat (expanded_whole junk hm)
      have hpos := (expanded_down junk hm).pos
      have hupper := y.upper
      have hz := (expanded_spec junk (y := y)).2
      have ha0 : (expanded junk y).a = 0 := rfl
      exact hw.formed hpos hz (by omega)

end

end Synthol.Stdio
