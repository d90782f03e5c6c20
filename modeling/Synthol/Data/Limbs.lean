import Mathlib.Logic.Function.Basic
import Mathlib.Tactic.Linarith
import Mathlib.Tactic.Ring

/-!
# Limbs

A number is kept in cells, one digit in base `B` in each, the most significant first; a position may be negative. The
loops below go over a run of cells with a carry.

- `mulLoop` multiplies by `q` from the last cell up (`mulLoop_value`), `divLoop` divides by a divisor of the base from
  the first cell down (`divLoop_value`);
- `carryLoop` takes one from a cell that has reached the base to the cell before it, and opens a new first cell where it
  runs off the end (`carryLoop_carried`);
- `trim` drops zeros at the end (`trim_zero`), all of them (`trim_last`).
-/

namespace Synthol.Limbs

open Function

/-- Digits by their position. -/
abbrev Cells := Int → Nat

variable {B : Nat} {c c' : Cells} {a z : Int}

/-! ## Value -/

/-- The number in the `k` cells from `a` on. -/
def value (B : Nat) (c : Cells) (a : Int) : Nat → Nat
  | 0 => 0
  | k + 1 => value B c a k * B + c (a + k)

@[simp] theorem value_zero : value B c a 0 = 0 := rfl

theorem value_succ (k : Nat) : value B c a (k + 1) = value B c a k * B + c (a + k) := rfl

@[simp] theorem value_one : value B c a 1 = c a := by
  simp [value]

theorem value_congr : ∀ {k : Nat}, (∀ i, a ≤ i → i < a + k → c' i = c i) → value B c' a k = value B c a k
  | 0, _ => rfl
  | k + 1, h => by
    rw [value, value, h (a + k) (by omega) (by omega), value_congr fun i h₁ h₂ => h i h₁ (by omega)]

/-- The cells from `a` on, then those behind. -/
theorem value_add (k : Nat) : ∀ l : Nat, value B c a (k + l) = value B c a k * B ^ l + value B c (a + k) l
  | 0 => by simp
  | l + 1 => by
    have hpos : a + ((k + l : Nat) : Int) = a + k + l := by omega
    rw [← Nat.add_assoc, value, value_add k l, value, hpos, Nat.pow_succ]
    ring

/-- The first cell, then the others. -/
theorem value_cons (k : Nat) : value B c a (k + 1) = c a * B ^ k + value B c (a + 1) k := by
  rw [Nat.add_comm k 1, value_add, value_one]
  rfl

theorem value_eq_zero : ∀ {k : Nat}, (∀ i, a ≤ i → i < a + k → c i = 0) → value B c a k = 0
  | 0, _ => rfl
  | k + 1, h => by
    rw [value, h (a + k) (by omega) (by omega), value_eq_zero fun i h₁ h₂ => h i h₁ (by omega), Nat.zero_mul]

theorem eq_zero_of_value (hB : 0 < B) : ∀ {k : Nat}, value B c a k = 0 → ∀ i, a ≤ i → i < a + k → c i = 0
  | 0, _, i, h₁, h₂ => by omega
  | k + 1, h, i, h₁, h₂ => by
    rw [value, Nat.add_eq_zero_iff] at h
    by_cases hi : i = a + k
    · rw [hi, h.2]
    · exact eq_zero_of_value hB ((Nat.mul_eq_zero.mp h.1).resolve_right (Nat.ne_of_gt hB)) i h₁ (by omega)

theorem value_lt : ∀ {k : Nat}, (∀ i, a ≤ i → i < a + k → c i < B) → value B c a k < B ^ k
  | 0, _ => Nat.one_pos
  | k + 1, h => by
    have hk := value_lt (k := k) fun i h₁ h₂ => h i h₁ (by omega)
    have hd := h (a + k) (by omega) (by omega)
    have hm : (value B c a k + 1) * B ≤ B ^ k * B := Nat.mul_le_mul_right B hk
    rw [value, Nat.pow_succ]
    linarith

/-- The first cell is the quotient by what the others can hold. -/
theorem first_eq {k : Nat} (h : ∀ i, a + 1 ≤ i → i < a + 1 + k → c i < B) (hB : 0 < B) :
    c a = value B c a (k + 1) / B ^ k := by
  rw [value_cons, Nat.mul_comm, Nat.mul_add_div (Nat.pow_pos hB), Nat.div_eq_of_lt (value_lt h), Nat.add_zero]

/-- Cells of zeros in front do not count. -/
theorem value_skip {l : Nat} (h : ∀ i, a ≤ i → i < a + l → c i = 0) (k : Nat) :
    value B c a (l + k) = value B c (a + l) k := by
  rw [value_add, value_eq_zero h, Nat.zero_mul, Nat.zero_add]

/-! ## Multiplication -/

/-- From the cell before `z` up, `k` cells: `x = c[d] * q + carry; c[d] = x % B; carry = x / B`. -/
def mulLoop (B q : Nat) (c : Cells) (z : Int) : Nat → Cells × Nat
  | 0 => (c, 0)
  | k + 1 =>
    let r := mulLoop B q c z k
    let d := z - 1 - k
    let x := r.1 d * q + r.2
    (update r.1 d (x % B), x / B)

section

variable {q : Nat}

theorem mulLoop_outside : ∀ {k : Nat} {i : Int}, i < z - k ∨ z ≤ i → (mulLoop B q c z k).1 i = c i
  | 0, _, _ => rfl
  | k + 1, i, h => by
    have hne : i ≠ z - 1 - k := by omega
    simp only [mulLoop]
    rw [update_of_ne hne, mulLoop_outside (by omega)]

theorem mulLoop_lt (hB : 0 < B) : ∀ {k : Nat} {i : Int}, z - k ≤ i → i < z → (mulLoop B q c z k).1 i < B
  | 0, _, h₁, h₂ => by omega
  | k + 1, i, h₁, h₂ => by
    simp only [mulLoop]
    by_cases hi : i = z - 1 - k
    · rw [hi, update_self]
      exact Nat.mod_lt _ hB
    · rw [update_of_ne hi]
      exact mulLoop_lt hB (by omega) h₂

/-- What the cells and the carry amount to. -/
theorem mulLoop_value (c : Cells) (z : Int) : ∀ k : Nat,
    (mulLoop B q c z k).2 * B ^ k + value B (mulLoop B q c z k).1 (z - k) k = q * value B c (z - k) k
  | 0 => by simp [mulLoop]
  | k + 1 => by
    have ih := mulLoop_value c z k
    have hd : z - ((k + 1 : Nat) : Int) = z - 1 - k := by omega
    have hd' : z - 1 - k + 1 = z - k := by omega
    have hout : (mulLoop B q c z k).1 (z - 1 - k) = c (z - 1 - k) := mulLoop_outside (.inl (by omega))
    have hrest (n : Nat) : value B (update (mulLoop B q c z k).1 (z - 1 - k) n) (z - k) k =
        value B (mulLoop B q c z k).1 (z - k) k :=
      value_congr fun i h₁ _ => update_of_ne (by omega) _ _
    have hdm := Nat.div_add_mod (c (z - 1 - k) * q + (mulLoop B q c z k).2) B
    simp only [mulLoop]
    rw [hd, value_cons, value_cons, hd', update_self, hout, hrest, Nat.pow_succ]
    calc (c (z - 1 - k) * q + (mulLoop B q c z k).2) / B * (B ^ k * B) +
          ((c (z - 1 - k) * q + (mulLoop B q c z k).2) % B * B ^ k + value B (mulLoop B q c z k).1 (z - k) k)
        = (B * ((c (z - 1 - k) * q + (mulLoop B q c z k).2) / B) +
            (c (z - 1 - k) * q + (mulLoop B q c z k).2) % B) * B ^ k +
            value B (mulLoop B q c z k).1 (z - k) k := by ring
      _ = c (z - 1 - k) * q * B ^ k +
            ((mulLoop B q c z k).2 * B ^ k + value B (mulLoop B q c z k).1 (z - k) k) := by rw [hdm]; ring
      _ = q * (c (z - 1 - k) * B ^ k + value B c (z - k) k) := by rw [ih]; ring

/-- The carry stays below the factor. -/
theorem mulLoop_carry_lt (hB : 0 < B) (hq : 0 < q) : ∀ {k : Nat}, (∀ i, z - k ≤ i → i < z → c i < B) →
    (mulLoop B q c z k).2 < q
  | 0, _ => hq
  | k + 1, h => by
    have hc := mulLoop_carry_lt hB hq (k := k) fun i h₁ h₂ => h i (by omega) h₂
    have hd := h (z - 1 - k) (by omega) (by omega)
    have hm : (c (z - 1 - k) + 1) * q ≤ B * q := Nat.mul_le_mul_right q hd
    simp only [mulLoop]
    rw [mulLoop_outside (.inl (by omega))]
    apply Nat.div_lt_of_lt_mul
    linarith

/-- A first cell that is not zero stays so, unless it is carried out. -/
theorem mulLoop_first (hq : 0 < q) {k : Nat} (ha : c (z - 1 - k) ≠ 0) (h : (mulLoop B q c z (k + 1)).2 = 0) :
    (mulLoop B q c z (k + 1)).1 (z - 1 - k) ≠ 0 := by
  simp only [mulLoop] at h ⊢
  rw [mulLoop_outside (.inl (by omega))] at h ⊢
  have hdm := Nat.div_add_mod (c (z - 1 - k) * q + (mulLoop B q c z k).2) B
  have hpos := Nat.mul_pos (Nat.pos_of_ne_zero ha) hq
  rw [h, Nat.mul_zero, Nat.zero_add] at hdm
  rw [update_self, hdm]
  omega

end

/-! ## Division -/

/-- From `a` down, `k` cells: `rm = c[d] % q; c[d] = c[d] / q + carry; carry = B / q * rm`. -/
def divLoop (B q : Nat) (c : Cells) (a : Int) : Nat → Cells × Nat
  | 0 => (c, 0)
  | k + 1 =>
    let r := divLoop B q c a k
    let d := a + k
    (update r.1 d (r.1 d / q + r.2), B / q * (r.1 d % q))

section

variable {q : Nat}

theorem divLoop_outside : ∀ {k : Nat} {i : Int}, i < a ∨ a + k ≤ i → (divLoop B q c a k).1 i = c i
  | 0, _, _ => rfl
  | k + 1, i, h => by
    have hne : i ≠ a + k := by omega
    simp only [divLoop]
    rw [update_of_ne hne, divLoop_outside (by omega)]

theorem divLoop_carry_le (c : Cells) (a : Int) (hq : 0 < q) (hqB : q ∣ B) : ∀ k : Nat,
    (divLoop B q c a k).2 + B / q ≤ B
  | 0 => by
    simp only [divLoop, Nat.zero_add]
    exact Nat.div_le_self B q
  | k + 1 => by
    have hm := Nat.mod_lt (c (a + k)) hq
    have hBq := Nat.div_mul_cancel hqB
    simp only [divLoop]
    rw [divLoop_outside (.inr (by omega))]
    calc B / q * (c (a + k) % q) + B / q = B / q * (c (a + k) % q + 1) := by ring
      _ ≤ B / q * q := Nat.mul_le_mul_left _ hm
      _ = B := hBq

/-- A cell, when the loop has passed it. -/
theorem divLoop_cell : ∀ {k j : Nat}, j < k →
    (divLoop B q c a k).1 (a + j) = c (a + j) / q + (divLoop B q c a j).2
  | 0, _, h => by omega
  | k + 1, j, h => by
    simp only [divLoop]
    rcases Nat.lt_or_eq_of_le (Nat.le_of_lt_succ h) with hj | rfl
    · rw [update_of_ne (by omega), divLoop_cell hj]
    · rw [update_self, divLoop_outside (.inr (by omega))]

theorem divLoop_lt (hq : 0 < q) (hqB : q ∣ B) {k : Nat} (h : ∀ i, a ≤ i → i < a + k → c i < B) :
    ∀ i, a ≤ i → i < a + k → (divLoop B q c a k).1 i < B := by
  intro i h₁ h₂
  obtain ⟨j, rfl⟩ : ∃ j : Nat, i = a + j := ⟨(i - a).toNat, by omega⟩
  have hcarry := divLoop_carry_le c a hq hqB j
  have hdiv : c (a + j) / q < B / q := Nat.div_lt_div_of_lt_of_dvd hqB (h _ h₁ h₂)
  rw [divLoop_cell (by omega)]
  omega

/-- What the cells and the carry amount to, with one cell more for the carry. -/
theorem divLoop_value (c : Cells) (a : Int) (hqB : q ∣ B) : ∀ k : Nat,
    q * (value B (divLoop B q c a k).1 a k * B + (divLoop B q c a k).2) = value B c a k * B
  | 0 => by simp [divLoop]
  | k + 1 => by
    have ih := divLoop_value c a hqB k
    have hout : (divLoop B q c a k).1 (a + k) = c (a + k) := divLoop_outside (.inr (by omega))
    have hrest (n : Nat) : value B (update (divLoop B q c a k).1 (a + k) n) a k =
        value B (divLoop B q c a k).1 a k :=
      value_congr fun i _ h₂ => update_of_ne (by omega) _ _
    have hdm := Nat.div_add_mod (c (a + k)) q
    have hBq : q * (B / q) = B := Nat.mul_div_cancel' hqB
    simp only [divLoop]
    rw [value_succ, value_succ, update_self, hout, hrest]
    calc q * ((value B (divLoop B q c a k).1 a k * B + (c (a + k) / q + (divLoop B q c a k).2)) * B +
          B / q * (c (a + k) % q))
        = q * (value B (divLoop B q c a k).1 a k * B + (divLoop B q c a k).2) * B +
            q * (c (a + k) / q) * B + q * (B / q) * (c (a + k) % q) := by ring
      _ = value B c a k * B * B + (q * (c (a + k) / q) + c (a + k) % q) * B := by rw [ih, hBq]; ring
      _ = (value B c a k * B + c (a + k)) * B := by rw [hdm]; ring

/-- A first cell that vanishes reappears in the cell behind it, or in the carry if it is the only one. -/
theorem divLoop_first (hqB : q ∣ B) (hB : 0 < B) (ha : c a ≠ 0) {k : Nat} (h : (divLoop B q c a (k + 1)).1 a = 0) :
    if k = 0 then (divLoop B q c a (k + 1)).2 ≠ 0 else (divLoop B q c a (k + 1)).1 (a + 1) ≠ 0 := by
  have hcell : (divLoop B q c a (k + 1)).1 a = c a / q + 0 := by
    have h0 := divLoop_cell (B := B) (q := q) (c := c) (a := a) (Nat.succ_pos k)
    rwa [Nat.cast_zero, Int.add_zero] at h0
  have hBq : 0 < B / q := Nat.div_pos (Nat.le_of_dvd hB hqB) (Nat.pos_of_dvd_of_pos hqB hB)
  have hcarry : (divLoop B q c a 1).2 ≠ 0 := by
    have hmod := Nat.mod_add_div (c a) q
    rw [h, Nat.add_zero] at hcell
    rw [← hcell, Nat.mul_zero, Nat.add_zero] at hmod
    simp only [divLoop, Nat.cast_zero, Int.add_zero, hmod]
    exact Nat.mul_ne_zero (Nat.ne_of_gt hBq) ha
  split
  · rename_i hk
    rwa [hk]
  · have h1 := divLoop_cell (B := B) (q := q) (c := c) (a := a) (j := 1) (k := k + 1) (by omega)
    rw [Nat.cast_one] at h1
    rw [h1]
    exact Nat.ne_of_gt (Nat.lt_of_lt_of_le (Nat.pos_of_ne_zero hcarry) (Nat.le_add_left _ _))

end

/-! ## A carry that runs -/

/-- `while (c[d] >= B) { c[d--] = 0; if (d < a) c[--a] = 0; c[d]++; }`, for `n` rounds at most. -/
def carryLoop (B : Nat) : Nat → Cells → Int → Int → Cells × Int
  | 0, c, a, _ => (c, a)
  | n + 1, c, a, d =>
    if B ≤ c d then
      let c := update c d 0
      let d := d - 1
      let a' := if d < a then a - 1 else a
      let c := if d < a then update c a' 0 else c
      carryLoop B n (update c d (c d + 1)) a' d
    else (c, a)

/-- The number of cells from `a` to `z`. -/
def span (a z : Int) : Nat := (z - a).toNat

/-- What a run of the carry from `d` leaves: the number in the cells up to `d`, from a first cell that may be new. -/
structure Carried (B : Nat) (c : Cells) (a d : Int) (r : Cells × Int) : Prop where
  value : value B r.1 r.2 (span r.2 (d + 1)) = value B c a (span a (d + 1))
  lt : ∀ i, r.2 ≤ i → i ≤ d → r.1 i < B
  first : r.2 = a ∨ r.2 = a - 1 ∧ r.1 r.2 ≠ 0
  outside : ∀ i, i < r.2 ∨ d < i → r.1 i = c i
  grows : r.2 = a → c a ≠ 0 → r.1 a ≠ 0

/-- Off the end, a new first cell holds the carry. -/
theorem carried_open (hB : 1 < B) {d : Int} (hcd : c d = B) :
    Carried B c d d (update (update (update c d 0) (d - 1) 0) (d - 1) 1, d - 1) := by
  have hne : d ≠ d - 1 := by omega
  have hzero : update (update (update c d 0) (d - 1) 0) (d - 1) 1 d = 0 := by
    rw [update_of_ne hne, update_of_ne hne, update_self]
  have hw : span (d - 1) (d + 1) = 2 ∧ span d (d + 1) = 1 := by
    unfold span
    omega
  constructor
  · have hpos : d - 1 + ((1 : Nat) : Int) = d := by omega
    dsimp only
    rw [hw.1, hw.2, value_one, value_succ, value_one, hpos, hzero, update_self, hcd]
    omega
  · intro i h₁ h₂
    dsimp only at h₁ ⊢
    rcases Int.lt_or_eq_of_le h₂ with hi | rfl
    · obtain rfl : i = d - 1 := by omega
      rw [update_self]
      exact hB
    · rw [hzero]
      omega
  · exact .inr ⟨rfl, by simp⟩
  · intro i hi
    dsimp only at hi ⊢
    rw [update_of_ne (by omega), update_of_ne (by omega), update_of_ne (by omega)]
  · intro h
    dsimp only at h
    omega

/-- A carry is one unit of the cells before. -/
theorem carried_step (hB : 1 < B) {d : Int} (hcd : c d = B) (had : a ≤ d - 1) {r : Cells × Int}
    (ih : Carried B (update (update c d 0) (d - 1) (c (d - 1) + 1)) a (d - 1) r) : Carried B c a d r := by
  have hr : r.2 ≤ d - 1 := by
    rcases ih.first with h | ⟨h, -⟩ <;> omega
  have hr0 : r.1 d = 0 := by
    rw [ih.outside d (.inr (by omega)), update_of_ne (by omega), update_self]
  constructor
  · have hval := ih.value
    obtain ⟨k, hk⟩ : ∃ k, span a d = k + 1 := Nat.exists_eq_succ_of_ne_zero (by unfold span; omega)
    have hw : span r.2 (d + 1) = span r.2 d + 1 ∧ span a (d + 1) = span a d + 1 := by
      unfold span
      omega
    have hpos : r.2 + (span r.2 d : Int) = d ∧ a + (span a d : Int) = d := by
      unfold span
      omega
    have hak : a + (k : Int) = d - 1 := by omega
    have hfront : Limbs.value B (update (update c d 0) (d - 1) (c (d - 1) + 1)) a k = Limbs.value B c a k := by
      apply value_congr
      intro i _ h
      rw [update_of_ne (by omega), update_of_ne (by omega)]
    rw [Int.sub_add_cancel, hk, value_succ, hak, update_self, hfront] at hval
    rw [hw.1, hw.2, value_succ, value_succ, hpos.1, hpos.2, hr0, hcd, hk, value_succ, hak, hval]
    ring
  · intro i h₁ h₂
    rcases Int.lt_or_eq_of_le h₂ with hi | rfl
    · exact ih.lt i h₁ (by omega)
    · rw [hr0]
      omega
  · exact ih.first
  · intro i hi
    rw [ih.outside i (by omega), update_of_ne (by omega), update_of_ne (by omega)]
  · intro hra hca
    apply ih.grows hra
    by_cases h : a = d - 1
    · rw [h, update_self]
      omega
    · rw [update_of_ne h, update_of_ne (by omega)]
      exact hca

/-- **The carry** changes the number by nothing. -/
theorem carryLoop_carried (hB : 1 < B) : ∀ {n : Nat} {c : Cells} {d : Int}, a ≤ d → span a (d + 1) ≤ n →
    (∀ i, a ≤ i → i < d → c i < B) → c d ≤ B → Carried B c a d (carryLoop B n c a d)
  | 0, c, d, h, hn, _, _ => by
    unfold span at hn
    omega
  | n + 1, c, d, h, hn, hlt, hd => by
    rw [carryLoop]
    split
    · rename_i hBd
      have hcd : c d = B := Nat.le_antisymm hd hBd
      by_cases hda : d - 1 < a
      · obtain rfl : d = a := by omega
        have hstop : ∀ c' : Cells, c' (d - 1) = 1 → carryLoop B n c' (d - 1) (d - 1) = (c', d - 1) := by
          intro c' hc'
          cases n with
          | zero => rfl
          | succ n => rw [carryLoop, if_neg (by omega)]
        simp only [hda, if_true, update_self, Nat.zero_add]
        rw [hstop _ (update_self _ _ _)]
        exact carried_open hB hcd
      · have hne : d - 1 ≠ d := by omega
        simp only [hda, if_false, update_of_ne hne]
        apply carried_step hB hcd (by omega)
        apply carryLoop_carried hB (by omega)
        · unfold span at hn ⊢
          omega
        · intro i h₁ h₂
          rw [update_of_ne (by omega), update_of_ne (by omega)]
          exact hlt i h₁ (by omega)
        · rw [update_self]
          exact hlt (d - 1) (by omega) (by omega)
    · rename_i hBd
      refine ⟨rfl, ?_, .inl rfl, fun _ _ => rfl, fun _ hca => hca⟩
      intro i h₁ h₂
      rcases Int.lt_or_eq_of_le h₂ with hi | rfl
      · exact hlt i h₁ hi
      · exact Nat.lt_of_not_le hBd

/-! ## Zeros at the end -/

/-- `while (z > a && !c[z-1]) z--`, for `n = z - a` rounds at most. -/
def trim (c : Cells) : Nat → Int → Int
  | 0, z => z
  | n + 1, z => if c (z - 1) = 0 then trim c n (z - 1) else z

theorem trim_le (c : Cells) : ∀ (n : Nat) (z : Int), trim c n z ≤ z
  | 0, z => Int.le_refl z
  | n + 1, z => by
    rw [trim]
    split
    · have ih := trim_le c n (z - 1)
      omega
    · exact Int.le_refl z

theorem trim_zero (c : Cells) : ∀ (n : Nat) (z i : Int), trim c n z ≤ i → i < z → c i = 0
  | 0, z, i, h₁, h₂ => by
    rw [trim] at h₁
    omega
  | n + 1, z, i, h₁, h₂ => by
    rw [trim] at h₁
    split at h₁
    · rename_i h0
      by_cases hi : i = z - 1
      · rw [hi, h0]
      · exact trim_zero c n (z - 1) i h₁ (by omega)
    · omega

/-- A first cell that is not zero stays. -/
theorem lt_trim {n : Nat} (ha : c a ≠ 0) (hn : a + n = z) (hz : a < z) : a < trim c n z := by
  by_contra hle
  exact ha (trim_zero c n z a (by omega) hz)

theorem trim_last : ∀ {n : Nat} {z : Int}, a + n = z → a < trim c n z → c (trim c n z - 1) ≠ 0
  | 0, z, h, hlt => by
    rw [trim] at hlt
    omega
  | n + 1, z, h, hlt => by
    rw [trim] at hlt ⊢
    split at hlt
    · rename_i h0
      rw [if_pos h0]
      exact trim_last (by omega) hlt
    · rename_i h0
      rwa [if_neg h0]

end Synthol.Limbs
