import Mathlib.Data.List.Lex
import Mathlib.Data.Nat.Digits.Lemmas
import Mathlib.Data.Nat.Log
import Mathlib.Tactic.Linarith
import Mathlib.Tactic.Ring

/-!
# Numerals of a fixed width

A number below `b ^ w` is written with `w` digits in base `b`, the most significant first.

- `value_digits`: reading the digits gives back the number;
- `lt_iff_value_lt`: numerals of one width compare as their values;
- `value_numeral`: the same without leading zeros (`numeral`);
- `map_lt_map_iff`: an alphabet that keeps the order of the digits keeps that of the numerals.
-/

namespace Synthol.Numeral

/-- The `w` low digits of `x`, the most significant first. -/
def digits (b : Nat) : Nat → Nat → List Nat
  | 0, _ => []
  | w + 1, x => digits b w (x / b) ++ [x % b]

/-- The number that a list of digits stands for. -/
def value (b : Nat) (l : List Nat) : Nat := l.foldl (fun n d => n * b + d) 0

@[simp] theorem value_nil (b : Nat) : value b [] = 0 := rfl

theorem value_concat (b : Nat) (l : List Nat) (d : Nat) : value b (l ++ [d]) = value b l * b + d := by
  simp [value]

theorem foldl_value (b a : Nat) (l : List Nat) : l.foldl (fun n d => n * b + d) a = a * b ^ l.length + value b l := by
  induction l generalizing a with
  | nil => simp
  | cons d l ih =>
    have hv : value b (d :: l) = (0 * b + d) * b ^ l.length + value b l := ih (0 * b + d)
    rw [List.foldl_cons, ih, hv, List.length_cons, Nat.pow_succ]
    ring

theorem value_cons (b d : Nat) (l : List Nat) : value b (d :: l) = d * b ^ l.length + value b l := by
  rw [value, List.foldl_cons, foldl_value, Nat.zero_mul, Nat.zero_add]

@[simp] theorem length_digits (b w x : Nat) : (digits b w x).length = w := by
  induction w generalizing x with
  | zero => rfl
  | succ w ih => simp [digits, ih]

theorem lt_of_mem_digits {b w x d : Nat} (hb : 0 < b) (h : d ∈ digits b w x) : d < b := by
  induction w generalizing x with
  | zero => cases h
  | succ w ih =>
    rcases List.mem_append.mp h with h | h
    · exact ih h
    · rw [List.mem_singleton.mp h]
      exact Nat.mod_lt x hb

/-- Reading a numeral. -/
theorem value_digits {b w x : Nat} (h : x < b ^ w) : value b (digits b w x) = x := by
  induction w generalizing x with
  | zero =>
    rw [Nat.pow_zero] at h
    simp [digits, Nat.lt_one_iff.mp h]
  | succ w ih =>
    rw [Nat.pow_succ] at h
    rw [digits, value_concat, ih (Nat.div_lt_of_lt_mul (by rwa [Nat.mul_comm] at h)), Nat.mul_comm, Nat.div_add_mod]

/-- The digits before the last `n`, then those. -/
theorem digits_add (b m x : Nat) : ∀ n : Nat, digits b (m + n) x = digits b m (x / b ^ n) ++ digits b n x
  | 0 => by simp [digits]
  | n + 1 => by
    have h := digits_add b m (x / b) n
    rw [Nat.div_div_eq_div_mul, ← Nat.pow_succ'] at h
    rw [← Nat.add_assoc, digits, h, digits, List.append_assoc]

theorem digits_mod (b x : Nat) : ∀ n : Nat, digits b n (x % b ^ n) = digits b n x
  | 0 => rfl
  | n + 1 => by
    have hmod : x % b ^ (n + 1) % b = x % b := Nat.mod_mod_of_dvd x (dvd_pow_self b (Nat.succ_ne_zero n))
    have hdiv : x % b ^ (n + 1) / b = x / b % b ^ n := by
      rw [Nat.pow_succ', Nat.mod_mul_right_div_self]
    rw [digits, digits, hmod, hdiv, digits_mod b (x / b) n]

/-- The digits of a number and of another one behind it. -/
theorem digits_append {b : Nat} (m x : Nat) {n y : Nat} (h : y < b ^ n) :
    digits b (m + n) (x * b ^ n + y) = digits b m x ++ digits b n y := by
  have hpos : 0 < b ^ n := by omega
  have hdiv : (x * b ^ n + y) / b ^ n = x := by
    rw [Nat.mul_comm, Nat.mul_add_div hpos, Nat.div_eq_of_lt h, Nat.add_zero]
  have hmod : (x * b ^ n + y) % b ^ n = y := by
    rw [Nat.mul_comm, Nat.mul_add_mod, Nat.mod_eq_of_lt h]
  rw [digits_add, hdiv, ← digits_mod b (x * b ^ n + y), hmod]

theorem take_digits (b m n x : Nat) : (digits b (m + n) x).take m = digits b m (x / b ^ n) := by
  rw [digits_add, List.take_append_of_le_length (by rw [length_digits]), List.take_of_length_le (by rw [length_digits])]

theorem digits_zero (b : Nat) : ∀ w : Nat, digits b w 0 = List.replicate w 0
  | 0 => rfl
  | w + 1 => by rw [digits, Nat.zero_div, Nat.zero_mod, digits_zero b w, List.replicate_succ']

/-! ## No leading zeros -/

/-- The digits of `x` down from the first that is not zero, `w` of them at most. -/
def numeral (b : Nat) : Nat → Nat → List Nat
  | 0, _ => []
  | w + 1, x => if x = 0 then [] else numeral b w (x / b) ++ [x % b]

theorem numeral_zero (b w : Nat) : numeral b w 0 = [] := by
  cases w <;> rfl

/-- Reading a numeral without leading zeros. -/
theorem value_numeral {b w x : Nat} (h : x < b ^ w) : value b (numeral b w x) = x := by
  induction w generalizing x with
  | zero =>
    rw [Nat.pow_zero] at h
    simp [numeral, Nat.lt_one_iff.mp h]
  | succ w ih =>
    rw [Nat.pow_succ] at h
    rw [numeral]
    split
    · rename_i h0
      rw [value_nil, h0]
    · rw [value_concat, ih (Nat.div_lt_of_lt_mul (by rwa [Nat.mul_comm] at h)), Nat.mul_comm, Nat.div_add_mod]

theorem numeral_eq_nil {b w x : Nat} (h : x < b ^ w) : numeral b w x = [] ↔ x = 0 := by
  constructor
  · intro hn
    rw [← value_numeral h, hn, value_nil]
  · rintro rfl
    exact numeral_zero b w

/-- The first digit is not zero. -/
theorem head_numeral {b w x d : Nat} (h : x < b ^ w) (hd : (numeral b w x).head? = some d) : d ≠ 0 := by
  induction w generalizing x with
  | zero => cases hd
  | succ w ih =>
    rw [Nat.pow_succ] at h
    have hdiv : x / b < b ^ w := Nat.div_lt_of_lt_mul (by rwa [Nat.mul_comm] at h)
    rw [numeral] at hd
    split at hd
    · cases hd
    · rename_i h0
      cases hn : numeral b w (x / b) with
      | nil =>
        -- the only digit is the number itself
        have hx := (numeral_eq_nil hdiv).mp hn
        have hmod := Nat.div_add_mod x b
        rw [hn, List.nil_append, List.head?_singleton, Option.some.injEq] at hd
        rw [hx, Nat.mul_zero, Nat.zero_add, hd] at hmod
        omega
      | cons e l =>
        rw [hn, List.cons_append, List.head?_cons] at hd
        exact ih hdiv (by rw [hn, List.head?_cons, hd])

/-- The same digits as those of the library, which has the least significant first. -/
theorem numeral_eq {b w x : Nat} (hb : 1 < b) (h : x < b ^ w) : numeral b w x = (Nat.digits b x).reverse := by
  induction w generalizing x with
  | zero =>
    rw [Nat.pow_zero] at h
    simp [numeral, Nat.lt_one_iff.mp h]
  | succ w ih =>
    rw [Nat.pow_succ] at h
    rw [numeral]
    split
    · rename_i h0
      simp [h0]
    · rename_i h0
      rw [ih (Nat.div_lt_of_lt_mul (by rwa [Nat.mul_comm] at h)), Nat.digits_def' hb (Nat.pos_of_ne_zero h0),
        List.reverse_cons]

/-- The digits of a number that is not zero and of another one behind it. -/
theorem numeral_append {b : Nat} (hb : 0 < b) (w : Nat) {x : Nat} (hx : x ≠ 0) : ∀ {n y : Nat}, y < b ^ n →
    numeral b (w + n) (x * b ^ n + y) = numeral b w x ++ digits b n y
  | 0, y, h => by
    rw [Nat.pow_zero] at h
    simp [digits, Nat.lt_one_iff.mp h]
  | n + 1, y, h => by
    have hne : x * b ^ (n + 1) + y ≠ 0 := by
      have := Nat.mul_pos (Nat.pos_of_ne_zero hx) (Nat.pow_pos hb (n := n + 1))
      omega
    have hdiv : (x * b ^ (n + 1) + y) / b = x * b ^ n + y / b := by
      rw [Nat.pow_succ, ← Nat.mul_assoc, Nat.mul_comm, Nat.mul_add_div hb]
    have hmod : (x * b ^ (n + 1) + y) % b = y % b := by
      rw [Nat.pow_succ, ← Nat.mul_assoc, Nat.mul_comm, Nat.mul_add_mod]
    rw [Nat.pow_succ, Nat.mul_comm] at h
    rw [← Nat.add_assoc, numeral, if_neg hne, hdiv, hmod, numeral_append hb w hx (Nat.div_lt_of_lt_mul h), digits,
      List.append_assoc]

theorem length_numeral_le (b : Nat) : ∀ w x : Nat, (numeral b w x).length ≤ w
  | 0, _ => Nat.le_refl 0
  | w + 1, x => by
    have ih := length_numeral_le b w (x / b)
    rw [numeral]
    split
    · exact Nat.zero_le _
    · rw [List.length_append, List.length_singleton]
      omega

theorem length_numeral {b w x : Nat} (hb : 1 < b) (h : x < b ^ w) (h0 : x ≠ 0) :
    (numeral b w x).length = Nat.log b x + 1 := by
  rw [numeral_eq hb h, List.length_reverse, Nat.length_digits b x hb h0]

/-- Zeros in front make up the width. -/
theorem digits_eq {b w x : Nat} (h : x < b ^ w) :
    digits b w x = List.replicate (w - (numeral b w x).length) 0 ++ numeral b w x := by
  induction w generalizing x with
  | zero => simp [digits, numeral]
  | succ w ih =>
    rw [Nat.pow_succ] at h
    have hdiv : x / b < b ^ w := Nat.div_lt_of_lt_mul (by rwa [Nat.mul_comm] at h)
    rw [digits, numeral, ih hdiv]
    split
    · rename_i h0
      simp [h0, numeral_zero, List.replicate_succ']
    · rw [List.length_append, List.length_singleton, Nat.add_sub_add_right, List.append_assoc]

/-! ## Order -/

theorem value_lt {b : Nat} {l : List Nat} (h : ∀ d ∈ l, d < b) : value b l < b ^ l.length := by
  induction l with
  | nil => simp
  | cons d l ih =>
    have hd := h d List.mem_cons_self
    have hl := ih fun c hc => h c (List.mem_cons_of_mem _ hc)
    have hm : (d + 1) * b ^ l.length ≤ b * b ^ l.length := Nat.mul_le_mul_right _ hd
    rw [value_cons, List.length_cons, Nat.pow_succ]
    nlinarith

/-- Numerals of one width compare as their values. -/
theorem lt_iff_value_lt {b : Nat} {l l' : List Nat} (hlen : l.length = l'.length) (h : ∀ d ∈ l, d < b)
    (h' : ∀ d ∈ l', d < b) : l < l' ↔ value b l < value b l' := by
  induction l generalizing l' with
  | nil =>
    obtain rfl := List.length_eq_zero_iff.mp hlen.symm
    simp
  | cons d l ih =>
    cases l' with
    | nil => cases hlen
    | cons d' l' =>
      have hlen' : l.length = l'.length := Nat.succ.inj hlen
      have hl := value_lt fun c hc => h c (List.mem_cons_of_mem _ hc)
      have hl' := value_lt fun c hc => h' c (List.mem_cons_of_mem _ hc)
      rw [List.cons_lt_cons_iff, value_cons, value_cons, hlen',
        ih hlen' (fun c hc => h c (List.mem_cons_of_mem _ hc)) (fun c hc => h' c (List.mem_cons_of_mem _ hc))]
      rw [hlen'] at hl
      rcases Nat.lt_trichotomy d d' with hd | rfl | hd
      · have hm : (d + 1) * b ^ l'.length ≤ d' * b ^ l'.length := Nat.mul_le_mul_right _ hd
        constructor
        · intro _
          nlinarith
        · intro _
          exact .inl hd
      · simp
      · have hm : (d' + 1) * b ^ l'.length ≤ d * b ^ l'.length := Nat.mul_le_mul_right _ hd
        constructor
        · rintro (hd' | ⟨rfl, -⟩)
          · exact absurd hd (Nat.lt_asymm hd')
          · exact absurd hd (Nat.lt_irrefl _)
        · intro hv
          nlinarith

/-- Writing digits in another alphabet keeps the order. -/
theorem map_lt_map_iff {α β : Type} [LT α] [LT β] {f : α → β} {p : α → Prop}
    (hf : ∀ a b, p a → p b → (f a < f b ↔ a < b)) (hinj : ∀ a b, p a → p b → f a = f b → a = b) {l l' : List α}
    (h : ∀ a ∈ l, p a) (h' : ∀ a ∈ l', p a) : l.map f < l'.map f ↔ l < l' := by
  induction l generalizing l' with
  | nil => cases l' <;> simp
  | cons a l ih =>
    cases l' with
    | nil => simp
    | cons b l' =>
      have ha := h a List.mem_cons_self
      have hb := h' b List.mem_cons_self
      rw [List.map_cons, List.map_cons, List.cons_lt_cons_iff, List.cons_lt_cons_iff, hf a b ha hb,
        ih (fun c hc => h c (List.mem_cons_of_mem _ hc)) fun c hc => h' c (List.mem_cons_of_mem _ hc)]
      constructor
      · rintro (hlt | ⟨he, hlt⟩)
        · exact .inl hlt
        · exact .inr ⟨hinj a b ha hb he, hlt⟩
      · rintro (hlt | ⟨rfl, hlt⟩)
        · exact .inl hlt
        · exact .inr ⟨rfl, hlt⟩

end Synthol.Numeral
