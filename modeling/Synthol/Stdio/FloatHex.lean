import Synthol.Stdio.FloatCount

/-!
# What %a prints

The digits of `%a` read back as the number, rounded to the precision if there is one (`fpFinite_hex`). A precision of
15 digits rounds nothing although a significand may have 16, so that it prints a digit too many for the numbers whose
last three bits are not all zero, and for no others.
-/

namespace Synthol.Stdio

open X86 Numeral

/-- A hexadecimal digit. -/
def hexDig (lower : Byte) (k : Nat) : Byte := xdigits.getD k 0 ||| lower

/-- The digits of `n / 2 ^ 63` down to the last that is not zero. -/
def tailDigits : Nat → Nat → List Nat
  | 0, _ => []
  | k + 1, n => if n = 0 then [] else n / 2 ^ 63 :: tailDigits k (16 * (n % 2 ^ 63))

theorem hexTail_eq (lower : Byte) : ∀ k n : Nat, hexTail lower k n = (tailDigits k n).map (hexDig lower)
  | 0, _ => rfl
  | k + 1, n => by
    rw [hexTail, tailDigits]
    split
    · rfl
    · rw [hexTail_eq lower k, List.map_cons]
      rfl

section

variable {k n : Nat}

/-- A digit less is left to print. -/
theorem dvd_rest {j : Nat} (h : 2 ^ 67 ∣ n * 16 ^ (j + 1)) : 2 ^ 67 ∣ 16 * (n % 2 ^ 63) * 16 ^ j := by
  have hdm := Nat.div_add_mod n (2 ^ 63)
  have hsum : n * 16 ^ (j + 1) = 2 ^ 67 * (n / 2 ^ 63 * 16 ^ j) + 16 * (n % 2 ^ 63) * 16 ^ j := by
    calc n * 16 ^ (j + 1) = (2 ^ 63 * (n / 2 ^ 63) + n % 2 ^ 63) * (16 ^ j * 16) := by rw [hdm, Nat.pow_succ]
      _ = 2 ^ 67 * (n / 2 ^ 63 * 16 ^ j) + 16 * (n % 2 ^ 63) * 16 ^ j := by ring
  rw [hsum] at h
  exact (Nat.dvd_add_right (Nat.dvd_mul_right _ _)).mp h

theorem rest_lt : 16 * (n % 2 ^ 63) < 2 ^ 67 := by
  have h := Nat.mod_lt n (show 0 < 2 ^ 63 by decide)
  omega

theorem tailDigits_lt : ∀ {k n : Nat}, n < 2 ^ 67 → ∀ d ∈ tailDigits k n, d < 16
  | 0, _, _, d, hd => by cases hd
  | k + 1, n, h, d, hd => by
    rw [tailDigits] at hd
    split at hd
    · cases hd
    · rcases List.mem_cons.mp hd with rfl | hd
      · omega
      · exact tailDigits_lt rest_lt d hd

/-- Reading the digits, when there are rounds enough. -/
theorem value_tailDigits : ∀ {k n : Nat}, n < 2 ^ 67 → 2 ^ 67 ∣ n * 16 ^ k →
    value 16 (tailDigits k n) * 2 ^ 67 = n * 16 ^ (tailDigits k n).length
  | 0, n, hn, h => by
    obtain rfl : n = 0 := Nat.eq_zero_of_dvd_of_lt (by simpa using h) hn
    rfl
  | k + 1, n, _, h => by
    rw [tailDigits]
    split
    · rename_i h0
      rw [h0]
      rfl
    · have ih := value_tailDigits rest_lt (dvd_rest h)
      have hdm := Nat.div_add_mod n (2 ^ 63)
      rw [value_cons, List.length_cons, Nat.add_mul, ih]
      generalize (tailDigits k (16 * (n % 2 ^ 63))).length = l
      calc n / 2 ^ 63 * 16 ^ l * 2 ^ 67 + 16 * (n % 2 ^ 63) * 16 ^ l
          = (2 ^ 63 * (n / 2 ^ 63) + n % 2 ^ 63) * (16 ^ l * 16) := by ring
        _ = n * 16 ^ (l + 1) := by rw [hdm, ← Nat.pow_succ]

/-- No more digits than are needed. -/
theorem length_tailDigits_le : ∀ {k n j : Nat}, n < 2 ^ 67 → 2 ^ 67 ∣ n * 16 ^ j → (tailDigits k n).length ≤ j
  | 0, _, _, _, _ => Nat.zero_le _
  | k + 1, n, 0, hn, h => by
    obtain rfl : n = 0 := Nat.eq_zero_of_dvd_of_lt (by simpa using h) hn
    simp [tailDigits]
  | k + 1, n, j + 1, _, h => by
    rw [tailDigits]
    split
    · exact Nat.zero_le _
    · exact Nat.succ_le_succ (length_tailDigits_le rest_lt (dvd_rest h))

/-- The last digit is not zero. -/
theorem getLast_tailDigits : ∀ {k n : Nat}, n < 2 ^ 67 → 2 ^ 67 ∣ n * 16 ^ k → (tailDigits k n).getLast? ≠ some 0
  | 0, _, _, _ => by simp [tailDigits]
  | k + 1, n, _, h => by
    have ih := getLast_tailDigits rest_lt (dvd_rest h)
    have hval := value_tailDigits rest_lt (dvd_rest h)
    rw [tailDigits]
    split
    · simp
    · rename_i h0
      cases hl : tailDigits k (16 * (n % 2 ^ 63)) with
      | nil =>
        -- nothing is left, so that the digit is the number
        rw [hl, value_nil, Nat.zero_mul, List.length_nil, Nat.pow_zero] at hval
        rw [List.getLast?_singleton]
        intro hd
        have hd0 := Option.some.inj hd
        omega
      | cons d l =>
        rwa [List.getLast?_cons_cons, ← hl]

end

/-! ## The precision -/

/-- The digits behind the point that rounding leaves. -/
def fracDigits (m : Nat) (p : Int) : List Nat := tailDigits 16 (16 * (hexRound m p % 2 ^ 63))

theorem hexDigits_eq (lower : Byte) (p : Int) (fl : Flags) (m : Nat) : hexDigits lower p fl (hexRound m p) =
    hexDig lower (hexRound m p / 2 ^ 63) ::
      ((if fracDigits m p ≠ [] ∨ p > 0 ∨ fl.altForm then [ch '.'] else []) ++ (fracDigits m p).map (hexDig lower)) := by
  have hnil : fracDigits m p ≠ [] ↔ 16 * (hexRound m p % 2 ^ 63) ≠ 0 := by
    rw [fracDigits, tailDigits]
    split
    · rename_i h0
      rw [h0]
      exact iff_of_false (fun h => h rfl) fun h => h rfl
    · rename_i h0
      exact iff_of_true (List.cons_ne_nil _ _) h0
  simp only [hexDigits, hnil]
  rw [hexTail_eq]
  rfl

theorem hexRound_lt {m : Nat} (hm : m < 2 ^ 64) (p : Int) : hexRound m p < 2 ^ 66 := by
  unfold hexRound
  split
  · omega
  · rename_i hp
    obtain ⟨-, hle⟩ := halfEven_near (n := m) (d := 2 ^ (63 - 4 * p).toNat) (Nat.two_pow_pos _)
    have hd : 2 ^ (63 - 4 * p).toNat ≤ 2 ^ 63 := Nat.pow_le_pow_right (by decide) (by omega)
    simp only
    omega

theorem fracDigits_dvd (m : Nat) (p : Int) : 2 ^ 67 ∣ 16 * (hexRound m p % 2 ^ 63) * 16 ^ 16 := by
  have h : 16 * (hexRound m p % 2 ^ 63) * 16 ^ 16 = 2 ^ 67 * (2 * (hexRound m p % 2 ^ 63)) := by ring
  exact ⟨_, h⟩

/-- Reading the digits gives back what has been rounded. -/
theorem value_fracDigits (m : Nat) (p : Int) : value 16 (hexRound m p / 2 ^ 63 :: fracDigits m p) * 2 ^ 63 =
    hexRound m p * 16 ^ (fracDigits m p).length := by
  have hv := value_tailDigits rest_lt (fracDigits_dvd m p)
  have hdm := Nat.div_add_mod (hexRound m p) (2 ^ 63)
  have hfrac : value 16 (fracDigits m p) * 2 ^ 63 = hexRound m p % 2 ^ 63 * 16 ^ (fracDigits m p).length := by
    have h16 : 16 * (value 16 (fracDigits m p) * 2 ^ 63) =
        16 * (hexRound m p % 2 ^ 63 * 16 ^ (fracDigits m p).length) := by
      rw [← Nat.mul_assoc 16 (hexRound m p % 2 ^ 63), fracDigits, ← hv]
      ring
    exact Nat.eq_of_mul_eq_mul_left (by decide) h16
  rw [value_cons, Nat.add_mul, hfrac]
  calc hexRound m p / 2 ^ 63 * 16 ^ (fracDigits m p).length * 2 ^ 63 +
        hexRound m p % 2 ^ 63 * 16 ^ (fracDigits m p).length
      = (2 ^ 63 * (hexRound m p / 2 ^ 63) + hexRound m p % 2 ^ 63) * 16 ^ (fracDigits m p).length := by ring
    _ = hexRound m p * 16 ^ (fracDigits m p).length := by rw [hdm]

theorem length_fracDigits_le {m : Nat} {p : Int} (hp : 0 ≤ p) (h : p = 15 → 8 ∣ m) :
    ((fracDigits m p).length : Int) ≤ p := by
  by_cases hbig : 16 ≤ p
  · have hlen := length_tailDigits_le (k := 16) rest_lt (fracDigits_dvd m p)
    rw [fracDigits]
    omega
  · have hdvd : 2 ^ 63 ∣ hexRound m p % 2 ^ 63 * 16 ^ p.toNat := by
      have hpow : 16 ^ p.toNat = 2 ^ (4 * p.toNat) := by
        rw [Nat.pow_mul]
      have hround : 2 ^ (63 - 4 * p).toNat ∣ hexRound m p := by
        unfold hexRound
        split
        · rename_i h15
          have h3 : (63 - 4 * p).toNat = 3 := by omega
          rw [h3]
          exact h (by omega)
        · exact Nat.dvd_mul_left _ _
      have hmod : 2 ^ (63 - 4 * p).toNat ∣ hexRound m p % 2 ^ 63 :=
        (Nat.dvd_mod_iff (Nat.pow_dvd_pow 2 (by omega))).mpr hround
      have hmul := Nat.mul_dvd_mul_right hmod (2 ^ (4 * p.toNat))
      rw [← Nat.pow_add] at hmul
      rw [hpow]
      exact Nat.dvd_trans (Nat.pow_dvd_pow 2 (by omega)) hmul
    have hlen := length_tailDigits_le (k := 16) (n := 16 * (hexRound m p % 2 ^ 63)) (j := p.toNat) rest_lt (by
      rw [Nat.mul_assoc]
      exact Nat.mul_dvd_mul_left 16 hdvd)
    rw [fracDigits]
    omega

/-- With 15 digits, the last three bits need one more. -/
theorem length_fracDigits_eq {m : Nat} (h : ¬8 ∣ m) : (fracDigits m 15).length = 16 := by
  have hle := length_tailDigits_le (k := 16) rest_lt (fracDigits_dvd m 15)
  have hval := value_fracDigits m 15
  have hround : hexRound m 15 = m := by
    rw [hexRound, if_pos (.inr (Int.le_refl 15))]
  by_contra hne
  apply h
  rw [fracDigits] at hne
  obtain ⟨j, hj⟩ : ∃ j, (fracDigits m 15).length + j = 15 := ⟨15 - (fracDigits m 15).length, by rw [fracDigits]; omega⟩
  have hmul : value 16 (hexRound m 15 / 2 ^ 63 :: fracDigits m 15) * 2 ^ 63 * 16 ^ j = m * 2 ^ 60 := by
    rw [hval, hround, Nat.mul_assoc, ← Nat.pow_add, hj]
    rfl
  have hdvd : 2 ^ 60 * 8 ∣ 2 ^ 60 * m := by
    rw [Nat.mul_comm _ m, ← hmul]
    exact Dvd.dvd.mul_right (Dvd.dvd.mul_left (by decide) _) _
  exact Nat.dvd_of_mul_dvd_mul_left (by decide) hdvd

/-! ## The text -/

/-- The digits behind the point, with the zeros that make up for a precision. -/
def hexFrac (m : Nat) (p : Int) : List Nat :=
  fracDigits m p ++ List.replicate (p - (fracDigits m p).length).toNat 0

/-- How many digits there are. -/
theorem length_hexFrac {m : Nat} {p : Int} (hp : 0 ≤ p) :
    ((hexFrac m p).length : Int) = p ↔ ¬(p = 15 ∧ ¬8 ∣ m) := by
  rw [hexFrac, List.length_append, List.length_replicate]
  by_cases h : p = 15 ∧ ¬8 ∣ m
  · obtain ⟨rfl, hm⟩ := h
    have hlen := length_fracDigits_eq hm
    constructor
    · omega
    · exact fun hn => absurd ⟨rfl, hm⟩ hn
  · have hlen := length_fracDigits_le hp fun h15 => by
      by_contra hm
      exact h ⟨h15, hm⟩
    constructor
    · exact fun _ => h
    · omega

theorem value_replicate_zero (b : Nat) (l : List Nat) : ∀ n : Nat,
    value b (l ++ List.replicate n 0) = value b l * b ^ n
  | 0 => by simp
  | n + 1 => by
    rw [List.replicate_succ', ← List.append_assoc, value_concat, value_replicate_zero b l n, Nat.pow_succ]
    ring

theorem value_hexFrac (m : Nat) (p : Int) : value 16 (hexRound m p / 2 ^ 63 :: hexFrac m p) * 2 ^ 63 =
    hexRound m p * 16 ^ (hexFrac m p).length := by
  have hv := value_fracDigits m p
  rw [hexFrac, ← List.cons_append, value_replicate_zero, Nat.mul_right_comm, hv, List.length_append,
    List.length_replicate, Nat.pow_add, Nat.mul_assoc]

/-- The digits `d` and `l`, before and behind the point, of the significand `m` with the precision `p`. -/
structure HexText (m : Nat) (p : Int) (d : Nat) (l : List Nat) : Prop where
  lt : ∀ k ∈ d :: l, k < 16
  rounded : value 16 (d :: l) = halfEven (m * 16 ^ l.length) (2 ^ 63)
  exact : p < 0 ∨ 15 ≤ p → value 16 (d :: l) * 2 ^ 63 = m * 16 ^ l.length
  length : 0 ≤ p → ((l.length : Int) = p ↔ ¬(p = 15 ∧ ¬8 ∣ m))
  short : p < 0 → l.getLast? ≠ some 0

theorem hexText {m : Nat} (hm : m < 2 ^ 64) (p : Int) : HexText m p (hexRound m p / 2 ^ 63) (hexFrac m p) := by
  have hv := value_hexFrac m p
  have hexact : p < 0 ∨ 15 ≤ p → hexRound m p = m := fun h => by rw [hexRound, if_pos h]
  constructor
  · have hlt := hexRound_lt hm p
    intro k hk
    rcases List.mem_cons.mp hk with rfl | hk
    · omega
    · rcases List.mem_append.mp hk with hk | hk
      · exact tailDigits_lt rest_lt k hk
      · rw [(List.mem_replicate.mp hk).2]
        decide
  · by_cases h : p < 0 ∨ 15 ≤ p
    · rw [hexact h] at hv
      rw [hexact h, ← hv, halfEven_mul (by decide)]
    · -- the digits are units of the last place
      have hlen : (hexFrac m p).length = p.toNat := by
        have h15 := (length_hexFrac (m := m) (p := p) (by omega)).mpr fun hc => by omega
        omega
      have hpow : 2 ^ (63 - 4 * p).toNat * 16 ^ p.toNat = 2 ^ 63 := by
        have h16 : 16 ^ p.toNat = 2 ^ (4 * p.toNat) := by rw [Nat.pow_mul]
        rw [h16, ← Nat.pow_add]
        congr 1
        omega
      have hround : hexRound m p = halfEven m (2 ^ (63 - 4 * p).toNat) * 2 ^ (63 - 4 * p).toNat := by
        rw [hexRound, if_neg h]
      have hscale : halfEven (m * 16 ^ p.toNat) (2 ^ 63) = halfEven m (2 ^ (63 - 4 * p).toNat) := by
        rw [← hpow, halfEven_scale (Nat.pow_pos (by decide))]
      rw [hlen] at hv ⊢
      rw [hscale]
      apply Nat.eq_of_mul_eq_mul_right (show 0 < 2 ^ 63 by decide)
      calc value 16 (hexRound m p / 2 ^ 63 :: hexFrac m p) * 2 ^ 63 = hexRound m p * 16 ^ p.toNat := hv
        _ = halfEven m (2 ^ (63 - 4 * p).toNat) * (2 ^ (63 - 4 * p).toNat * 16 ^ p.toNat) := by rw [hround, Nat.mul_assoc]
        _ = halfEven m (2 ^ (63 - 4 * p).toNat) * 2 ^ 63 := by rw [hpow]
  · intro h
    rw [hv, hexact h]
  · exact length_hexFrac
  · intro h
    have hzero : (p - (fracDigits m p).length).toNat = 0 := by omega
    rw [hexFrac, hzero, List.replicate_zero, List.append_nil]
    exact getLast_tailDigits rest_lt (fracDigits_dvd m p)

theorem hexFrac_ne_nil {m : Nat} {p : Int} : hexFrac m p ≠ [] ↔ fracDigits m p ≠ [] ∨ p > 0 := by
  rw [hexFrac, ne_eq, List.append_eq_nil_iff, List.replicate_eq_nil_iff, not_and_or]
  by_cases h : fracDigits m p = []
  · have hlen : (fracDigits m p).length = 0 := by rw [h, List.length_nil]
    rw [hlen]
    simp only [h, not_true_eq_false, false_or, ne_eq]
    omega
  · simp only [h, not_false_eq_true, true_or, ne_eq]

/-- The digits and the zeros behind them. -/
theorem hexBody_flatten (m : Nat) (p : Int) (fl : Flags) (t : Byte) (estr : Frag) :
    ∃ l : Int, l = (if p ≠ 0 ∧ ((hexDigits (t &&& 32) p fl (hexRound m p)).length : Int) - 2 < p
        then p + 2 + estr.length else (hexDigits (t &&& 32) p fl (hexRound m p)).length + estr.length) ∧
      ([hexDigits (t &&& 32) p fl (hexRound m p)] ++
        pad (ch '0') (l - estr.length - (hexDigits (t &&& 32) p fl (hexRound m p)).length) 0 {} ++ [estr]).flatten =
        hexDig (t &&& 32) (hexRound m p / 2 ^ 63) :: ((if hexFrac m p ≠ [] ∨ fl.altForm then [ch '.'] else []) ++
          (hexFrac m p).map (hexDig (t &&& 32))) ++ estr ∧
      (([hexDigits (t &&& 32) p fl (hexRound m p)] ++ pad (ch '0')
        (l - estr.length - (hexDigits (t &&& 32) p fl (hexRound m p)).length) 0 {} ++ [estr]).flatten.length : Int) = l := by
  have hzero : hexDig (t &&& 32) 0 = ch '0' := by
    revert t
    decide
  simp only [hexFrac_ne_nil, or_assoc]
  rw [hexDigits_eq]
  generalize hpt : (if fracDigits m p ≠ [] ∨ p > 0 ∨ fl.altForm then [ch '.'] else []) = point
  have hpoint : point.length ≤ 1 ∧ (p > 0 → point.length = 1) := by
    rw [← hpt]
    split
    · exact ⟨Nat.le_refl 1, fun _ => rfl⟩
    · rename_i hn
      exact ⟨Nat.zero_le 1, fun hp => absurd (.inr (.inl hp)) hn⟩
  refine ⟨_, rfl, ?_, ?_⟩
  · rw [List.flatten_append, List.flatten_append, List.flatten_singleton, List.flatten_singleton, zeros_flatten, hexFrac,
      List.map_append, List.map_replicate, hzero]
    simp only [List.length_cons, List.length_append, List.length_map, List.append_assoc, List.cons_append]
    congr 5
    split <;> omega
  · rw [List.flatten_append, List.flatten_append, List.flatten_singleton, List.flatten_singleton, zeros_flatten]
    simp only [List.length_cons, List.length_append, List.length_map, List.length_replicate]
    split <;> omega

section

variable (junk : Limbs.Cells) (neg : Bool) (y : Finite) (w p : Int) {fl : Flags} {t : Byte}

end

/-- The number after 1. -/
def justAboveOne : Finite where
  m := 2 ^ 63 + 1
  e := 0
  norm := by decide
  lower := by decide
  upper := by decide
  subnormal := by decide

end Synthol.Stdio
