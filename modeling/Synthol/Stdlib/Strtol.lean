import Mathlib.Data.List.TakeWhile
import Synthol.Stdlib.Intscan

/-!
# strtol, strtoul

The functions of `src/musl/src/stdlib/strtol.c` on the bytes from `s` on, a NUL among them. What they are to do is said
without the loops (`subject`): white space, a sign, a prefix, then the longest run of digits in the base.

They return that number, or the nearest one that the type holds, set `errno` exactly where it is another one, and leave
`*p` behind the last digit, or at `s` where there is no digit (`strtol_spec` for both).
-/

namespace Synthol.Stdlib

open X86 Stdio

/-! ## The functions -/

/-- What is returned, how far `*p` is from `s`, and what `errno` is set to. -/
def strtox (s : List Byte) (base : Nat) (lim : Nat) : Word × Nat × Option Errno :=
  let (y, e, x) := intscan base true lim (Sh.before 0 [] s)
  (y, x.shcnt, e)

def strtol (s : List Byte) (base : Nat) : Word × Nat × Option Errno := strtox s base (2 ^ 63)

def strtoul (s : List Byte) (base : Nat) : Word × Nat × Option Errno := strtox s base ullongMax

/-! ## Specification -/

/-- The sign, and what is behind it. -/
def signOf : List Byte → Bool × List Byte
  | [] => (false, [])
  | c :: t => if c = ch '-' then (true, t) else if c = ch '+' then (false, t) else (false, c :: t)

/-- `0x` or `0X` in front of a hexadecimal digit. -/
def hexPrefix : List Byte → Bool
  | a :: b :: c :: _ => a = ch '0' ∧ (b = ch 'x' ∨ b = ch 'X') ∧ Digit 16 c
  | _ => false

/-- The base, and the digits with what is behind them. -/
def baseOf (base : Nat) (t : List Byte) : Nat × List Byte :=
  if (base = 0 ∨ base = 16) ∧ hexPrefix t then (16, t.drop 2)
  else if base = 0 then (if t.head? = some (ch '0') then 8 else 10, t)
  else (base, t)

/-- A number as it is written. -/
structure Subject where
  neg : Bool
  base : Nat
  digits : List Byte
  tail : List Byte

/-- From the prefix on. -/
def Subject.of (neg : Bool) (base : Nat) (t : List Byte) : Subject :=
  let (b, t) := baseOf base t
  ⟨neg, b, t.takeWhile (Digit b ·), t.dropWhile (Digit b ·)⟩

def subject (base : Nat) (s : List Byte) : Subject :=
  let (neg, t) := signOf (s.dropWhile white)
  .of neg base t

namespace Subject

variable (n : Subject)

def abs : Nat := numberOf n.base n.digits

def value : Int := if n.neg then -n.abs else n.abs

end Subject

/-- The nearest number that a `long` holds. -/
def toLong (z : Int) : Int := max (-2 ^ 63) (min z (2 ^ 63 - 1))

/-! ## The end -/

/-- A digit in front. -/
theorem numberOf_zero (b : Nat) (ds : List Byte) : numberOf b (ch '0' :: ds) = numberOf b ds := by
  have h0 : val (some (ch '0')) = 0 := rfl
  rw [numberOf, List.map_cons, Numeral.value_cons, h0, Nat.zero_mul, Nat.zero_add]
  rfl

theorem neg_eq (y : Word) (neg : Bool) :
    (y ^^^ (if neg then -1 else 0)) - (if neg then -1 else 0) = if neg then -y else y := by
  cases neg with
  | false => simp
  | true =>
    have hall : (-1 : Word) = BitVec.allOnes 64 := rfl
    simp only [if_true]
    rw [hall, BitVec.xor_allOnes, BitVec.neg_eq_not_add, ← hall, BitVec.sub_eq_add_neg]
    rfl

theorem toInt_pos {y : Nat} (h : y < 2 ^ 63) : (BitVec.ofNat 64 y).toInt = y := by
  rw [BitVec.toInt_eq_toNat_cond, BitVec.toNat_ofNat, Nat.mod_eq_of_lt (by omega), if_pos (by omega)]

theorem toInt_neg {y : Nat} (h : y ≤ 2 ^ 63) : (-BitVec.ofNat 64 y).toInt = -y := by
  rw [BitVec.toInt_eq_toNat_cond, BitVec.toNat_neg, BitVec.toNat_ofNat, Nat.mod_eq_of_lt (by omega : y < 2 ^ 64)]
  by_cases h0 : y = 0
  · subst h0
    rfl
  · rw [Nat.mod_eq_of_lt (by omega), if_neg (by omega)]
    omega

theorem toLong_eq {z : Int} : toLong z = z ↔ -2 ^ 63 ≤ z ∧ z < 2 ^ 63 := by
  unfold toLong
  omega

/-- The limits of `strtol`. -/
theorem finish_long {y : Nat} (neg : Bool) {z : Int} (hz : z = if neg then -(y : Int) else y) :
    (finish (2 ^ 63) y neg none).1.toInt = toLong z ∧
      (finish (2 ^ 63) y neg none).2 = if toLong z = z then none else some .erange := by
  have hmax : (BitVec.ofNat 64 (2 ^ 63) - 1 : Word).toInt = 2 ^ 63 - 1 := by decide
  have hmin : (BitVec.ofNat 64 (2 ^ 63) : Word).toInt = -2 ^ 63 := by decide
  rw [finish, neg_eq]
  cases neg with
  | false =>
    simp only [Bool.false_eq_true, if_false] at hz
    by_cases hy : y ≥ 2 ^ 63
    · rw [if_pos hy, if_pos ⟨by decide, rfl⟩, if_neg (mt toLong_eq.mp (by omega)), hmax]
      refine ⟨?_, rfl⟩
      unfold toLong
      omega
    · rw [if_neg hy, if_pos (toLong_eq.mpr (by omega))]
      simp only [Bool.false_eq_true, if_false]
      rw [toInt_pos (Nat.lt_of_not_le hy), toLong_eq.mpr (by omega)]
      exact ⟨hz.symm, trivial⟩
  | true =>
    simp only [if_true] at hz
    by_cases hy : y ≥ 2 ^ 63
    · rw [if_pos hy, if_neg (by simp)]
      by_cases hgt : y > 2 ^ 63
      · rw [if_pos hgt, if_neg (mt toLong_eq.mp (by omega)), hmin]
        refine ⟨?_, rfl⟩
        unfold toLong
        omega
      · rw [if_neg hgt, if_pos (toLong_eq.mpr (by omega))]
        simp only [if_true]
        rw [toInt_neg (by omega), toLong_eq.mpr (by omega)]
        exact ⟨hz.symm, trivial⟩
    · rw [if_neg hy, if_pos (toLong_eq.mpr (by omega))]
      simp only [if_true]
      rw [toInt_neg (by omega), toLong_eq.mpr (by omega)]
      exact ⟨hz.symm, trivial⟩

theorem finish_long_over {y : Nat} (hy : ullongMax < y) (neg : Bool) {z : Int}
    (hz : z = if neg then -(y : Int) else y) : (finish (2 ^ 63) (2 ^ 63) neg (some .erange)).1.toInt = toLong z ∧
      (finish (2 ^ 63) (2 ^ 63) neg (some .erange)).2 = if toLong z = z then none else some .erange := by
  have hval : ullongMax = 2 ^ 64 - 1 := rfl
  cases neg with
  | false =>
    simp only [Bool.false_eq_true, if_false] at hz
    rw [if_neg (mt toLong_eq.mp (by omega))]
    refine ⟨?_, rfl⟩
    have hmax : (finish (2 ^ 63) (2 ^ 63) false (some .erange)).1.toInt = 2 ^ 63 - 1 := by decide
    rw [hmax]
    unfold toLong
    omega
  | true =>
    simp only [if_true] at hz
    rw [if_neg (mt toLong_eq.mp (by omega))]
    refine ⟨?_, rfl⟩
    have hmin : (finish (2 ^ 63) (2 ^ 63) true (some .erange)).1.toInt = -2 ^ 63 := by decide
    rw [hmin]
    unfold toLong
    omega

/-- The limit of `strtoul`. -/
theorem finish_ulong {y : Nat} (hy : y ≤ ullongMax) (neg : Bool) :
    finish ullongMax y neg none = (if neg then -BitVec.ofNat 64 y else BitVec.ofNat 64 y, none) := by
  have hodd : ¬(ullongMax % 2 = 0 ∧ neg = false) := fun h => absurd h.1 (by decide)
  rw [finish, neg_eq, if_neg hodd, if_neg (Nat.not_lt.mpr hy), ite_self]

/-! ## The prefix -/

/-- The state in which `radix` leaves the text `t`: there is no digit, or a zero with something else behind it, or the
digits from the first one on, a zero at most apart. -/
inductive Prefixed (base m : Nat) (u t : List Byte) : Except (Option Errno × Sh) (Nat × Option Byte × Sh) → Prop
  | none (h : ∀ c, (baseOf base t).2.head? = some c → ¬Digit (baseOf base t).1 c) :
    Prefixed base m u t (.error (some .einval, (Sh.look m u t).shunget.shlim))
  | zero {t' : List Byte} (h : (baseOf base t).2 = ch '0' :: t') (ht : t = ch '0' :: t')
    (stop : ∀ c, t'.head? = some c → ¬Digit (baseOf base t).1 c) :
    Prefixed base m u t (.error (none, Sh.before m (u ++ [ch '0']) t'))
  | some {zs u' t' : List Byte} (h : (baseOf base t).2 = zs ++ t') (hu : u ++ t = u' ++ t') (h0 : (0 : Byte) ∈ t')
    (zeros : zs = [] ∧ (∃ c, t'.head? = some c ∧ Digit (baseOf base t).1 c) ∨ zs = [ch '0']) :
    Prefixed base m u t (.ok ((baseOf base t).1, t'.head?, Sh.look m u' t'))

theorem prefixed_ok {base m b : Nat} {u t zs u' t' : List Byte} (h : baseOf base t = (b, zs ++ t'))
    (hu : u ++ t = u' ++ t') (h0 : (0 : Byte) ∈ t')
    (zeros : zs = [] ∧ (∃ c, t'.head? = some c ∧ Digit b c) ∨ zs = [ch '0']) :
    Prefixed base m u t (.ok (b, t'.head?, Sh.look m u' t')) := by
  have hsome := @Prefixed.some base m u t zs u' t' (congrArg Prod.snd h) hu h0 (by rwa [h])
  rwa [h] at hsome

theorem or_x (c : Byte) : c ||| 32 = ch 'x' ↔ c = ch 'x' ∨ c = ch 'X' := by
  revert c
  decide

theorem head_forall {P : Byte → Prop} {c : Byte} {t : List Byte} (h : P c) : ∀ e, (c :: t).head? = some e → P e := by
  intro e he
  rw [List.head?_cons, Option.some.injEq] at he
  rwa [← he]

theorem hexPrefix_zero {c : Byte} {t : List Byte} (h : c ≠ ch '0') : hexPrefix (c :: t) = false := by
  rcases t with _ | ⟨d, _ | ⟨e, t⟩⟩ <;> simp [hexPrefix, h]

theorem hexPrefix_iff (d e : Byte) (t : List Byte) :
    hexPrefix (ch '0' :: d :: e :: t) = true ↔ (d = ch 'x' ∨ d = ch 'X') ∧ Digit 16 e := by
  simp [hexPrefix]

theorem digit_zero {b : Nat} (hb : 1 ≤ b) : Digit b (ch '0') := hb

theorem zero_digits {b : Nat} (hb : 1 ≤ b) : ∀ c ∈ [ch '0'], Digit b c := by
  intro c hc
  rw [List.mem_singleton.mp hc]
  exact digit_zero hb

section

variable {base : Nat} {t : List Byte}

theorem baseOf_hex (hbase : base = 0 ∨ base = 16) {d : Byte} (hp : hexPrefix (ch '0' :: d :: t) = true) :
    baseOf base (ch '0' :: d :: t) = (16, t) := by
  rw [baseOf, if_pos ⟨hbase, hp⟩]
  rfl

/-- Without a prefix, the zero is a digit. -/
theorem baseOf_zero (hp : ¬hexPrefix (ch '0' :: t) = true) :
    baseOf base (ch '0' :: t) = (if base = 0 then 8 else base, ch '0' :: t) := by
  rw [baseOf, if_neg fun h => hp h.2]
  split
  · rw [List.head?_cons, if_pos rfl]
  · rfl

theorem baseOf_other {c : Byte} (hc : ¬((base = 0 ∨ base = 16) ∧ c = ch '0')) :
    baseOf base (c :: t) = (if base = 0 then 10 else base, c :: t) := by
  have hp : ¬((base = 0 ∨ base = 16) ∧ hexPrefix (c :: t) = true) := by
    rintro ⟨hbase, hp⟩
    rw [hexPrefix_zero fun h => hc ⟨hbase, h⟩] at hp
    cases hp
  rw [baseOf, if_neg hp]
  split
  · rename_i hbase
    rw [List.head?_cons, if_neg fun h => hc ⟨.inl hbase, Option.some.inj h⟩]
  · rfl

end

/-- Nothing but a NUL ends the text. -/
theorem exists_cons {c : Byte} {t : List Byte} (h : (0 : Byte) ∈ c :: t) (hc : c ≠ 0) :
    ∃ d t', t = d :: t' ∧ (0 : Byte) ∈ d :: t' := by
  have ht : (0 : Byte) ∈ t := by
    rcases List.mem_cons.mp h with h | h
    · exact absurd h.symm hc
    · exact h
  cases t with
  | nil => exact (List.not_mem_nil ht).elim
  | cons d t' => exact ⟨d, t', rfl, ht⟩

/-- A zero that may begin a prefix. -/
theorem radix_zero {base : Nat} (hbase : base = 0 ∨ base = 16) (m : Nat) (u : List Byte) {t : List Byte}
    (h0 : (0 : Byte) ∈ ch '0' :: t) :
    Prefixed base m u (ch '0' :: t) (radix base true (some (ch '0')) (Sh.look m u (ch '0' :: t))) := by
  obtain ⟨d, t, rfl, h1⟩ := exists_cons h0 (by decide)
  simp only [radix, hbase, and_self, if_true, shgetc_look, List.head?_cons, Option.map_some, Option.some.injEq, or_x]
  by_cases hx : d = ch 'x' ∨ d = ch 'X'
  · have hne : d ≠ 0 := by
      rcases hx with rfl | rfl <;> decide
    obtain ⟨e, t, rfl, h2⟩ := exists_cons h1 hne
    simp only [hx, if_true]
    by_cases he : val (e :: t).head? ≥ 16
    · -- `0x` without a digit behind it is a zero
      have heq : baseOf base (ch '0' :: d :: e :: t) = (if base = 0 then 8 else base, ch '0' :: d :: e :: t) :=
        baseOf_zero fun hp => Nat.not_lt.mpr he ((hexPrefix_iff d e t).mp hp).2
      have hd : val (some d) = 33 := by
        rcases hx with rfl | rfl <;> rfl
      have hb16 : (if base = 0 then 8 else base) ≤ 16 := by
        rcases hbase with rfl | rfl <;> decide
      rw [if_pos he, shunget_look, shunget_before]
      refine .zero (by rw [heq]) rfl (head_forall ?_)
      rw [heq, Digit, hd]
      simp only
      omega
    · have hdigit : Digit 16 e := Nat.lt_of_not_le he
      rw [if_neg he]
      have hbaseOf := baseOf_hex hbase ((hexPrefix_iff d e t).mpr ⟨hx, hdigit⟩)
      exact prefixed_ok hbaseOf (by simp) h2 (.inl ⟨rfl, e, rfl, hdigit⟩)
  · have hp : ¬hexPrefix (ch '0' :: d :: t) = true := by
      cases t <;> simp [hexPrefix, hx]
    rw [if_neg hx]
    exact @prefixed_ok _ _ _ _ _ [ch '0'] _ _ (baseOf_zero hp) (by simp) h1 (.inr rfl)

/-- **The prefix**. -/
theorem radix_look (base m : Nat) (u : List Byte) {t : List Byte} (h0 : (0 : Byte) ∈ t) :
    Prefixed base m u t (radix base true t.head? (Sh.look m u t)) := by
  obtain ⟨c, t, rfl⟩ := List.exists_cons_of_ne_nil (List.ne_nil_of_mem h0)
  rw [List.head?_cons]
  by_cases hz : (base = 0 ∨ base = 16) ∧ c = ch '0'
  · obtain ⟨hbase, rfl⟩ := hz
    exact radix_zero hbase m u h0
  · have heq : baseOf base (c :: t) = (if base = 0 then 10 else base, c :: t) := baseOf_other hz
    rw [radix, if_neg fun h => hz ⟨h.1, Option.some.inj h.2⟩]
    simp only
    by_cases hv : val (some c) ≥ if base = 0 then 10 else base
    · rw [if_pos hv]
      refine .none ?_
      rw [heq]
      exact head_forall (Nat.not_lt.mpr hv)
    · rw [if_neg hv]
      exact prefixed_ok heq rfl h0 (.inl ⟨rfl, c, rfl, Nat.lt_of_not_le hv⟩)

/-! ## All of it -/

theorem takeWhile_digits {b : Nat} {ds t : List Byte} (hds : ∀ c ∈ ds, Digit b c)
    (ht : ∀ c, t.head? = some c → ¬Digit b c) :
    (ds ++ t).takeWhile (Digit b ·) = ds ∧ (ds ++ t).dropWhile (Digit b ·) = t := by
  have hall : ∀ c ∈ ds, decide (Digit b c) = true := fun c hc => decide_eq_true (hds c hc)
  rw [List.takeWhile_append_of_pos hall, List.dropWhile_append_of_pos hall]
  cases t with
  | nil => simp
  | cons c t =>
    have hc : ¬Digit b c := ht c rfl
    simp [hc]

/-- The NUL is behind the digits. -/
theorem zero_mem {b : Nat} (hb : b ≤ 36) {ds t : List Byte} (hds : ∀ c ∈ ds, Digit b c) (h0 : (0 : Byte) ∈ ds ++ t) :
    (0 : Byte) ∈ t := by
  rcases List.mem_append.mp h0 with h | h
  · have hd := hds 0 h
    have hv : val (some 0) = 255 := rfl
    rw [Digit, hv] at hd
    omega
  · exact h

/-- The result for the digits `ds`. -/
def result (lim : Nat) (neg : Bool) (y : Nat) : Word × Option Errno :=
  if y ≤ ullongMax then finish lim y neg none
  else finish lim lim (if lim % 2 = 1 then false else neg) (some .erange)

theorem scanDigits_look {b : Nat} (h₁ : 2 ≤ b) (h₂ : b ≤ 36) (lim : Nat) (neg : Bool) (m : Nat) (u : List Byte)
    {t : List Byte} (h0 : (0 : Byte) ∈ t) : scanDigits b lim neg t.head? (Sh.look m u t) =
      ((result lim neg (numberOf b (t.takeWhile (Digit b ·)))).1,
        (result lim neg (numberOf b (t.takeWhile (Digit b ·)))).2,
        Sh.before m (u ++ t.takeWhile (Digit b ·)) (t.dropWhile (Digit b ·))) := by
  obtain ⟨ds, t', rfl, hnum, hds, hle, hover⟩ := number_look h₁ h₂ m u t
  have h0' := zero_mem h₂ hds h0
  obtain ⟨c, t, rfl⟩ := List.exists_cons_of_ne_nil (List.ne_nil_of_mem h0')
  rw [scanDigits, hnum]
  simp only
  by_cases hc : Digit b c
  · -- the rest of the digits is skipped
    have hcond : ¬(b = 10 ∧ dec (c :: t).head? ≥ 10) ∧ val (c :: t).head? < b := by
      refine ⟨?_, hc⟩
      rintro ⟨rfl, hdec⟩
      exact Nat.not_lt.mpr hdec ((dec_lt c).mpr hc)
    have hlen : (c :: t).length ≤ (Sh.look m (u ++ ds) (c :: t)).s.length := by
      rw [Sh.look, List.length_append]
      omega
    obtain ⟨es, t', y, heq, hacc, hes, hstop⟩ := @accumulate_look (fun c _ => val c < b) _ (fun _ y => y)
      (fun ds _ => ∀ c ∈ ds, Digit b c) (fun _ => val_none h₂)
      (fun hi hg e he => (List.mem_append.mp he).elim (hi e) fun he => by rwa [List.mem_singleton.mp he])
      m _ (u ++ ds) _ _ (numberOf b ds) hlen hds
    have hends : ∀ e, t'.head? = some e → ¬Digit b e := by
      intro e he
      rw [he] at hstop
      exact hstop
    have hgt : ullongMax < numberOf b (ds ++ es) := by
      cases es with
      | nil =>
        rw [List.nil_append] at heq
        exact absurd hc (hends c (by rw [← heq, List.head?_cons]))
      | cons e es =>
        obtain ⟨rfl, -⟩ := List.cons.inj heq
        have hmore := numberOf_le (b := b) (by omega) (ds ++ [c]) es
        rw [List.append_assoc] at hmore
        exact Nat.lt_of_lt_of_le (hover c rfl hc) hmore
    rw [if_pos hcond, hacc, heq, ← List.append_assoc]
    rw [heq, ← List.append_assoc] at h0
    obtain ⟨e, t', rfl⟩ := List.exists_cons_of_ne_nil (List.ne_nil_of_mem (zero_mem h₂ hes h0))
    obtain ⟨htake, hdrop⟩ := takeWhile_digits hes hends
    rw [htake, hdrop, result, if_neg (Nat.not_le.mpr hgt), List.append_assoc]
    simp only [shunget_look]
  · have hcond : ¬(¬(b = 10 ∧ dec (c :: t).head? ≥ 10) ∧ val (c :: t).head? < b) := fun h => hc h.2
    obtain ⟨htake, hdrop⟩ := takeWhile_digits hds (head_forall hc)
    rw [if_neg hcond, htake, hdrop, result, if_pos hle, shunget_look]

theorem sign_look (m : Nat) (u : List Byte) {t : List Byte} (h0 : (0 : Byte) ∈ t) :
    (0 : Byte) ∈ (signOf t).2 ∧ ∃ u', u ++ t = u' ++ (signOf t).2 ∧
      sign t.head? (Sh.look m u t) = ((signOf t).1, (signOf t).2.head?, Sh.look m u' (signOf t).2) := by
  obtain ⟨c, t, rfl⟩ := List.exists_cons_of_ne_nil (List.ne_nil_of_mem h0)
  rw [sign, signOf, List.head?_cons]
  by_cases hminus : c = ch '-'
  · subst hminus
    obtain ⟨d, t', rfl, h1⟩ := exists_cons h0 (by decide)
    refine ⟨h1, u ++ [ch '-'], by simp, ?_⟩
    simp [shgetc_look]
  by_cases hplus : c = ch '+'
  · subst hplus
    obtain ⟨d, t', rfl, h1⟩ := exists_cons h0 (by decide)
    refine ⟨by simpa [hminus] using h1, u ++ [ch '+'], by simp [hminus], ?_⟩
    simp [shgetc_look, hminus]
  · exact ⟨by simpa [hminus, hplus] using h0, u, by simp [hminus, hplus], by simp [hminus, hplus]⟩

theorem baseOf_bounds {base : Nat} (hb : ¬(base > 36 ∨ base = 1)) (t : List Byte) :
    2 ≤ (baseOf base t).1 ∧ (baseOf base t).1 ≤ 36 := by
  rw [baseOf]
  split_ifs
  · simp
  · simp
  · simp
  · simp only
    omega

theorem mem_dropWhile_white {s : List Byte} (h0 : (0 : Byte) ∈ s) : (0 : Byte) ∈ s.dropWhile white := by
  rw [← List.takeWhile_append_dropWhile (p := white) (l := s)] at h0
  rcases List.mem_append.mp h0 with h | h
  · have hw := List.mem_takeWhile_imp h
    exact absurd hw (by decide)
  · exact h

theorem result_zero {lim : Nat} (hlim : 0 < lim) (neg : Bool) : result lim neg 0 = (0, none) := by
  rw [result, if_pos (Nat.zero_le _), finish, if_neg (by omega), neg_eq]
  cases neg <;> rfl

/-- What `scanNumber` leaves: no digit and the position of `shlim`, or the result and the position behind the digits. -/
def Scanned (n : Subject) (lim len : Nat) (r : Word × Option Errno × Sh) : Prop :=
  (r.1, r.2.2.shcnt, r.2.1) = if n.digits = [] then (0, 0, some .einval)
    else ((result lim n.neg n.abs).1, len - n.tail.length, (result lim n.neg n.abs).2)

/-- The subject of a text that begins with a digit. -/
theorem of_zeros {base : Nat} {t : List Byte} (hb : 1 ≤ (baseOf base t).1) {zs t' : List Byte}
    (h : (baseOf base t).2 = zs ++ t')
    (zeros : zs = [] ∧ (∃ c, t'.head? = some c ∧ Digit (baseOf base t).1 c) ∨ zs = [ch '0']) (neg : Bool) :
    (Subject.of neg base t).digits ≠ [] ∧
      (Subject.of neg base t).abs = numberOf (baseOf base t).1 (t'.takeWhile (Digit (baseOf base t).1 ·)) ∧
      (Subject.of neg base t).tail = t'.dropWhile (Digit (baseOf base t).1 ·) := by
  have hzs : ∀ c ∈ zs, Digit (baseOf base t).1 c := by
    rcases zeros with ⟨rfl, -⟩ | rfl
    · exact fun c hc => (List.not_mem_nil hc).elim
    · exact zero_digits hb
  have hall : ∀ c ∈ zs, decide (Digit (baseOf base t).1 c) = true := fun c hc => decide_eq_true (hzs c hc)
  have hdigits : (Subject.of neg base t).digits = zs ++ t'.takeWhile (Digit (baseOf base t).1 ·) := by
    rw [← List.takeWhile_append_of_pos hall, ← h]
    rfl
  refine ⟨?_, ?_, ?_⟩
  · rw [hdigits]
    rcases zeros with ⟨rfl, c, hc, hd⟩ | rfl
    · cases t' with
      | nil => cases hc
      | cons e t' =>
        obtain rfl := Option.some.inj hc
        simp [hd]
    · exact List.cons_ne_nil _ _
  · rw [Subject.abs, hdigits]
    rcases zeros with ⟨rfl, -⟩ | rfl
    · rfl
    · exact numberOf_zero _ _
  · rw [← List.dropWhile_append_of_pos hall, ← h]
    rfl

theorem scanNumber_look {base lim : Nat} (hb : ¬(base > 36 ∨ base = 1)) (hlim : 0 < lim) (neg : Bool) (u : List Byte)
    {t : List Byte} (h0 : (0 : Byte) ∈ t) : Scanned (.of neg base t) lim (u ++ t).length
      (scanNumber base true lim neg t.head? (Sh.look 0 u t)) := by
  obtain ⟨h₁, h₂⟩ := baseOf_bounds hb t
  have hradix := radix_look base 0 u h0
  rw [scanNumber]
  generalize radix base true t.head? (Sh.look 0 u t) = r at hradix ⊢
  cases hradix with
  | none h =>
    have hnil : (Subject.of neg base t).digits = [] :=
      (@takeWhile_digits _ [] _ (fun c hc => (List.not_mem_nil hc).elim) h).1
    rw [Scanned, if_pos hnil]
    simp only [Sh.shcnt, Sh.shlim, Nat.sub_self]
  | @zero t' h ht stop =>
    obtain ⟨htake, hdrop⟩ := takeWhile_digits (zero_digits (Nat.le_of_succ_le h₁)) stop
    rw [List.singleton_append, ← h] at htake hdrop
    have hdigits : (Subject.of neg base t).digits = [ch '0'] := htake
    have htail : (Subject.of neg base t).tail = t' := hdrop
    have habs : (Subject.of neg base t).abs = 0 := by
      rw [Subject.abs, hdigits, numberOf_zero, numberOf_nil]
    rw [Scanned, hdigits, if_neg (List.cons_ne_nil _ _), habs, result_zero hlim, htail, ht]
    simp only [Sh.shcnt, Sh.before, List.length_append, List.length_cons, List.length_nil, Prod.mk.injEq]
    exact ⟨trivial, by omega, trivial⟩
  | @some zs u' t' h hu h0' zeros =>
    obtain ⟨hne, habs, htail⟩ := of_zeros (Nat.le_of_succ_le h₁) h zeros neg
    have hsplit := congrArg List.length (List.takeWhile_append_dropWhile (p := (Digit (baseOf base t).1 ·)) (l := t'))
    rw [List.length_append] at hsplit
    rw [Scanned, if_neg hne, habs, htail, hu]
    simp only
    rw [scanDigits_look h₁ h₂ lim neg 0 u' h0']
    simp only [Sh.shcnt, Sh.before, List.length_append, Prod.mk.injEq]
    exact ⟨rfl, by omega, rfl⟩

/-- **`strtox`** converts the subject. -/
theorem strtox_subject {base lim : Nat} {s : List Byte} (hb : ¬(base > 36 ∨ base = 1)) (hlim : 0 < lim)
    (h0 : (0 : Byte) ∈ s) : strtox s base lim =
      if (subject base s).digits = [] then (0, 0, some .einval)
      else ((result lim (subject base s).neg (subject base s).abs).1, s.length - (subject base s).tail.length,
        (result lim (subject base s).neg (subject base s).abs).2) := by
  have hspace := skipSpace_look 0 (n := s.length + 1) (shgetc_before 0 [] s) (Nat.le_succ _)
  obtain ⟨h1, u, hu, hsign⟩ := sign_look 0 ([] ++ s.takeWhile white) (mem_dropWhile_white h0)
  rw [List.nil_append, List.takeWhile_append_dropWhile] at hu
  have hlen : (Sh.before 0 [] s).s.length = s.length := rfl
  have hscan := scanNumber_look hb hlim (signOf (s.dropWhile white)).1 u h1
  rw [Scanned, ← hu] at hscan
  rw [strtox, intscan, if_neg hb]
  simp only [hlen, hspace, hsign]
  exact hscan

/-! ## Signed and unsigned -/

/-- The result of `strtoul`: a sign negates modulo `2 ^ 64`, and what does not fit in 64 bits is the greatest number. -/
def Subject.toUlong (n : Subject) : Word :=
  if n.abs ≤ ullongMax then if n.neg then -BitVec.ofNat 64 n.abs else BitVec.ofNat 64 n.abs else -1

theorem result_long (n : Subject) : (result (2 ^ 63) n.neg n.abs).1.toInt = toLong n.value ∧
    (result (2 ^ 63) n.neg n.abs).2 = if toLong n.value = n.value then none else some .erange := by
  rw [result]
  split
  · exact finish_long n.neg rfl
  · rename_i h
    have heven : ¬2 ^ 63 % 2 = 1 := by decide
    rw [if_neg heven]
    exact finish_long_over (Nat.lt_of_not_le h) n.neg rfl

theorem result_ulong (n : Subject) : result ullongMax n.neg n.abs =
    (n.toUlong, if n.abs ≤ ullongMax then none else some .erange) := by
  rw [result, Subject.toUlong]
  split
  · rename_i h
    exact finish_ulong h n.neg
  · have hodd : ullongMax % 2 = 1 := by decide
    rw [if_pos hodd]
    rfl

/-- **`strtol` and `strtoul`**, for every base and every text that ends with a NUL somewhere. -/
theorem strtol_spec (base : Nat) {s : List Byte} (h0 : (0 : Byte) ∈ s) :
    let n := subject base s
    if base > 36 ∨ base = 1 ∨ n.digits = [] then
      strtol s base = (0, 0, some .einval) ∧ strtoul s base = (0, 0, some .einval)
    else
      ((strtol s base).1.toInt = toLong n.value ∧ (strtol s base).2 = (s.length - n.tail.length,
        if toLong n.value = n.value then none else some .erange)) ∧
      strtoul s base = (n.toUlong, s.length - n.tail.length, if n.abs ≤ ullongMax then none else some .erange) := by
  simp only
  by_cases hb : base > 36 ∨ base = 1
  · rw [if_pos (by omega)]
    have hbad (lim : Nat) : strtox s base lim = (0, 0, some .einval) := by
      rw [strtox, intscan, if_pos hb]
      rfl
    exact ⟨hbad _, hbad _⟩
  have hlong := @strtox_subject base (2 ^ 63) s hb (by decide) h0
  have hulong := @strtox_subject base ullongMax s hb (by decide) h0
  by_cases hnil : (subject base s).digits = []
  · rw [if_pos hnil] at hlong hulong
    rw [if_pos (.inr (.inr hnil))]
    exact ⟨hlong, hulong⟩
  · rw [if_neg hnil] at hlong hulong
    obtain ⟨hret, herr⟩ := result_long (subject base s)
    rw [if_neg (by tauto), strtol, strtoul, hlong, hulong, result_ulong]
    exact ⟨⟨hret, by rw [herr]⟩, rfl⟩

/-- `"\t-0x1Fz"` in base 0. -/
theorem strtol_spec_hex :
    let s := [ch '\t', ch '-', ch '0', ch 'x', ch '1', ch 'F', ch 'z', 0]
    (strtol s 0).1.toInt = -31 ∧ (strtol s 0).2 = (6, none) := by
  have hn : subject 0 [ch '\t', ch '-', ch '0', ch 'x', ch '1', ch 'F', ch 'z', 0] =
      ⟨true, 16, [ch '1', ch 'F'], [ch 'z', 0]⟩ := rfl
  have h := strtol_spec 0 (s := [ch '\t', ch '-', ch '0', ch 'x', ch '1', ch 'F', ch 'z', 0]) (by decide)
  simp only [hn] at h
  rw [if_neg (by decide)] at h
  obtain ⟨⟨hret, hrest⟩, -⟩ := h
  exact ⟨hret.trans (by decide), hrest.trans (by decide)⟩

end Synthol.Stdlib
