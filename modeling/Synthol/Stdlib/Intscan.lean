import Synthol.Data.Numeral
import Synthol.Stdio.File

/-!
# __intscan

`__intscan` of `src/musl/src/internal`, which every function that reads an integer calls, on the characters that `shgetc`
gives. Characters are bytes, `none` is `EOF`; `unsigned` and `unsigned long long` are numbers modulo `2 ^ 32` and
`2 ^ 64`.

A state in which the character `t.head?` has been read is `Sh.look u t`: `u` is what is before it. What the loops read is
said as a part of the text (`accumulate_look`), so that the digits are the longest run of them, and the number is theirs
unless it exceeds 64 bits (`number_look`).
-/

namespace Synthol.Stdlib

open X86 Stdio

/-! ## Characters -/

inductive Errno
  | einval | erange
  deriving DecidableEq

/-- What `shgetc` reads; `mark` is where `shlim` has been, and at the end of the file `shend` is `NULL`. -/
structure Sh where
  s : List Byte
  pos : Nat
  mark : Nat
  ended : Bool
  deriving DecidableEq

namespace Sh

def shgetc (x : Sh) : Option Byte × Sh :=
  match x.s[x.pos]? with
  | some b => (some b, { x with pos := x.pos + 1 })
  | none => (none, { x with ended := true })

def shunget (x : Sh) : Sh := if x.ended then x else { x with pos := x.pos - 1 }

/-- `shlim(f, 0)` -/
def shlim (x : Sh) : Sh := { x with mark := x.pos, ended := false }

def shcnt (x : Sh) : Nat := x.pos - x.mark

end Sh

def isspace : Option Byte → Bool
  | none => false
  | some c => c = ch ' ' ∨ c.setWidth 32 - (ch '\t').setWidth 32 < (5 : BitVec 32)

/-- `table` -/
def val : Option Byte → Nat
  | none => 255
  | some c =>
    if ch '0' ≤ c ∧ c ≤ ch '9' then c.toNat - (ch '0').toNat
    else if ch 'A' ≤ c ∧ c ≤ ch 'Z' then c.toNat - (ch 'A').toNat + 10
    else if ch 'a' ≤ c ∧ c ≤ ch 'z' then c.toNat - (ch 'a').toNat + 10
    else 255

/-- `c-'0'`, as an `unsigned`. -/
def dec : Option Byte → Nat
  | none => 2 ^ 32 - 1 - 48
  | some c => (c.setWidth 32 - (ch '0').setWidth 32 : BitVec 32).toNat

def uintMax : Nat := 2 ^ 32 - 1
def ullongMax : Nat := 2 ^ 64 - 1

/-! ## The function -/

/-- `while (isspace((c=shgetc(f))));` for `n` rounds at most. -/
def skipSpace : Nat → Sh → Option Byte × Sh
  | 0, x => x.shgetc
  | n + 1, x => if isspace x.shgetc.1 then skipSpace n x.shgetc.2 else x.shgetc

/-- `for (; go; c=shgetc(f)) y = next;` for `n` rounds at most. -/
def accumulate (go : Option Byte → Nat → Prop) [∀ c y, Decidable (go c y)] (next : Option Byte → Nat → Nat) :
    Nat → Option Byte → Nat → Sh → Option Byte × Nat × Sh
  | 0, c, y, x => (c, y, x)
  | n + 1, c, y, x =>
    if go c y then accumulate go next n x.shgetc.1 (next c y) x.shgetc.2 else (c, y, x)

/-- The sign. -/
def sign (c : Option Byte) (x : Sh) : Bool × Option Byte × Sh :=
  if c = some (ch '+') ∨ c = some (ch '-') then (c = some (ch '-'), x.shgetc) else (false, c, x)

/-- The prefix: the base and the first digit, or that there is no number. -/
def radix (base : Nat) (pok : Bool) (c : Option Byte) (x : Sh) : Except (Option Errno × Sh) (Nat × Option Byte × Sh) :=
  if (base = 0 ∨ base = 16) ∧ c = some (ch '0') then
    let (c, x) := x.shgetc
    if c.map (· ||| 32) = some (ch 'x') then
      let (c, x) := x.shgetc
      if val c ≥ 16 then .error (none, if pok then x.shunget.shunget else x.shunget.shlim) else .ok (16, c, x)
    else .ok (if base = 0 then 8 else base, c, x)
  else
    let base := if base = 0 then 10 else base
    if val c ≥ base then .error (some .einval, x.shunget.shlim) else .ok (base, c, x)

/-- The number as far as it does not exceed `ULLONG_MAX`: first in an `unsigned`, then in an `unsigned long long`. -/
def number (base : Nat) (c : Option Byte) (x : Sh) : Option Byte × Nat × Sh :=
  let n := x.s.length
  if base = 10 then
    let (c, y, x) := accumulate (fun c y => dec c < 10 ∧ y ≤ uintMax / 10 - 1)
      (fun c y => (y * 10 + dec c) % 2 ^ 32) n c 0 x
    accumulate (fun c y => dec c < 10 ∧ y ≤ ullongMax / 10 ∧ 10 * y ≤ ullongMax - dec c)
      (fun c y => (y * 10 + dec c) % 2 ^ 64) n c y x
  else if base &&& (base - 1) = 0 then
    let bs := [0, 1, 2, 4, 7, 3, 6, 5].getD ((0x17 * base) >>> 5 &&& 7) 0
    let (c, y, x) := accumulate (fun c y => val c < base ∧ y ≤ uintMax / 32)
      (fun c y => (y <<< bs) % 2 ^ 32 ||| val c) n c 0 x
    accumulate (fun c y => val c < base ∧ y ≤ ullongMax >>> bs)
      (fun c y => (y <<< bs) % 2 ^ 64 ||| val c) n c y x
  else
    let (c, y, x) := accumulate (fun c y => val c < base ∧ y ≤ uintMax / 36 - 1)
      (fun c y => (y * base + val c) % 2 ^ 32) n c 0 x
    accumulate (fun c y => val c < base ∧ y ≤ ullongMax / base ∧ base * y ≤ ullongMax - val c)
      (fun c y => (y * base + val c) % 2 ^ 64) n c y x

/-- What is returned, and what `errno` is set to. -/
def finish (lim y : Nat) (neg : Bool) (e : Option Errno) : Word × Option Errno :=
  let n : Word := if neg then -1 else 0
  if y ≥ lim then
    if lim % 2 = 0 ∧ neg = false then (BitVec.ofNat 64 lim - 1, some .erange)
    else if y > lim then (BitVec.ofNat 64 lim, some .erange)
    else ((BitVec.ofNat 64 y ^^^ n) - n, e)
  else ((BitVec.ofNat 64 y ^^^ n) - n, e)

/-- From the first digit on. -/
def scanDigits (base lim : Nat) (neg : Bool) (c : Option Byte) (x : Sh) : Word × Option Errno × Sh :=
  let (c, y, x) := number base c x
  -- base 10 goes to done where the others look at the table
  if ¬(base = 10 ∧ dec c ≥ 10) ∧ val c < base then
    let (_, _, x) := accumulate (fun c _ => val c < base) (fun _ y => y) x.s.length c y x
    let (r, e) := finish lim lim (if lim % 2 = 1 then false else neg) (some .erange)
    (r, e, x.shunget)
  else
    let (r, e) := finish lim y neg none
    (r, e, x.shunget)

/-- From the prefix on. -/
def scanNumber (base : Nat) (pok : Bool) (lim : Nat) (neg : Bool) (c : Option Byte) (x : Sh) :
    Word × Option Errno × Sh :=
  match radix base pok c x with
  | .error (e, x) => (0, e, x)
  | .ok (base, c, x) => scanDigits base lim neg c x

/-- The result, the new `errno` and what is left. -/
def intscan (base : Nat) (pok : Bool) (lim : Nat) (x : Sh) : Word × Option Errno × Sh :=
  if base > 36 ∨ base = 1 then (0, some .einval, x)
  else
    let (c, x) := skipSpace (x.s.length + 1) x
    let (neg, c, x) := sign c x
    scanNumber base pok lim neg c x

/-! ## What has been read -/

/-- `t.head?` has been read, `u` is what is before it. -/
def Sh.look (m : Nat) (u t : List Byte) : Sh :=
  { s := u ++ t, pos := u.length + min 1 t.length, mark := m, ended := t.isEmpty }

/-- Nothing of `t` has been read. -/
def Sh.before (m : Nat) (u t : List Byte) : Sh := { s := u ++ t, pos := u.length, mark := m, ended := false }

section

variable (m : Nat) (u t : List Byte) (b : Byte)

theorem shgetc_before : (Sh.before m u t).shgetc = (t.head?, Sh.look m u t) := by
  cases t with
  | nil => simp [Sh.shgetc, Sh.before, Sh.look]
  | cons b t => simp [Sh.shgetc, Sh.before, Sh.look]

theorem shgetc_look : (Sh.look m u (b :: t)).shgetc = (t.head?, Sh.look m (u ++ [b]) t) := by
  cases t with
  | nil => simp [Sh.shgetc, Sh.look]
  | cons c t => simp [Sh.shgetc, Sh.look]

theorem shunget_look : (Sh.look m u (b :: t)).shunget = Sh.before m u (b :: t) := by
  simp [Sh.shunget, Sh.look, Sh.before]

theorem shunget_before : (Sh.before m (u ++ [b]) t).shunget = Sh.before m u (b :: t) := by
  simp [Sh.shunget, Sh.before]

end

def white (c : Byte) : Bool := isspace (some c)

/-- **White space** is read up to the first other character. -/
theorem skipSpace_look (m : Nat) : ∀ {n : Nat} {x : Sh} {u t : List Byte}, x.shgetc = (t.head?, Sh.look m u t) →
    t.length ≤ n → skipSpace n x = ((t.dropWhile white).head?,
      Sh.look m (u ++ t.takeWhile white) (t.dropWhile white))
  | 0, x, u, t, hx, h => by
    obtain rfl := List.length_eq_zero_iff.mp (Nat.le_zero.mp h)
    rw [skipSpace, hx]
    simp
  | n + 1, x, u, [], hx, _ => by
    simp [skipSpace, hx, isspace]
  | n + 1, x, u, b :: t, hx, h => by
    rw [skipSpace, hx, List.head?_cons]
    by_cases hb : white b = true
    · rw [if_pos (show isspace (some b) = true from hb), List.dropWhile_cons_of_pos hb, List.takeWhile_cons_of_pos hb,
        skipSpace_look m (shgetc_look m u t b) (Nat.le_of_succ_le_succ h), List.append_assoc]
      rfl
    · rw [if_neg (show ¬isspace (some b) = true from hb), List.dropWhile_cons_of_neg hb, List.takeWhile_cons_of_neg hb,
        List.append_nil]
      rfl

/-- **A loop** reads some more of the text and keeps what each round keeps, until it may not go on. -/
theorem accumulate_look {go : Option Byte → Nat → Prop} [∀ c y, Decidable (go c y)] {next : Option Byte → Nat → Nat}
    {I : List Byte → Nat → Prop} (hnone : ∀ y, ¬go none y)
    (step : ∀ {ds b y}, I ds y → go (some b) y → I (ds ++ [b]) (next (some b) y)) (m : Nat) :
    ∀ {n : Nat} {u t ds : List Byte} {y : Nat}, t.length ≤ n → I ds y → ∃ es t' y', t = es ++ t' ∧
      accumulate go next n t.head? y (Sh.look m u t) = (t'.head?, y', Sh.look m (u ++ es) t') ∧ I (ds ++ es) y' ∧
        ¬go t'.head? y'
  | 0, u, t, ds, y, h, hi => by
    obtain rfl := List.length_eq_zero_iff.mp (Nat.le_zero.mp h)
    exact ⟨[], [], y, rfl, by rw [accumulate, List.append_nil], by rwa [List.append_nil], hnone y⟩
  | n + 1, u, [], ds, y, _, hi =>
    ⟨[], [], y, rfl, by rw [accumulate, List.head?_nil, if_neg (hnone y), List.append_nil], by rwa [List.append_nil],
      hnone y⟩
  | n + 1, u, b :: t, ds, y, h, hi => by
    rw [accumulate, List.head?_cons]
    by_cases hg : go (some b) y
    · obtain ⟨es, t', y', rfl, hacc, hi', hstop⟩ := accumulate_look hnone step m (u := u ++ [b])
        (Nat.le_of_succ_le_succ h) (step hi hg)
      refine ⟨b :: es, t', y', rfl, ?_, ?_, hstop⟩
      · rw [if_pos hg, shgetc_look, hacc, List.append_assoc]
        rfl
      · rwa [List.append_assoc] at hi'
    · refine ⟨[], b :: t, y, rfl, ?_, by rwa [List.append_nil], hg⟩
      rw [if_neg hg, List.append_nil, List.head?_cons]

/-! ## Digits -/

/-- A digit in base `b`. -/
def Digit (b : Nat) (c : Byte) : Prop := val (some c) < b

instance (b : Nat) (c : Byte) : Decidable (Digit b c) := inferInstanceAs (Decidable (_ < _))

/-- The number that digits stand for. -/
def numberOf (b : Nat) (ds : List Byte) : Nat := Numeral.value b (ds.map fun c => val (some c))

theorem numberOf_nil (b : Nat) : numberOf b [] = 0 := rfl

theorem numberOf_concat (b : Nat) (ds : List Byte) (c : Byte) :
    numberOf b (ds ++ [c]) = numberOf b ds * b + val (some c) := by
  rw [numberOf, List.map_append, List.map_singleton, Numeral.value_concat]
  rfl

/-- More digits do not make it less. -/
theorem numberOf_le {b : Nat} (hb : 1 ≤ b) (ds es : List Byte) : numberOf b ds ≤ numberOf b (ds ++ es) := by
  induction es using List.reverseRecOn with
  | nil => rw [List.append_nil]
  | append_singleton es c ih =>
    rw [← List.append_assoc, numberOf_concat]
    have hm := Nat.mul_le_mul_left (numberOf b (ds ++ es)) hb
    omega

theorem dec_toNat (c : Byte) : dec (some c) = (2 ^ 32 - 48 + c.toNat) % 2 ^ 32 := by
  have hc : c.toNat < 256 := c.isLt
  have h0 : ((ch '0').setWidth 32 : BitVec 32).toNat = 48 := rfl
  rw [dec, BitVec.toNat_sub, h0, BitVec.toNat_setWidth, Nat.mod_eq_of_lt (by omega : c.toNat < 2 ^ 32)]

theorem val_toNat (c : Byte) : val (some c) =
    if 48 ≤ c.toNat ∧ c.toNat ≤ 57 then c.toNat - 48
    else if 65 ≤ c.toNat ∧ c.toNat ≤ 90 then c.toNat - 65 + 10
    else if 97 ≤ c.toNat ∧ c.toNat ≤ 122 then c.toNat - 97 + 10
    else 255 := rfl

/-- In base 10 the code looks at the character, not at the table. -/
theorem dec_lt (c : Byte) : dec (some c) < 10 ↔ Digit 10 c := by
  have hc : c.toNat < 256 := c.isLt
  rw [Digit, dec_toNat, val_toNat]
  split_ifs <;> omega

theorem dec_eq {c : Byte} (h : Digit 10 c) : dec (some c) = val (some c) := by
  have hc : c.toNat < 256 := c.isLt
  rw [Digit, val_toNat] at h
  rw [dec_toNat, val_toNat]
  split_ifs at h ⊢ <;> omega

/-! ## The number -/

/-- A round takes a digit, and the new number is less than `k`. -/
def Takes (base k : Nat) (go : Option Byte → Nat → Prop) (next : Option Byte → Nat → Nat) : Prop :=
  ∀ {c y}, go (some c) y → Digit base c ∧ next (some c) y = y * base + val (some c) ∧ y * base + val (some c) < k

/-- Digits, and what they stand for. -/
structure Sofar (base k : Nat) (ds : List Byte) (y : Nat) : Prop where
  digits : ∀ c ∈ ds, Digit base c
  eq : y = numberOf base ds
  lt : y < k

theorem Takes.step {base k : Nat} {go : Option Byte → Nat → Prop} {next : Option Byte → Nat → Nat}
    (h : Takes base k go next) {ds : List Byte} {c : Byte} {y : Nat} (hs : Sofar base k ds y) (hg : go (some c) y) :
    Sofar base k (ds ++ [c]) (next (some c) y) := by
  obtain ⟨hd, hnext, hlt⟩ := h hg
  refine ⟨fun e he => ?_, ?_, by rwa [hnext]⟩
  · rcases List.mem_append.mp he with he | he
    · exact hs.digits e he
    · rwa [List.mem_singleton.mp he]
  · rw [hnext, numberOf_concat, hs.eq]

/-- What `number` does with the text `t`: it reads digits `ds`, until there are no more, or the number would exceed
`ULLONG_MAX`. -/
def Numbered (base m : Nat) (u t : List Byte) (r : Option Byte × Nat × Sh) : Prop :=
  ∃ ds t', t = ds ++ t' ∧ r = (t'.head?, numberOf base ds, Sh.look m (u ++ ds) t') ∧ (∀ c ∈ ds, Digit base c) ∧
    numberOf base ds ≤ ullongMax ∧
    ∀ c, t'.head? = some c → Digit base c → ullongMax < numberOf base (ds ++ [c])

/-- A loop for an `unsigned`, and one for an `unsigned long long`. -/
theorem two_loops {base n m : Nat} {u t : List Byte} {go₁ go₂ : Option Byte → Nat → Prop}
    [∀ c y, Decidable (go₁ c y)] [∀ c y, Decidable (go₂ c y)] {next₁ next₂ : Option Byte → Nat → Nat}
    (h₁ : Takes base (2 ^ 32) go₁ next₁) (h₂ : Takes base (2 ^ 64) go₂ next₂) (hnone₁ : ∀ y, ¬go₁ none y)
    (hnone₂ : ∀ y, ¬go₂ none y)
    (hstop : ∀ {c y}, Digit base c → ¬go₂ (some c) y → ullongMax < y * base + val (some c)) (hn : t.length ≤ n) :
    Numbered base m u t (accumulate go₂ next₂ n (accumulate go₁ next₁ n t.head? 0 (Sh.look m u t)).1
      (accumulate go₁ next₁ n t.head? 0 (Sh.look m u t)).2.1
      (accumulate go₁ next₁ n t.head? 0 (Sh.look m u t)).2.2) := by
  have h0 : Sofar base (2 ^ 32) [] 0 := ⟨fun _ h => (List.not_mem_nil h).elim, (numberOf_nil base).symm, by norm_num⟩
  obtain ⟨ds, t₁, y₁, rfl, hacc₁, hs₁, -⟩ := accumulate_look hnone₁ (I := Sofar base (2 ^ 32)) h₁.step m (u := u) hn h0
  have hs₁' : Sofar base (2 ^ 64) ([] ++ ds) y₁ := ⟨hs₁.digits, hs₁.eq, hs₁.lt.trans (by norm_num)⟩
  have hn₁ : t₁.length ≤ n := by
    rw [List.length_append] at hn
    omega
  obtain ⟨es, t₂, y₂, rfl, hacc₂, hs₂, hend⟩ :=
    accumulate_look hnone₂ (I := Sofar base (2 ^ 64)) h₂.step m (u := u ++ ds) hn₁ hs₁'
  rw [List.nil_append] at hs₂
  have hle : numberOf base (ds ++ es) ≤ ullongMax := by
    rw [← hs₂.eq]
    exact Nat.le_of_lt_succ hs₂.lt
  rw [hacc₁]
  simp only
  rw [hacc₂]
  refine ⟨ds ++ es, t₂, (List.append_assoc _ _ _).symm, ?_, hs₂.digits, hle, fun c hc hd => ?_⟩
  · rw [hs₂.eq, List.append_assoc]
  · rw [hc] at hend
    rw [numberOf_concat, ← hs₂.eq]
    exact hstop hd hend

/-- The power of two that `base` is, from the table in the code. -/
theorem base_eq_pow {base : Nat} (h₁ : 2 ≤ base) (h₂ : base ≤ 36) (h : base &&& (base - 1) = 0) :
    ∃ bs, bs ≤ 5 ∧ base = 2 ^ bs ∧ [0, 1, 2, 4, 7, 3, 6, 5].getD ((0x17 * base) >>> 5 &&& 7) 0 = bs := by
  have hall : ∀ b < 37, 2 ≤ b → b &&& (b - 1) = 0 → ∃ bs < 6, b = 2 ^ bs ∧
      [0, 1, 2, 4, 7, 3, 6, 5].getD ((0x17 * b) >>> 5 &&& 7) 0 = bs := by decide
  obtain ⟨bs, hlt, heq, htab⟩ := hall base (Nat.lt_succ_of_le h₂) h₁ h
  exact ⟨bs, Nat.le_of_lt_succ hlt, heq, htab⟩

theorem shift_or {k bs y v : Nat} (hy : y * 2 ^ bs < k) (hv : v < 2 ^ bs) :
    (y <<< bs) % k ||| v = y * 2 ^ bs + v := by
  rw [Nat.shiftLeft_eq, Nat.mod_eq_of_lt hy, ← Nat.shiftLeft_eq, Nat.shiftLeft_add_eq_or_of_lt hv]

/-- What the second loop asks for. -/
theorem fits_iff {b k y v : Nat} (hv : v < b) (hb : b ≤ k) : y ≤ k / b ∧ b * y ≤ k - v ↔ y * b + v ≤ k := by
  rw [Nat.mul_comm b y, Nat.le_div_iff_mul_le (Nat.zero_lt_of_lt hv)]
  omega

theorem val_none {base : Nat} (h : base ≤ 36) : ¬val none < base := by
  rw [val]
  omega

/-- The second loop, where neither the character nor the shift is special. -/
theorem takes_long {base : Nat} (h : base ≤ 36) : Takes base (2 ^ 64)
    (fun c y => val c < base ∧ y ≤ ullongMax / base ∧ base * y ≤ ullongMax - val c)
    (fun c y => (y * base + val c) % 2 ^ 64) := by
  intro c y ⟨hd, hy⟩
  have hle := (fits_iff hd (h.trans (by decide))).mp hy
  have hlt : y * base + val (some c) < 2 ^ 64 := Nat.lt_of_le_of_lt hle (by decide)
  exact ⟨hd, Nat.mod_eq_of_lt hlt, hlt⟩

theorem number_ten (m : Nat) (u t : List Byte) : Numbered 10 m u t (number 10 t.head? (Sh.look m u t)) := by
  have hn : t.length ≤ (Sh.look m u t).s.length := by
    rw [Sh.look, List.length_append]
    omega
  have hnone : ¬dec none < 10 := by decide
  rw [number, if_pos rfl]
  refine two_loops ?_ ?_ (fun y h => hnone h.1) (fun y h => hnone h.1) ?_ hn
  · intro c y ⟨hd, hy⟩
    have hdig := (dec_lt c).mp hd
    have hmax : uintMax / 10 - 1 = 429496728 := rfl
    rw [dec_eq hdig] at hd
    simp only [dec_eq hdig]
    have hlt : y * 10 + val (some c) < 2 ^ 32 := by omega
    exact ⟨hdig, Nat.mod_eq_of_lt hlt, hlt⟩
  · intro c y ⟨hd, hy⟩
    have hdig := (dec_lt c).mp hd
    rw [dec_eq hdig] at hy
    simp only [dec_eq hdig]
    exact takes_long (by decide) ⟨hdig, hy⟩
  · intro c y hdig hg
    rw [dec_eq hdig, fits_iff hdig (by decide)] at hg
    exact Nat.lt_of_not_le fun hle => hg ⟨hdig, hle⟩

theorem number_pow {base : Nat} (h₁ : 2 ≤ base) (h₂ : base ≤ 36) (h10 : base ≠ 10) (hpow : base &&& (base - 1) = 0)
    (m : Nat) (u t : List Byte) : Numbered base m u t (number base t.head? (Sh.look m u t)) := by
  have hn : t.length ≤ (Sh.look m u t).s.length := by
    rw [Sh.look, List.length_append]
    omega
  obtain ⟨bs, hbs, heq, htab⟩ := base_eq_pow h₁ h₂ hpow
  have h32 : base ≤ 32 := heq ▸ Nat.pow_le_pow_right (by decide) hbs
  -- the second loop stops where the next number would need a 65th bit
  have hq : ∀ k < 6, ullongMax >>> k + 1 = 2 ^ (64 - k) := by decide
  have hmul : (ullongMax >>> bs + 1) * base = 2 ^ 64 := by
    rw [hq bs (by omega), heq, ← Nat.pow_add, Nat.sub_add_cancel (by omega)]
  rw [number, if_neg h10, if_pos hpow]
  simp only [htab]
  refine two_loops ?_ ?_ (fun y h => val_none h₂ h.1) (fun y h => val_none h₂ h.1) ?_ hn
  · intro c y ⟨hd, hy⟩
    have hmax : uintMax / 32 = 134217727 := rfl
    have hle : y * base ≤ 134217727 * 32 := Nat.mul_le_mul (by omega) h32
    refine ⟨hd, ?_, by omega⟩
    rw [heq] at hd hle ⊢
    exact shift_or (by omega) hd
  · intro c y ⟨hd, hy⟩
    have hle : (y + 1) * base ≤ (ullongMax >>> bs + 1) * base := Nat.mul_le_mul_right _ (Nat.succ_le_succ hy)
    rw [hmul, Nat.succ_mul] at hle
    refine ⟨hd, ?_, by omega⟩
    rw [heq] at hd hle ⊢
    exact shift_or (by omega) hd
  · intro c y hdig hg
    have hy : ullongMax >>> bs + 1 ≤ y := Nat.lt_of_not_le fun hle => hg ⟨hdig, hle⟩
    have hle := Nat.mul_le_mul_right base hy
    rw [hmul] at hle
    have hmax : ullongMax < 2 ^ 64 := by decide
    omega

theorem number_other {base : Nat} (h₂ : base ≤ 36) (h10 : base ≠ 10) (hpow : base &&& (base - 1) ≠ 0) (m : Nat)
    (u t : List Byte) : Numbered base m u t (number base t.head? (Sh.look m u t)) := by
  have hn : t.length ≤ (Sh.look m u t).s.length := by
    rw [Sh.look, List.length_append]
    omega
  rw [number, if_neg h10, if_neg hpow]
  refine two_loops ?_ (takes_long h₂) (fun y h => val_none h₂ h.1) (fun y h => val_none h₂ h.1) ?_ hn
  · intro c y ⟨hd, hy⟩
    have hmax : uintMax / 36 - 1 = 119304646 := rfl
    have hle : y * base ≤ 119304646 * 36 := Nat.mul_le_mul (by omega) h₂
    have hlt : y * base + val (some c) < 2 ^ 32 := by omega
    exact ⟨hd, Nat.mod_eq_of_lt hlt, hlt⟩
  · intro c y hdig hg
    rw [fits_iff hdig (h₂.trans (by decide))] at hg
    exact Nat.lt_of_not_le fun hle => hg ⟨hdig, hle⟩

/-- **The number** that is read. -/
theorem number_look {base : Nat} (h₁ : 2 ≤ base) (h₂ : base ≤ 36) (m : Nat) (u t : List Byte) :
    Numbered base m u t (number base t.head? (Sh.look m u t)) := by
  by_cases h10 : base = 10
  · subst h10
    exact number_ten m u t
  by_cases hpow : base &&& (base - 1) = 0
  · exact number_pow h₁ h₂ h10 hpow m u t
  · exact number_other h₂ h10 hpow m u t

end Synthol.Stdlib
