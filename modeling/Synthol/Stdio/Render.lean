import Synthol.Stdio.Items
import Synthol.Stdio.Padded

/-!
# Integers, characters and strings

What the conversions of integers, characters and strings are to write, said without the pointers, the prefix table and
the shared tail of `printf_core` (`Conv.spec`): a sign or a prefix, at least as many digits as the precision, moved to one
side of the width.

- the common tail writes a field (`emit_text`), the end of the integer cases a number (`integer_text`);
- `strnlen` is the length of the string, cut to the precision (`slice_strnlen`);
- `convert` writes what is specified, and fails exactly where that is longer than the count allows (`convert_spec`);
- a list of bytes and such conversions prints the texts in a row (`Prints.chars`, `Prints.dir`).
-/

namespace Synthol.Stdio

open X86 Numeral

/-! ## Specification -/

/-- The digits of a number, at least `least` of them. -/
def digitText (b : Nat) (d : Nat → Byte) (least x : Nat) : Frag :=
  List.replicate (least - (Nat.digits b x).length) (ch '0') ++ (Nat.digits b x).reverse.map d

/-- The string from `a` on, cut to `n` bytes. -/
def cstring (a : Block Byte) (n : Nat) : Frag := (a.slice 0 n).takeWhile (· ≠ 0)

def hexDigit (lower : Byte) (k : Nat) : Byte := xdigits.getD k 0 ||| lower

section

variable {F : Type} (c : Conv F)

/-- A `0` is ignored where there is a precision. -/
def Conv.numberFlags : Flags := if c.xp then c.flags.noZero else c.flags

/-- Without a precision there is one digit at least. -/
def Conv.least : Nat := if c.p < 0 then 1 else c.p.toNat

/-- An integer. The precision may be a number that no `int` holds; `%#o` does not look. -/
def Conv.number : Except Stop Frag :=
  let x := c.arg.i
  let out (pre : Frag) (b : Nat) (d : Nat → Byte) (least n : Nat) : Frag :=
    padded c.w c.numberFlags pre (digitText b d least n)
  if c.letter = ch 'o' ∧ c.flags.altForm then
    .ok (out [] 8 dig (max c.least ((Nat.digits 8 x.toNat).length + 1)) x.toNat)
  else if c.xp ∧ c.p < 0 then .error .overflow
  else if c.letter = ch 'p' then
    .ok (out (if x = 0 then [] else text ['0', 'x']) 16 (hexDigit 32) (if c.p < 0 then 1 else max c.p.toNat 16) x.toNat)
  else if c.letter = ch 'x' then
    .ok (out (if x ≠ 0 ∧ c.flags.altForm then text ['0', 'x'] else []) 16 (hexDigit 32) c.least x.toNat)
  else if c.letter = ch 'X' then
    .ok (out (if x ≠ 0 ∧ c.flags.altForm then text ['0', 'X'] else []) 16 (hexDigit 0) c.least x.toNat)
  else if c.letter = ch 'o' then .ok (out [] 8 dig c.least x.toNat)
  else if c.letter = ch 'u' then .ok (out [] 10 dig c.least x.toNat)
  else .ok (out (sign x.msb c.flags) 10 dig c.least x.toInt.natAbs)

/-- A string, as much of it as the precision says. -/
def Conv.stringText (a : Block Byte) : Except Stop Frag :=
  if c.p < 0 ∧ ∀ k ≤ intMax.toNat, a k ≠ 0 then .error .overflow
  else .ok (padded c.w c.flags.noZero [] (cstring a (if c.p < 0 then intMax else c.p).toNat))

/-- The conversions that go through the common tail. -/
def Conv.spec (env : Env F) (m : Mem) : Except Stop Frag :=
  if c.letter = ch 'c' then .ok (padded c.w c.flags.noZero [] [c.arg.i.setWidth 8])
  else if c.letter = ch 'm' then c.stringText (bytesAt m env.strerror)
  else if ['d', 'i', 'u', 'o', 'x', 'X', 'p'].any fun d => ch d = c.letter then c.number
  else c.stringText (if c.arg.i = 0 then nullText else bytesAt m c.arg.i)

end

/-! ## The tail -/

/-- What a field is to write. -/
def Field.text (w : Int) (b : Field) : Frag :=
  padded w b.fl b.pre (List.replicate (b.p - b.a.length).toNat (ch '0') ++ b.a)

/-- A text, if the count allows it. -/
def counting (cnt : Nat) (t : Frag) : Except Stop (Frag × Nat) :=
  if (t.length : Int) > intMax - cnt then .error .overflow else .ok (t, t.length)

/-- The text of a conversion and what is counted for it. -/
def joined (r : List Frag × Nat) : Frag × Nat := (r.1.flatten, r.2)

/-- **The common tail** writes the field. -/
theorem emit_text (cnt : Nat) (w : Int) {b : Field} (hfl : b.fl.Proper) :
    (emit cnt w b).map joined = counting cnt (b.text w) := by
  have hlen := length_padded w b.fl b.pre (List.replicate (b.p - b.a.length).toNat (ch '0') ++ b.a)
  have hbody : ((List.replicate (b.p - b.a.length).toNat (ch '0') ++ b.a).length : Int) = max b.p b.a.length := by
    simp only [List.length_append, List.length_replicate]
    omega
  rw [hbody] at hlen
  simp only [emit, counting, Field.text, hlen]
  by_cases hp : max b.p b.a.length > intMax - b.pre.length
  · rw [if_pos hp, if_pos (by omega)]
    rfl
  rw [if_neg hp]
  by_cases hw : max w (b.pre.length + max b.p b.a.length) > intMax - cnt
  · rw [if_pos hw, if_pos hw]
    rfl
  rw [if_neg hw, if_neg hw]
  have hpads := pads_flatten hfl (max w (b.pre.length + max b.p b.a.length)) b.pre
    (List.replicate (b.p - b.a.length).toNat (ch '0') ++ b.a)
  have hmax : padded (max w (b.pre.length + max b.p b.a.length)) b.fl b.pre
      (List.replicate (b.p - b.a.length).toNat (ch '0') ++ b.a) =
      padded w b.fl b.pre (List.replicate (b.p - b.a.length).toNat (ch '0') ++ b.a) := by
    simp only [padded, hbody]
    rw [show (max w (b.pre.length + max b.p b.a.length) - (b.pre.length + max b.p b.a.length)).toNat =
      (w - (b.pre.length + max b.p b.a.length)).toNat by omega]
  have hzeros : (max b.p b.a.length - b.a.length).toNat = (b.p - b.a.length).toNat := by omega
  rw [hbody, hmax] at hpads
  simp only [Except.map, joined, List.flatten_append, List.flatten_singleton, zeros_flatten, hzeros]
  rw [← hpads] at hlen ⊢
  refine congrArg Except.ok (Prod.ext ?_ ?_)
  · simp only [List.append_assoc]
  · simp only
    omega

/-! ## Integers -/

theorem fmtDigits_digits {b : Nat} (hb : 2 ≤ b) (d : Nat → Byte) (x : Word) :
    fmtDigits b d x = (Nat.digits b x.toNat).reverse.map d := by
  have hx : x.toNat < b ^ 64 := Nat.lt_of_lt_of_le x.isLt (Nat.pow_le_pow_left hb 64)
  rw [fmtDigits, numeral_eq (by omega) hx]

theorem toNat_eq_zero {x : Word} : x.toNat = 0 ↔ x = 0 := by
  constructor
  · intro h
    exact BitVec.eq_of_toNat_eq h
  · rintro rfl
    rfl

/-- **The end of the integer cases** leaves a number; `y` is `x` or its opposite. -/
theorem integer_text (cnt : Nat) (w : Int) {b : Nat} (hb : 2 ≤ b) (d : Nat → Byte) (xp : Bool) {x y : Word}
    (hy : y = 0 ↔ x = 0) (pre : Frag) (p : Int) {fl : Flags} (hfl : fl.Proper) :
    (integer xp x pre (fmtDigits b d y) p fl >>= emit cnt w).map joined =
      if xp ∧ p < 0 then .error .overflow
      else counting cnt (padded w (if xp then fl.noZero else fl) pre
        (digitText b d (if p < 0 then 1 else p.toNat) y.toNat)) := by
  have hlen : (fmtDigits b d y).length = (Nat.digits b y.toNat).length := by
    rw [fmtDigits_digits hb, List.length_map, List.length_reverse]
  have hproper : (if xp then fl.noZero else fl).Proper := by
    split
    · exact Flags.noZero_proper _
    · exact hfl
  simp only [integer]
  by_cases hxp : xp = true ∧ p < 0
  · rw [if_pos hxp, if_pos hxp]
    rfl
  rw [if_neg hxp, if_neg hxp]
  by_cases h0 : x = 0 ∧ p = 0
  · rw [if_pos h0]
    simp only [bind, Except.bind]
    rw [emit_text cnt w hproper]
    obtain ⟨hx, rfl⟩ := h0
    rw [hy.mpr hx]
    simp [Field.text, digitText]
  · -- a zero has no digits, and every other number has one
    have hzeros : (max p ((fmtDigits b d y).length + if x = 0 then 1 else 0) - (fmtDigits b d y).length).toNat =
        (if p < 0 then 1 else p.toNat) - (Nat.digits b y.toNat).length := by
      rw [hlen]
      by_cases hx : x = 0
      · have hnil : (Nat.digits b y.toNat).length = 0 := by
          rw [toNat_eq_zero.mpr (hy.mpr hx), Nat.digits_zero, List.length_nil]
        have hp : p ≠ 0 := fun hp => h0 ⟨hx, hp⟩
        rw [if_pos hx, hnil]
        split <;> omega
      · have hpos : 0 < (Nat.digits b y.toNat).length := by
          rw [List.length_pos_iff, ne_eq, Nat.digits_eq_nil_iff_eq_zero]
          exact fun h => hx (hy.mp (toNat_eq_zero.mp h))
        rw [if_neg hx]
        split <;> omega
    rw [if_neg h0]
    simp only [bind, Except.bind]
    rw [emit_text cnt w hproper]
    simp only [Field.text, digitText, hzeros]
    rw [fmtDigits_digits hb]

theorem abs_eq_zero (x : Word) : (if x.msb then -x else x) = 0 ↔ x = 0 := by
  split
  · exact BitVec.neg_eq_zero_iff
  · exact Iff.rfl

theorem toNat_abs (x : Word) : (if x.msb then -x else x).toNat = x.toInt.natAbs := by
  have hlt := x.isLt
  rw [BitVec.toInt_eq_msb_cond]
  cases hm : x.msb with
  | false => simp
  | true =>
    have hge : 2 ^ 63 ≤ x.toNat := by
      rw [BitVec.msb_eq_decide] at hm
      simpa using hm
    simp only [if_true, BitVec.toNat_neg]
    omega

/-! ## Strings -/

theorem strnlenFrom_eq (a : Block Byte) : ∀ n k : Nat,
    strnlenFrom a k n = k + ((a.slice k n).takeWhile (· ≠ 0)).length
  | 0, k => rfl
  | n + 1, k => by
    have hs : a.slice k (n + 1) = a k :: a.slice (k + 1) n := by
      rw [Nat.add_comm, Block.slice_add]
      rfl
    rw [strnlenFrom, hs]
    by_cases h0 : a k = 0
    · rw [if_pos h0, List.takeWhile_cons_of_neg (by simpa using h0), List.length_nil, Nat.add_zero]
    · rw [if_neg h0, List.takeWhile_cons_of_pos (by simpa using h0), strnlenFrom_eq a n (k + 1), List.length_cons]
      omega

theorem strnlen_eq (a : Block Byte) (n : Nat) : strnlen a n = (cstring a n).length := by
  rw [strnlen, strnlenFrom_eq, Nat.zero_add]
  rfl

/-- What `strnlen` covers is the string. -/
theorem slice_strnlen (a : Block Byte) (n : Nat) : a.slice 0 (strnlen a n) = cstring a n := by
  have hle : (cstring a n).length ≤ n := by
    have h := (List.takeWhile_prefix (p := (· ≠ 0)) (l := a.slice 0 n)).length_le
    rwa [Block.length_slice] at h
  rw [strnlen_eq, ← Block.take_slice a 0 hle]
  exact (List.prefix_iff_eq_take.mp (List.takeWhile_prefix _)).symm

/-- `strnlen` stops at a byte that is not NUL only where it may not go on. -/
theorem strnlen_stop (a : Block Byte) (n : Nat) : a (strnlen a n) ≠ 0 ↔ ∀ k ≤ n, a k ≠ 0 := by
  have hfrom : ∀ n k : Nat, a (strnlenFrom a k n) ≠ 0 ↔ ∀ j ≤ n, a (k + j) ≠ 0 := by
    intro n
    induction n with
    | zero =>
      intro k
      rw [strnlenFrom]
      refine ⟨fun h j hj => ?_, fun h => h 0 (Nat.le_refl 0)⟩
      rw [Nat.le_zero.mp hj]
      exact h
    | succ n ih =>
      intro k
      rw [strnlenFrom]
      by_cases h0 : a k = 0
      · rw [if_pos h0]
        exact iff_of_false (fun h => h h0) fun h => h 0 (Nat.zero_le _) h0
      · rw [if_neg h0, ih]
        constructor
        · intro h j hj
          cases j with
          | zero => exact h0
          | succ j =>
            have hj' := h j (by omega)
            rwa [Nat.add_assoc, Nat.add_comm 1] at hj'
        · intro h j hj
          have hj' := h (j + 1) (by omega)
          rwa [Nat.add_comm j, ← Nat.add_assoc] at hj'
  have h := hfrom n 0
  simp only [Nat.zero_add] at h
  exact h

section

variable {F : Type} (c : Conv F)

theorem string_text (cnt : Nat) (a : Block Byte) :
    (string a c.p c.flags >>= emit cnt c.w).map joined = c.stringText a >>= counting cnt := by
  simp only [string, Conv.stringText]
  have hstop : (c.p < 0 ∧ a (strnlen a (if c.p < 0 then intMax else c.p).toNat) ≠ 0) ↔
      (c.p < 0 ∧ ∀ k ≤ intMax.toNat, a k ≠ 0) := by
    refine and_congr_right fun hp => ?_
    rw [if_pos hp]
    exact strnlen_stop a _
  by_cases h : c.p < 0 ∧ a (strnlen a (if c.p < 0 then intMax else c.p).toNat) ≠ 0
  · simp only [if_pos h, if_pos (hstop.mp h)]
    rfl
  · simp only [if_neg h, if_neg (mt hstop.mpr h)]
    simp only [bind, Except.bind]
    rw [emit_text cnt c.w (Flags.noZero_proper _), Field.text]
    simp only [slice_strnlen]
    rw [strnlen_eq, sub_self]
    rfl

end

/-! ## All of them -/

section

variable {F : Type} (c : Conv F)

theorem bind_counting {P : Prop} [Decidable P] (cnt : Nat) (t : Frag) :
    ((if P then .error Stop.overflow else .ok t) >>= counting cnt) = if P then .error .overflow else counting cnt t := by
  split <;> rfl

theorem padded_congr {fl fl' : Flags} (hl : fl.leftAdj = fl'.leftAdj) (hz : fl.zeroPad = fl'.zeroPad) (w : Int)
    (pre body : Frag) : padded w fl pre body = padded w fl' pre body := by
  simp only [padded, hl, hz]

theorem pointer_text (cnt : Nat) (hl : c.letter = ch 'p') (env : Env F) (m : Mem) :
    (c.field env m >>= emit cnt c.w).map joined = c.number >>= counting cnt := by
  have halt : Flags.Proper { c.flags with altForm := true } := c.flags_proper
  simp +decide only [Conv.field, Conv.number, hex, hl, if_false, if_true, false_and, and_true]
  have hint := integer_text cnt c.w (b := 16) (by decide) (hexDigit 32) c.xp (x := c.arg.i) Iff.rfl
    (if c.arg.i ≠ 0 then text ['0', 'x'] else []) (if c.p < 0 then c.p else max c.p 16) halt
  have hneg : (if c.p < 0 then c.p else max c.p 16) < 0 ↔ c.p < 0 := by
    split
    · exact Iff.rfl
    · omega
  have hleast : (if (if c.p < 0 then c.p else max c.p 16) < 0 then 1
      else (if c.p < 0 then c.p else max c.p 16).toNat) = if c.p < 0 then 1 else max c.p.toNat 16 := by
    split
    · rfl
    · rw [if_neg (by omega)]
      omega
  have hpre : (if c.arg.i ≠ 0 then text ['0', 'x'] else []) = if c.arg.i = 0 then [] else text ['0', 'x'] := by
    rw [ite_not]
  rw [hleast] at hint
  simp only [hneg] at hint
  rw [bind_counting, ← hpre]
  refine hint.trans ?_
  split
  · rfl
  · congr 1
    apply padded_congr
    · simp only [Conv.numberFlags]
      split <;> rfl
    · simp only [Conv.numberFlags]
      split <;> rfl

theorem octal_text (cnt : Nat) (hl : c.letter = ch 'o') (env : Env F) (m : Mem) :
    (c.field env m >>= emit cnt c.w).map joined = c.number >>= counting cnt := by
  have hlen : (fmtO c.arg.i).length = (Nat.digits 8 c.arg.i.toNat).length := by
    rw [fmtO, fmtDigits_digits (by decide), List.length_map, List.length_reverse]
  simp +decide only [Conv.field, Conv.number, hl, if_false, if_true, true_and]
  have hint (p : Int) := integer_text cnt c.w (b := 8) (by decide) dig c.xp (x := c.arg.i) Iff.rfl [] p c.flags_proper
  by_cases ha : c.flags.altForm = true
  · rw [if_pos ha]
    simp only [ha, true_and]
    obtain ⟨p, hp⟩ : ∃ p, p = if c.p < (fmtO c.arg.i).length + 1 then ((fmtO c.arg.i).length + 1 : Int) else c.p :=
      ⟨_, rfl⟩
    -- the precision is no longer negative
    have hneg : ¬p < 0 := by
      rw [hp]
      split <;> omega
    have hleast : p.toNat = max c.least ((Nat.digits 8 c.arg.i.toNat).length + 1) := by
      rw [hp, ← hlen, Conv.least]
      split <;> split <;> omega
    have h := hint p
    rw [if_neg fun hxp => hneg hxp.2, if_neg hneg, hleast, hp] at h
    exact h
  · rw [if_neg ha]
    simp only [ha, false_and, if_false, Bool.false_eq_true]
    rw [bind_counting]
    exact hint c.p

/-- An integer. -/
theorem number_text (cnt : Nat) (env : Env F) (m : Mem)
    (h : (['d', 'i', 'u', 'o', 'x', 'X', 'p'].any fun d => ch d = c.letter) = true) :
    (c.field env m >>= emit cnt c.w).map joined = c.number >>= counting cnt := by
  have hc := c.flags_proper
  have hletter : c.letter = ch 'd' ∨ c.letter = ch 'i' ∨ c.letter = ch 'u' ∨ c.letter = ch 'o' ∨ c.letter = ch 'x' ∨
      c.letter = ch 'X' ∨ c.letter = ch 'p' := by
    simp only [List.any_cons, List.any_nil, Bool.or_false, Bool.or_eq_true, decide_eq_true_eq] at h
    simpa only [eq_comm] using h
  rcases hletter with hl | hl | hl | hl | hl | hl | hl
  · simp +decide only [Conv.field, Conv.number, hl, if_false, if_true, false_and, or_false]
    rw [bind_counting, ← toNat_abs]
    exact integer_text cnt c.w (b := 10) (by decide) dig c.xp (abs_eq_zero _) _ c.p hc
  · simp +decide only [Conv.field, Conv.number, hl, if_false, if_true, false_and, or_true]
    rw [bind_counting, ← toNat_abs]
    exact integer_text cnt c.w (b := 10) (by decide) dig c.xp (abs_eq_zero _) _ c.p hc
  · simp +decide only [Conv.field, Conv.number, hl, if_false, if_true, false_and, or_false]
    rw [bind_counting]
    exact integer_text cnt c.w (b := 10) (by decide) dig c.xp Iff.rfl _ c.p hc
  · exact octal_text c cnt hl env m
  · simp +decide only [Conv.field, Conv.number, hex, hl, if_false, if_true, false_and, or_false]
    rw [bind_counting]
    exact integer_text cnt c.w (b := 16) (by decide) (hexDigit 32) c.xp Iff.rfl _ c.p hc
  · simp +decide only [Conv.field, Conv.number, hex, hl, if_false, if_true, false_and, or_true]
    rw [bind_counting]
    exact integer_text cnt c.w (b := 16) (by decide) (hexDigit 0) c.xp Iff.rfl _ c.p hc
  · exact pointer_text c cnt hl env m

theorem field_text (cnt : Nat) (env : Env F) (m : Mem) :
    (c.field env m >>= emit cnt c.w).map joined = c.spec env m >>= counting cnt := by
  simp only [Conv.spec]
  by_cases hc : c.letter = ch 'c'
  · have htext := emit_text cnt c.w (b := ⟨[], [c.arg.i.setWidth 8], 1, c.flags.noZero⟩) (Flags.noZero_proper _)
    simp +decide only [Conv.field, hc, if_false, if_true, or_false]
    exact htext
  rw [if_neg hc]
  by_cases hm : c.letter = ch 'm'
  · simp +decide only [Conv.field, hm, if_false, if_true, or_false]
    exact string_text c cnt _
  rw [if_neg hm]
  by_cases h : (['d', 'i', 'u', 'o', 'x', 'X', 'p'].any fun d => ch d = c.letter) = true
  · rw [if_pos h]
    exact number_text c cnt env m h
  · rw [if_neg h]
    simp only [List.any_cons, List.any_nil, Bool.or_false, Bool.or_eq_true, decide_eq_true_eq, not_or,
      eq_comm (b := c.letter)] at h
    obtain ⟨hd, hi, hu, ho, hx, hX, hp⟩ := h
    simp only [Conv.field, hp, hx, hX, ho, hd, hi, hu, hc, hm, or_self, if_false]
    exact string_text c cnt _

/-- What is not stored, wide or a floating-point number goes through the common tail. -/
theorem convert_joined (env : Env F) (cnt : Nat) (m : Mem) (hn : c.letter ≠ ch 'n') (hw : c.wide = false)
    (hf : c.float = false) : (convert env cnt m c).map (fun r => (joined r.1, r.2)) =
      ((c.field env m >>= emit cnt c.w).map joined).map (·, m) := by
  have hwide : c.letter ≠ ch 'C' ∧ c.letter ≠ ch 'S' := by
    simpa only [Conv.wide, Bool.or_eq_false_iff, decide_eq_false_iff_not] using hw
  have hfield : convert env cnt m c = (c.field env m >>= emit cnt c.w).map (·, m) := by
    rw [convert, if_neg hn, if_neg hwide.1, if_neg hwide.2, hf]
    rfl
  rw [hfield]
  cases c.field env m >>= emit cnt c.w <;> rfl

/-- **A conversion** of an integer, a character or a string writes what is specified, counts its bytes and leaves the
memory as it is; it fails exactly where the specification does or the count would not fit in an `int`. -/
theorem convert_spec (env : Env F) (cnt : Nat) (m : Mem) (hn : c.letter ≠ ch 'n') (hw : c.wide = false)
    (hf : c.float = false) :
    (convert env cnt m c).map (fun r => (joined r.1, r.2)) = (c.spec env m >>= counting cnt).map (·, m) := by
  rw [convert_joined c env cnt m hn hw hf, field_text]

end

/-- `%#7.3x` with the argument 0xab. -/
def hexConv : Conv Empty := ⟨{ altForm := true }, 7, 3, true, .bare, ch 'x', ⟨0xab, ⟨false, .nan⟩⟩⟩

/-- `%#7.3x` of 0xab, where three bytes have been counted. -/
theorem convert_spec_hex : (convert .plain 3 (fun _ => 0) hexConv).map (fun r => (joined r.1, r.2)) =
    .ok ((text [' ', ' ', '0', 'x', '0', 'a', 'b'], 7), fun _ => 0) := by
  have hdigits : Nat.digits 16 171 = [11, 10] := by norm_num
  have hnumber : hexConv.number = .ok (text [' ', ' ', '0', 'x', '0', 'a', 'b']) := by
    have htext : digitText 16 (hexDigit 32) hexConv.least hexConv.arg.i.toNat = text ['0', 'a', 'b'] := by
      rw [digitText, show hexConv.arg.i.toNat = 171 from rfl, hdigits]
      rfl
    rw [Conv.number, if_neg (by decide), if_neg (by decide), if_neg (by decide), if_pos (by decide)]
    simp only [htext]
    rfl
  have hspec : hexConv.spec .plain (fun _ => 0) = .ok (text [' ', ' ', '0', 'x', '0', 'a', 'b']) := by
    rw [Conv.spec, if_neg (by decide), if_neg (by decide), if_pos (by decide), hnumber]
  rw [convert_spec hexConv .plain 3 (fun _ => 0) (by decide) (by decide) (by decide), hspec]
  rfl

/-! ## In a row -/

section

variable {F : Type} {env : Env F} {is : List Item} {ap : VaList F} {m : Mem} {t : Frag}

variable (env is ap m t) in
/-- The items print `t`, as far as it can be counted, and store nothing. -/
def Prints : Prop :=
  ∀ cnt : Nat, (cnt : Int) ≤ intMax → printItems env is ap m cnt =
    if (t.length : Int) > intMax - cnt then .error .overflow else .ok ⟨t, cnt + t.length, m⟩

theorem Prints.nil (env : Env F) (ap : VaList F) (m : Mem) : Prints env [] ap m [] := by
  intro cnt h
  rw [List.length_nil, if_neg (by omega)]
  rfl

/-- What is printed before a list that prints. -/
theorem Prints.before (h : Prints env is ap m t) (cnt : Nat) (s : Frag) :
    (if (s.length : Int) > intMax - cnt then .error .overflow
      else (printItems env is ap m (cnt + s.length)).map (Output.after s)) =
    if ((s ++ t).length : Int) > intMax - cnt then .error .overflow else .ok ⟨s ++ t, cnt + (s ++ t).length, m⟩ := by
  rw [List.length_append]
  by_cases hs : (s.length : Int) > intMax - cnt
  · rw [if_pos hs, if_pos (by omega)]
  rw [if_neg hs, h _ (by omega)]
  by_cases ht : (t.length : Int) > intMax - (cnt + s.length : Nat)
  · rw [if_pos ht, if_pos (by omega)]
    rfl
  · rw [if_neg ht, if_neg (by omega)]
    simp [Except.map, Output.after, Nat.add_assoc]

theorem Prints.chars (h : Prints env is ap m t) (cs : List Byte) : Prints env (cs.map Item.chr ++ is) ap m (cs ++ t) :=
  fun _ hc => (printItems_chars is ap m cs hc).trans (h.before _ cs)

/-- A conversion with the common tail. -/
theorem Prints.dir {d : Directive} {c : Conv F} {ap' : VaList F} (h : Prints env is ap' m t)
    (hd : d.conv true ap = .ok (c, ap')) (hn : c.letter ≠ ch 'n') (hw : c.wide = false) (hf : c.float = false) {s : Frag}
    (hs : c.spec env m = .ok s) : Prints env (.dir d :: is) ap m (s ++ t) := by
  intro cnt _
  have hspec := convert_joined c env cnt m hn hw hf
  rw [field_text, hs] at hspec
  rw [← h.before cnt s, printItems_dir hd]
  simp only [bind, Except.bind, counting] at hspec ⊢
  cases hcv : convert env cnt m c with
  | error e =>
    rw [hcv] at hspec
    split at hspec
    · rename_i hlt
      cases hspec
      rw [if_pos hlt]
    · cases hspec
  | ok r =>
    obtain ⟨⟨fs, l⟩, m'⟩ := r
    rw [hcv] at hspec
    split at hspec
    · cases hspec
    · rename_i hlt
      simp only [Except.map, joined, Except.ok.injEq, Prod.mk.injEq] at hspec
      obtain ⟨⟨rfl, rfl⟩, rfl⟩ := hspec
      rfl

/-- What `vsnprintf` does with the text of such a list. -/
theorem Prints.vsnprintf (h : Prints env is ap m t) (ht : (t.length : Int) ≤ intMax) (s : Block Byte) {n : Nat}
    (h₁ : 1 ≤ n) (h₂ : (n : Int) ≤ intMax) : vsnprintf env s n (showItems is) ap m =
      some (((t.length : Int), s.blit 0 (t.take (n - 1) ++ [0])), m) := by
  have hprint := h 0 (by decide)
  rw [if_neg (by omega), Nat.zero_add] at hprint
  exact vsnprintf_ok h₁ h₂ hprint

end

end Synthol.Stdio
