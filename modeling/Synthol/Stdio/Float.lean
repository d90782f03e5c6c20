import Synthol.Data.HalfEven
import Synthol.Data.Limbs
import Synthol.Stdio.Convert

/-!
# fmt_fp

`fmt_fp` on a finite number. The significand is expanded in limbs in base 10^9 (`expand`), multiplied or divided by the
power of two that is left (`grow`, `shrink`), rounded to the precision (`round`) and written; `%a` takes the digits from
the significand itself.

A finite `long double` is held as what `frexpl` makes of it. The arithmetic on `long double`s is exact except for the
two additions that round on purpose, which go to the nearest, ties to even. A pointer into `big` is its distance from
`r`; what `big` holds before the call is a parameter. The sums of `int`s that a precision close to `INT_MAX` overflows
go through `inInt`.
-/

namespace Synthol.Stdio

open X86 Numeral Limbs Function

/-- The number `m * 2 ^ (e - 63)`, as a significand of 64 bits and an exponent. -/
structure Finite where
  m : Nat
  e : Int
  norm : m = 0 ∧ e = 0 ∨ 2 ^ 63 ≤ m ∧ m < 2 ^ 64
  lower : -16445 ≤ e
  upper : e ≤ 16383
  /-- Below the normal range a bit of the significand is lost for each step of the exponent. -/
  subnormal : 2 ^ (-16382 - e).toNat ∣ m

/-- A sum of `int`s: nothing is known after an overflow. -/
def inInt (x : Int) : Except Stop Int := if -intMax - 1 ≤ x ∧ x ≤ intMax then .ok x else .error .undefined

/-! ## Text -/

/-- `while (len < n) *--s = '0';` -/
def atLeast (n : Nat) (s : Frag) : Frag := List.replicate (n - s.length) (ch '0') ++ s

/-- `fmt_u(*d, buf+9)` -/
def limb (c : Nat) : Frag := fmtU (BitVec.ofNat 64 c)

/-- `estr`: the letter `t`, the sign and at least `n` digits of `e`. -/
def expText (n : Nat) (t : Byte) (e : Int) : Frag :=
  t :: (if e < 0 then ch '-' else ch '+') :: atLeast n (fmtU (BitVec.ofNat 64 e.natAbs))

/-- The prefix and the body with the padding around them, and what is returned. -/
def layout (w : Int) (pre : Frag) (l : Int) (body : List Frag) (fl : Flags) : List Frag × Nat :=
  let pl : Int := pre.length
  (pad (ch ' ') w (pl + l) fl ++ [pre] ++ pad (ch '0') w (pl + l) fl.flipZero ++ body ++
    pad (ch ' ') w (pl + l) fl.flipLeft, (max w (pl + l)).toNat)

/-! ## Hexadecimal -/

/-- `y += round; y -= round;` where the last bit that stays is the one before `round` loses its own. A precision of 15
digits or more, or none, keeps everything. -/
def hexRound (m : Nat) (p : Int) : Nat :=
  if p < 0 ∨ 15 ≤ p then m
  else
    let k := (63 - 4 * p).toNat
    halfEven m (2 ^ k) * 2 ^ k

/-- `do { int x=y; *s++=xdigits[x]|(t&32); y=16*(y-x); ... } while (y);` after the first digit, where `y` is
`n / 2 ^ 63`. -/
def hexTail (lower : Byte) : Nat → Nat → Frag
  | 0, _ => []
  | k + 1, n => if n = 0 then [] else (xdigits.getD (n / 2 ^ 63) 0 ||| lower) :: hexTail lower k (16 * (n % 2 ^ 63))

def hexDigits (lower : Byte) (p : Int) (fl : Flags) (n : Nat) : Frag :=
  let y := 16 * (n % 2 ^ 63)
  (xdigits.getD (n / 2 ^ 63) 0 ||| lower) ::
    ((if y ≠ 0 ∨ p > 0 ∨ fl.altForm then [ch '.'] else []) ++ hexTail lower 16 y)

/-- `if ((t|32)=='a') { ... }` -/
def fpHex (neg : Bool) (y : Finite) (w p : Int) (fl : Flags) (t : Byte) : Except Stop (List Frag × Nat) :=
  let pre := sign neg fl ++ text ['0', if t &&& 32 ≠ 0 then 'x' else 'X']
  let estr := expText 1 (t + (ch 'p' - ch 'a')) y.e
  let s := hexDigits (t &&& 32) p fl (hexRound y.m p)
  let el : Int := estr.length
  let sl : Int := s.length
  if p > intMax - 2 - el - pre.length then .error .overflow
  else
    let l := if p ≠ 0 ∧ sl - 2 < p then p + 2 + el else sl + el
    .ok (layout w pre l ([s] ++ pad (ch '0') (l - el - sl) 0 {} ++ [estr]) fl)

/-! ## Limbs -/

def limbBase : Nat := 1000000000

/-- The array and the pointers `a` and `z`. -/
structure Big where
  big : Cells
  a : Int
  z : Int

/-- `do { *z = y; y = 1000000000*(y-*z++); } while (y);` where `y` is `n / 2 ^ 35`. A round takes 9 bits, so that five are
enough. -/
def expand (big : Cells) (z : Int) : Nat → Nat → Cells × Int
  | 0, _ => (big, z)
  | k + 1, n =>
    let big := update big z (n / 2 ^ 35)
    let n := limbBase * (n % 2 ^ 35)
    if n = 0 then (big, z + 1) else expand big (z + 1) k n

/-- The body of `while (e2>0)`. -/
def growStep (sh : Nat) (x : Big) : Big :=
  let r := mulLoop limbBase (2 ^ sh) x.big x.z (x.z - x.a).toNat
  let x : Big := if r.2 ≠ 0 then ⟨update r.1 (x.a - 1) r.2, x.a - 1, x.z⟩ else ⟨r.1, x.a, x.z⟩
  { x with z := trim x.big (x.z - x.a).toNat x.z }

/-- `while (e2>0)`, for `n` rounds at most. -/
def grow : Nat → Nat → Big → Big
  | 0, _, x => x
  | n + 1, e2, x => if 0 < e2 then grow n (e2 - min 29 e2) (growStep (min 29 e2) x) else x

/-- The shift in `while (e2<0)`, with the limb that it may add. -/
def shiftDown (sh : Nat) (x : Big) : Big :=
  let r := divLoop limbBase (2 ^ sh) x.big x.a (x.z - x.a).toNat
  let a := if r.1 x.a = 0 then x.a + 1 else x.a
  if r.2 ≠ 0 then ⟨update r.1 x.z r.2, a, x.z + 1⟩ else ⟨r.1, a, x.z⟩

/-- `b = (t|32)=='f' ? r : a; if (z-b > need) z = b+need;`, where `f` is `(t|32)=='f'`. -/
def Big.cut (f : Bool) (need : Int) (x : Big) : Big :=
  let b := if f then 0 else x.a
  if x.z - b > need then { x with z := b + need } else x

/-- `while (e2<0)` with `e2` for `-e2`, for `n` rounds at most. -/
def shrink (f : Bool) (need : Int) : Nat → Nat → Big → Big
  | 0, _, x => x
  | n + 1, e2, x => if 0 < e2 then shrink f need n (e2 - min 9 e2) ((shiftDown (min 9 e2) x).cut f need) else x

/-- `1+(p+LDBL_MANT_DIG/3U+8)/9` -/
def needFor (p : Int) : Int := 1 + (p + 64 / 3 + 8) / 9

/-- The limbs of a number. -/
def decimal (junk : Cells) (y : Finite) (f : Bool) (p : Int) : Big :=
  let r := expand junk 0 5 y.m
  let x : Big := ⟨r.1, 0, r.2⟩
  let e2 := if y.m ≠ 0 then y.e - 28 else y.e
  if e2 < 0 then shrink f (needFor p) (-e2).toNat (-e2).toNat x else grow e2.toNat e2.toNat x

/-! ## Rounding -/

/-- `for (i=10; c>=i; i*=10, e++);` from `i` on. Of a limb there are nine digits at most. -/
def countUp (c : Nat) : Nat → Nat → Int → Int
  | 0, _, e => e
  | n + 1, i, e => if i ≤ c then countUp c n (i * 10) (e + 1) else e

/-- `for (i=10, e=9*(r-a); *a>=i; i*=10, e++);` -/
def exponent (big : Cells) (a : Int) : Int := countUp (big a) 9 10 (9 * (0 - a))

/-- `round+small != round` where `round` is `2/LDBL_EPSILON`, two more if `odd`, and `small` is given in halves: the
`long double`s next to `round` are multiples of 2. -/
def probe (odd : Bool) (small : Nat) : Bool :=
  let round := 2 ^ 64 + if odd then 2 else 0
  halfEven (2 * round + small) 4 * 2 ≠ round

/-- Whether to round up the digits from `d` on that are worth less than `i`. -/
def Big.up (x : Big) (d : Int) (i : Nat) : Bool :=
  let c := x.big d % i
  let odd := x.big d / i % 2 = 1 ∨ i = limbBase ∧ d > x.a ∧ x.big (d - 1) % 2 = 1
  let small := if c < i / 2 then 1 else if c = i / 2 ∧ d + 1 = x.z then 2 else 3
  probe odd small

/-- Rounding to `j` digits after the radix, with the new `e`. -/
def round (x : Big) (e j : Int) : Big × Int :=
  if j < 9 * (x.z - 1) then
    let d := 1 + ((j + 9 * 16384) / 9 - 16384)
    let i := 10 ^ (9 - ((j + 9 * 16384) % 9).toNat)
    let c := x.big d % i
    let (y, e) :=
      if c ≠ 0 ∨ d + 1 ≠ x.z then
        let big := update x.big d (x.big d - c)
        if x.up d i then
          let r := carryLoop limbBase (d - x.a + 1).toNat (update big d (big d + i)) x.a d
          ((⟨r.1, r.2, x.z⟩ : Big), exponent r.1 r.2)
        else (⟨big, x.a, x.z⟩, e)
      else (x, e)
    (if x.z > d + 1 then { y with z := d + 1 } else y, e)
  else (x, e)

/-- `for (; z>a && !z[-1]; z--);` -/
def Big.trim (x : Big) : Big := { x with z := Limbs.trim x.big (x.z - x.a).toNat x.z }

/-- `for (i=10, j=0; c%i==0; i*=10, j++);` from `i` and `j` on. -/
def countZeros (c : Nat) : Nat → Nat → Int → Int
  | 0, _, j => j
  | n + 1, i, j => if c % i = 0 then countZeros c n (i * 10) (j + 1) else j

/-- The precision and the letter of `%f` or `%e` that stand for `%g`. -/
def style (e p : Int) (t : Byte) : Except Stop (Int × Byte) :=
  let p := if p = 0 then 1 else p
  if p > e ∧ e ≥ -4 then (inInt (p - (e + 1))).map (·, t - 1) else .ok (p - 1, t - 2)

/-- The digits behind the point up to the last that is not zero, for the letter `t`. -/
def significant (x : Big) (e : Int) (t : Byte) : Int :=
  let j := if x.z > x.a ∧ x.big (x.z - 1) ≠ 0 then countZeros (x.big (x.z - 1)) 9 10 0 else 9
  if t ||| 32 = ch 'f' then max 0 (9 * (x.z - 1) - j) else max 0 (9 * (x.z - 1) + e - j)

/-- `if ((t|32)=='g') { ... }` -/
def general (x : Big) (e p : Int) (t : Byte) (fl : Flags) : Except Stop (Int × Byte) :=
  (style e p t).map fun (p, t) => if fl.altForm then (p, t) else (min p (significant x e t), t)

/-! ## Output -/

/-- `for (d=a; d<=r; d++) { ... }` -/
def intLimbs (big : Cells) (a : Int) : List Frag :=
  (List.range (1 - a).toNat).map fun k : Nat => atLeast (if k = 0 then 1 else 9) (limb (big (a + k)))

/-- `for (; d<z && p>0; d++, p-=9) { ... }` for `n` rounds at most, and the `p` that it leaves. -/
def fracLimbs (big : Cells) (z : Int) : Nat → Int → Int → List Frag × Int
  | 0, _, p => ([], p)
  | n + 1, d, p =>
    if d < z ∧ p > 0 then
      let r := fracLimbs big z n (d + 1) (p - 9)
      ((atLeast 9 (limb (big d))).take (min 9 p).toNat :: r.1, r.2)
    else ([], p)

/-- `for (d=a; d<z && p>=0; d++) { ... }` for `n` rounds at most, and the `p` that it leaves. -/
def expLimbs (x : Big) (fl : Flags) : Nat → Int → Int → List Frag × Int
  | 0, _, p => ([], p)
  | n + 1, d, p =>
    if d < x.z ∧ p ≥ 0 then
      let s := atLeast (if d = x.a then 1 else 9) (limb (x.big d))
      let first := if d = x.a then s.take 1 :: (if p > 0 ∨ fl.altForm then [text ['.']] else []) else []
      let s := if d = x.a then s.drop 1 else s
      let r := expLimbs x fl n (d + 1) (p - s.length)
      (first ++ [s.take (min (s.length : Int) p).toNat] ++ r.1, r.2)
    else ([], p)

/-- The digits of `%f`. -/
def fixedBody (x : Big) (p : Int) (fl : Flags) : Except Stop (List Frag) :=
  let a := if x.a > 0 then 0 else x.a
  let r := fracLimbs x.big x.z (x.z - 1).toNat 1 p
  (inInt (r.2 + 9)).map fun w =>
    intLimbs x.big a ++ (if p ≠ 0 ∨ fl.altForm then [text ['.']] else []) ++ r.1 ++ pad (ch '0') w 9 {}

/-- The digits of `%e`. -/
def expBody (x : Big) (p : Int) (fl : Flags) (estr : Frag) : Except Stop (List Frag) :=
  let x : Big := if x.z ≤ x.a then { x with z := x.a + 1 } else x
  let r := expLimbs x fl (x.z - x.a).toNat x.a p
  (inInt (r.2 + 18)).map fun w => r.1 ++ pad (ch '0') w 18 {} ++ [estr]

/-- `p || (fl&ALT_FORM)` -/
def pointLen (p : Int) (fl : Flags) : Int := if p ≠ 0 ∨ fl.altForm then 1 else 0

/-- From the limbs to the text: `t` is the letter of `f` or `e`. -/
def fpText (x : Big) (e : Int) (neg : Bool) (w p : Int) (fl : Flags) (t : Byte) : Except Stop (List Frag × Nat) :=
  let pre := sign neg fl
  let l := 1 + p + pointLen p fl
  if p > intMax - 1 - pointLen p fl then .error .overflow
  else if t ||| 32 = ch 'f' then
    if e > intMax - l then .error .overflow
    else
      let l := if e > 0 then l + e else l
      if l > intMax - pre.length then .error .overflow
      else (fixedBody x p fl).map fun body => layout w pre l body fl
  else
    let estr := expText 2 t e
    if estr.length > intMax - l then .error .overflow
    else
      let l := l + estr.length
      if l > intMax - pre.length then .error .overflow
      else (expBody x p fl estr).map fun body => layout w pre l body fl

/-- The rounded limbs and `e`. -/
def rounded (junk : Cells) (y : Finite) (p : Int) (t : Byte) : Except Stop (Big × Int) :=
  let f : Bool := t ||| 32 = ch 'f'
  let x := decimal junk y f p
  let e := if x.a < x.z then exponent x.big x.a else 0
  (inInt (p - if f then 0 else e)).map fun j =>
    let r := round x e (j - if t ||| 32 = ch 'g' ∧ p ≠ 0 then 1 else 0)
    (r.1.trim, r.2)

def fpDecimal (junk : Cells) (neg : Bool) (y : Finite) (w p : Int) (fl : Flags) (t : Byte) :
    Except Stop (List Frag × Nat) := do
  let p := if p < 0 then 6 else p
  let (x, e) ← rounded junk y p t
  let (p, t) ← if t ||| 32 = ch 'g' then general x e p t fl else pure (p, t)
  fpText x e neg w p fl t

/-- `fmt_fp` after the check for infinities and NaNs. -/
def fpFinite (junk : Cells) (neg : Bool) (y : Finite) (w p : Int) (fl : Flags) (t : Byte) :
    Except Stop (List Frag × Nat) :=
  if t ||| 32 = ch 'a' then fpHex neg y w p fl t else fpDecimal junk neg y w p fl t

end Synthol.Stdio
