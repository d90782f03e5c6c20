import Synthol.Data.Numeral
import Synthol.Stdio.Directive

/-!
# Conversions

What `printf_core` hands to `out` for one conversion specification, and the number `l` it counts for it.

The arithmetic on `long double` in `fmt_fp` is a parameter (`FmtFp`); its sign, its infinities and its NaNs are not.

- the common tail writes exactly the width it settles on (`emit_length`);
- a wide-character conversion writes the bytes it has measured (`wideOut_length`);
- what a conversion counts is never less than what it writes, and is the same except for wide characters with a `0`
  (`Conv.Short`, `convert_counts`).
-/

namespace Synthol.Stdio

open X86 Numeral

/-! ## Padding -/

def text (cs : List Char) : List Byte := cs.map ch

/-- `pad`: blocks of 256 bytes while there are as many, then the rest, which may be empty. -/
def pad (c : Byte) (w l : Int) (fl : Flags) : List Frag :=
  if fl.leftAdj || fl.zeroPad || l ≥ w then []
  else
    let l := (w - l).toNat
    List.replicate (l / 256) (List.replicate 256 c) ++ [List.replicate (l % 256) c]

/-- `fl ^ ZERO_PAD` -/
def Flags.flipZero (fl : Flags) : Flags := { fl with zeroPad := !fl.zeroPad }

/-- `fl ^ LEFT_ADJ` -/
def Flags.flipLeft (fl : Flags) : Flags := { fl with leftAdj := !fl.leftAdj }

def Flags.noZero (fl : Flags) : Flags := { fl with zeroPad := false }

theorem pad_length (c : Byte) (w l : Int) (fl : Flags) :
    (pad c w l fl).flatten.length = if fl.leftAdj || fl.zeroPad then 0 else (w - l).toNat := by
  unfold pad
  by_cases hf : (fl.leftAdj || fl.zeroPad) = true
  · simp only [hf, Bool.true_or, if_true, List.flatten_nil, List.length_nil]
  · rw [if_neg hf, Bool.eq_false_of_not_eq_true hf, Bool.false_or]
    by_cases hl : l ≥ w
    · rw [if_pos (decide_eq_true hl), List.flatten_nil, List.length_nil]
      omega
    · have hdm := Nat.div_add_mod (w - l).toNat 256
      rw [if_neg (by simpa using hl)]
      simp only [List.flatten_append, List.length_append, List.flatten_singleton, List.length_replicate,
        List.length_flatten, List.map_replicate, List.sum_replicate_nat]
      omega

/-! ## Digits -/

def xdigits : List Byte :=
  text ['0', '1', '2', '3', '4', '5', '6', '7', '8', '9', 'A', 'B', 'C', 'D', 'E', 'F']

/-- `for (; x; x/=b) *--s = d(x%b);` -/
def fmtDigits (b : Nat) (d : Nat → Byte) (x : Word) : Frag := (numeral b 64 x.toNat).map d

def fmtX (x : Word) (lower : Byte) : Frag := fmtDigits 16 (fun k => xdigits.getD k 0 ||| lower) x

def fmtO (x : Word) : Frag := fmtDigits 8 (fun k => ch '0' + BitVec.ofNat 8 k) x

def fmtU (x : Word) : Frag := fmtDigits 10 (fun k => ch '0' + BitVec.ofNat 8 k) x

/-! ## Strings -/

/-- The bytes from an address on. -/
def bytesAt (m : Mem) (a : Word) : Block Byte := fun k => m (a + BitVec.ofNat 64 k)

/-- `strnlen`, after `k` bytes that are not NUL. -/
def strnlenFrom (s : Block Byte) (k : Nat) : Nat → Nat
  | 0 => k
  | n + 1 => if s k = 0 then k else strnlenFrom s (k + 1) n

def strnlen (s : Block Byte) (n : Nat) : Nat := strnlenFrom s 0 n

/-! ## Wide characters -/

/-- The bytes of a character, `none` for `-1`. -/
def wcrtomb (utf8 : Bool) (wc : BitVec 32) : Option Frag :=
  if wc < 0x80 then some [wc.setWidth 8]
  else if utf8 = false then if wc - 0xdf80 < 0x80 then some [wc.setWidth 8] else none
  else if wc < 0x800 then some [(0xc0 ||| wc >>> 6).setWidth 8, (0x80 ||| wc &&& 0x3f).setWidth 8]
  else if wc < 0xd800 ∨ wc - 0xe000 < 0x2000 then
    some [(0xe0 ||| wc >>> 12).setWidth 8, (0x80 ||| wc >>> 6 &&& 0x3f).setWidth 8, (0x80 ||| wc &&& 0x3f).setWidth 8]
  else if wc - 0x10000 < 0x100000 then
    some [(0xf0 ||| wc >>> 18).setWidth 8, (0x80 ||| wc >>> 12 &&& 0x3f).setWidth 8,
      (0x80 ||| wc >>> 6 &&& 0x3f).setWidth 8, (0x80 ||| wc &&& 0x3f).setWidth 8]
  else none

section Wide

variable (utf8 : Bool) (ws : Block (BitVec 32)) (p : Nat)

/-- The first loop of `case 'S'` after `k` characters and `i` bytes: the bytes of the characters that fit in `p`, `none`
where one has none. A round takes a byte at least, so that `p` rounds are enough. -/
def wideLen : Nat → Nat → Nat → Option Nat
  | 0, _, i => some i
  | n + 1, k, i =>
    if i < p ∧ ws k ≠ 0 then
      match wcrtomb utf8 (ws k) with
      | none => none
      | some mb => if mb.length ≤ p - i then wideLen n (k + 1) (i + mb.length) else some i
    else some i

/-- The second loop, over the same characters. -/
def wideOut : Nat → Nat → Nat → List Frag
  | 0, _, _ => []
  | n + 1, k, i =>
    if i < p ∧ ws k ≠ 0 then
      match wcrtomb utf8 (ws k) with
      | none => []
      | some mb => if i + mb.length ≤ p then mb :: wideOut n (k + 1) (i + mb.length) else []
    else []

end Wide

/-- `ws` of a pointer. -/
def wideAt (m : Mem) (a : Word) : Block (BitVec 32) := fun k => BitVec.ofNat 32 (m.load (a + BitVec.ofNat 64 (4 * k)) 4)

/-- `wc[0] = arg.i; wc[1] = 0;` -/
def wideOne (x : Word) : Block (BitVec 32) := fun k => if k = 0 then x.setWidth 32 else 0

theorem wcrtomb_pos {utf8 : Bool} {wc : BitVec 32} {mb : Frag} (h : wcrtomb utf8 wc = some mb) : 0 < mb.length := by
  unfold wcrtomb at h
  split at h
  · cases h
    exact Nat.succ_pos _
  · split at h
    · split at h <;> cases h
      exact Nat.succ_pos _
    · split at h
      · cases h
        exact Nat.succ_pos _
      · split at h
        · cases h
          exact Nat.succ_pos _
        · split at h <;> cases h
          exact Nat.succ_pos _

/-- What has been measured is written: the second loop ends where the first one did. -/
theorem wideOut_length {utf8 : Bool} {ws : Block (BitVec 32)} {p r : Nat} : ∀ {n k i : Nat},
    wideLen utf8 ws p n k i = some r →
    i ≤ r ∧ ∀ m, r - i ≤ m → (wideOut utf8 ws r m k i).flatten.length = r - i
  | 0, k, i, h => by
    cases h
    refine ⟨Nat.le_refl _, fun m _ => ?_⟩
    cases m <;> simp [wideOut]
  | n + 1, k, i, h => by
    have stop : r = i → i ≤ r ∧ ∀ m, r - i ≤ m → (wideOut utf8 ws r m k i).flatten.length = r - i := by
      rintro rfl
      refine ⟨Nat.le_refl _, fun m _ => ?_⟩
      cases m <;> simp [wideOut]
    rw [wideLen] at h
    split at h
    · rename_i hi
      cases hmb : wcrtomb utf8 (ws k) with
      | none => simp only [hmb, reduceCtorEq] at h
      | some mb =>
        simp only [hmb] at h
        split at h
        · obtain ⟨hle, ih⟩ := wideOut_length h
          have hpos := wcrtomb_pos hmb
          refine ⟨by omega, fun m hm => ?_⟩
          cases m with
          | zero => omega
          | succ m =>
            rw [wideOut, if_pos ⟨by omega, hi.2⟩, hmb]
            simp only [hle, if_true, List.flatten_cons, List.length_append, ih m (by omega)]
            omega
        · exact stop (Option.some.inj h).symm
    · exact stop (Option.some.inj h).symm

/-! ## The environment -/

/-- `fmt_fp` on a finite number: the calls of `out` and what it returns. `-1` is the error `overflow`; it returns that
before any output. It writes as many bytes as it returns. -/
structure FmtFp (F : Type) where
  run : Bool → F → Int → Int → Flags → Byte → Except Stop (List Frag × Nat)
  exact : ∀ {s y w p fl t r}, run s y w p fl t = .ok r → ¬(fl.leftAdj ∧ fl.zeroPad) → r.1.flatten.length = r.2

/-- What formatting reads beside its arguments: `fmt_fp`, `CURRENT_UTF8`, `strerror(errno)`, and the locals that
`vfprintf` does not initialise. -/
structure Env (F : Type) where
  fp : FmtFp F
  utf8 : Bool
  strerror : Word
  nlArg : Nat → Arg F
  internalBuf : Block Byte

/-- The environment of a program without floating-point numbers, in the locale `C`. -/
def Env.plain : Env Empty where
  fp := { run := fun _ y => y.elim, exact := fun {_ y} => y.elim }
  utf8 := false
  strerror := 0
  nlArg _ := ⟨0, ⟨false, .nan⟩⟩
  internalBuf _ := 0

variable {F : Type}

/-! ## The cases of the switch -/

/-- `"-+   0X0x"` -/
def prefixes : List Byte := text ['-', '+', ' ', ' ', ' ', '0', 'X', '0', 'x']

/-- The conversion character, with `ls` and `lc` transformed to `S` and `C`. -/
def Conv.letter (c : Conv F) : Byte := if c.ps ≠ .bare ∧ c.t &&& 15 = 3 then c.t &&& ~~~32 else c.t

/-- The flags; `-` and `0` are mutually exclusive. -/
def Conv.flags (c : Conv F) : Flags := if c.fl.leftAdj then c.fl.noZero else c.fl

/-- `%C` or `%S`. -/
def Conv.wide (c : Conv F) : Bool := c.letter = ch 'C' || c.letter = ch 'S'

/-- One of the conversions of floating-point numbers. -/
def Conv.float (c : Conv F) : Bool := ['e', 'f', 'g', 'a', 'E', 'F', 'G', 'A'].any fun d => ch d = c.letter

/-- What the switch leaves to the common tail: the prefix, the bytes from `a` to `z`, the precision and the flags. -/
structure Field where
  pre : Frag
  a : Frag
  p : Int
  fl : Flags

/-- The sign of a number. -/
def sign (neg : Bool) (fl : Flags) : Frag :=
  if neg then text ['-'] else if fl.markPos then text ['+'] else if fl.padPos then text [' '] else []

/-- The end of the cases of integers. -/
def integer (xp : Bool) (x : Word) (pre a : Frag) (p : Int) (fl : Flags) : Except Stop Field :=
  if xp ∧ p < 0 then .error .overflow
  else
    let fl := if xp then fl.noZero else fl
    if x = 0 ∧ p = 0 then .ok ⟨pre, [], p, fl⟩
    else .ok ⟨pre, a, max p (a.length + if x = 0 then 1 else 0), fl⟩

/-- `case 'x'` for the character `t`. -/
def hex (xp : Bool) (x : Word) (t : Byte) (p : Int) (fl : Flags) : Except Stop Field :=
  let pre := if x ≠ 0 ∧ fl.altForm then (prefixes.drop (t >>> 4).toNat).take 2 else []
  integer xp x pre (fmtX x (t &&& 32)) p fl

/-- `case 's'` for the string `a`. -/
def string (a : Block Byte) (p : Int) (fl : Flags) : Except Stop Field :=
  let n := strnlen a (if p < 0 then intMax else p).toNat
  if p < 0 ∧ a n ≠ 0 then .error .overflow else .ok ⟨[], a.slice 0 n, n, fl.noZero⟩

/-- `"(null)"` -/
def nullText : Block Byte := fun k => (text ['(', 'n', 'u', 'l', 'l', ')']).getD k 0

/-- The cases that go on to the common tail. The state machine accepts no letter beside those of `convert`. -/
def Conv.field (env : Env F) (m : Mem) (c : Conv F) : Except Stop Field :=
  let x := c.arg.i
  if c.letter = ch 'p' then
    -- `MAX(p, 2*sizeof(void*))` compares as `size_t`, where a negative `p` is the larger
    hex c.xp x (ch 'x') (if c.p < 0 then c.p else max c.p 16) { c.flags with altForm := true }
  else if c.letter = ch 'x' ∨ c.letter = ch 'X' then hex c.xp x c.letter c.p c.flags
  else if c.letter = ch 'o' then
    let a := fmtO x
    integer c.xp x [] a (if c.flags.altForm ∧ c.p < a.length + 1 then a.length + 1 else c.p) c.flags
  else if c.letter = ch 'd' ∨ c.letter = ch 'i' then
    integer c.xp x (sign x.msb c.flags) (fmtU (if x.msb then -x else x)) c.p c.flags
  else if c.letter = ch 'u' then integer c.xp x [] (fmtU x) c.p c.flags
  else if c.letter = ch 'c' then .ok ⟨[], [x.setWidth 8], 1, c.flags.noZero⟩
  else if c.letter = ch 'm' then string (bytesAt m env.strerror) c.p c.flags
  else string (if x = 0 then nullText else bytesAt m x) c.p c.flags

/-- The common tail: the calls of `out` and the new `l`. -/
def emit (cnt : Nat) (w : Int) (b : Field) : Except Stop (List Frag × Nat) :=
  let n : Int := b.a.length
  let pl : Int := b.pre.length
  let p := max b.p n
  if p > intMax - pl then .error .overflow
  else
    let w := max w (pl + p)
    if w > intMax - cnt then .error .overflow
    else .ok (pad (ch ' ') w (pl + p) b.fl ++ [b.pre] ++ pad (ch '0') w (pl + p) b.fl.flipZero ++
      pad (ch '0') p n {} ++ [b.a] ++ pad (ch ' ') w (pl + p) b.fl.flipLeft, w.toNat)

/-- `case 'S'`: `-1` where a character has no bytes. -/
def wide (env : Env F) (ws : Block (BitVec 32)) (w p : Int) (fl : Flags) : Except Stop (List Frag × Nat) :=
  let room := (BitVec.ofInt 64 p).toNat
  match wideLen env.utf8 ws room room 0 0 with
  | none => .error .ilseq
  | some i =>
    if i > intMax.toNat then .error .overflow
    else .ok (pad (ch ' ') w i fl ++ wideOut env.utf8 ws i i 0 0 ++ pad (ch ' ') w i fl.flipLeft, (max w i).toNat)

/-- `fmt_fp`. -/
def fmtFp (env : Env F) (y : LongDouble F) (w p : Int) (fl : Flags) (t : Byte) :
    Except Stop (List Frag × Nat) :=
  let special (s : Frag) : List Frag × Nat :=
    let pre := sign y.signbit fl
    let n : Int := 3 + pre.length
    (pad (ch ' ') w n fl.noZero ++ [pre, s] ++ pad (ch ' ') w n fl.flipLeft, (max w n).toNat)
  match y.val with
  | .nan => .ok (special (if t &&& 32 ≠ 0 then text ['n', 'a', 'n'] else text ['N', 'A', 'N']))
  | .inf => .ok (special (if t &&& 32 ≠ 0 then text ['i', 'n', 'f'] else text ['I', 'N', 'F']))
  | .finite y' => env.fp.run y.signbit y' w p fl t

/-- `%n`: the count is stored at the width that the modifiers ask for. -/
def storeCount (m : Mem) (a : Word) (cnt : Nat) : Pre → Mem
  | .bare => m.store a 4 cnt
  | .hpre => m.store a 2 cnt
  | .hhpre => m.store a 1 cnt
  | .lpre | .llpre | .ztpre | .jpre => m.store a 8 cnt
  | .biglpre => m

/-- From the argument to the next round: the calls of `out`, the new `l` and the memory. -/
def convert (env : Env F) (cnt : Nat) (m : Mem) (c : Conv F) : Except Stop ((List Frag × Nat) × Mem) :=
  if c.letter = ch 'n' then .ok (([], 0), storeCount m c.arg.i cnt c.ps)
  else if c.letter = ch 'C' then (wide env (wideOne c.arg.i) c.w (-1) c.flags).map (·, m)
  else if c.letter = ch 'S' then (wide env (wideAt m c.arg.i) c.w c.p c.flags).map (·, m)
  else if c.float then
    if c.xp ∧ c.p < 0 then .error .overflow else (fmtFp env c.arg.f c.w c.p c.flags c.letter).map (·, m)
  else (c.field env m >>= emit cnt c.w).map (·, m)

/-! ## What is undefined -/

theorem integer_defined (xp : Bool) (x : Word) (pre a : Frag) (p : Int) (fl : Flags) :
    integer xp x pre a p fl ≠ .error .undefined := by
  intro h
  simp only [integer] at h
  split at h
  · cases h
  · split at h <;> cases h

theorem string_defined (a : Block Byte) (p : Int) (fl : Flags) : string a p fl ≠ .error .undefined := by
  intro h
  simp only [string] at h
  generalize strnlen a (if p < 0 then intMax else p).toNat = n at h
  split at h <;> cases h

theorem Conv.field_defined (env : Env F) (m : Mem) (c : Conv F) : c.field env m ≠ .error .undefined := by
  intro h
  simp only [Conv.field, hex] at h
  split at h
  · exact integer_defined _ _ _ _ _ _ h
  split at h
  · exact integer_defined _ _ _ _ _ _ h
  split at h
  · exact integer_defined _ _ _ _ _ _ h
  split at h
  · exact integer_defined _ _ _ _ _ _ h
  split at h
  · exact integer_defined _ _ _ _ _ _ h
  split at h
  · cases h
  split at h <;> exact string_defined _ _ _ h

theorem emit_defined (cnt : Nat) (w : Int) (b : Field) : emit cnt w b ≠ .error .undefined := by
  intro h
  simp only [emit] at h
  split at h
  · cases h
  · split at h <;> cases h

theorem wide_defined (env : Env F) (ws : Block (BitVec 32)) (w p : Int) (fl : Flags) :
    wide env ws w p fl ≠ .error .undefined := by
  intro h
  simp only [wide] at h
  split at h
  · cases h
  · split at h <;> cases h

/-- **Only in fmt_fp** an `int` overflows. -/
theorem convert_undefined {env : Env F} {cnt : Nat} {m : Mem} {c : Conv F}
    (h : convert env cnt m c = .error .undefined) :
    c.float = true ∧ fmtFp env c.arg.f c.w c.p c.flags c.letter = .error .undefined := by
  unfold convert at h
  split at h
  · cases h
  split at h
  · exact absurd (map_error.mp h) (wide_defined _ _ _ _ _)
  split at h
  · exact absurd (map_error.mp h) (wide_defined _ _ _ _ _)
  split at h
  · rename_i hfloat
    split at h
    · cases h
    · exact ⟨hfloat, map_error.mp h⟩
  · rcases bind_error.mp (map_error.mp h) with hf | ⟨b, -, he⟩
    · exact absurd hf (c.field_defined env m)
    · exact absurd he (emit_defined cnt c.w b)

/-! ## What is counted and what is written -/

/-- Not both `-` and `0`. -/
def Flags.Proper (fl : Flags) : Prop := ¬(fl.leftAdj = true ∧ fl.zeroPad = true)

theorem Flags.noZero_proper (fl : Flags) : fl.noZero.Proper := by
  simp [Proper, noZero]

theorem Conv.flags_proper (c : Conv F) : c.flags.Proper := by
  unfold Conv.flags
  split
  · exact Flags.noZero_proper _
  · rename_i h
    exact fun hb => h hb.1

theorem integer_proper {xp : Bool} {x : Word} {pre a : Frag} {p : Int} {fl : Flags} {b : Field} (hfl : fl.Proper)
    (h : integer xp x pre a p fl = .ok b) : b.fl.Proper := by
  unfold integer at h
  split at h
  · cases h
  · have hp : (if xp then fl.noZero else fl).Proper := by
      split
      · exact Flags.noZero_proper _
      · exact hfl
    simp only at h
    split at h <;> cases h <;> exact hp

theorem string_proper {a : Block Byte} {p : Int} {fl : Flags} {b : Field} (h : string a p fl = .ok b) :
    b.fl.Proper := by
  simp only [string] at h
  generalize strnlen a (if p < 0 then intMax else p).toNat = n at h
  split at h <;> cases h
  exact Flags.noZero_proper _

theorem Conv.field_proper {env : Env F} {m : Mem} {c : Conv F} {b : Field} (h : c.field env m = .ok b) :
    b.fl.Proper := by
  have hc := c.flags_proper
  simp only [Conv.field, hex] at h
  split at h
  · have halt : Flags.Proper { c.flags with altForm := true } := hc
    exact integer_proper halt h
  split at h
  · exact integer_proper hc h
  split at h
  · exact integer_proper hc h
  split at h
  · exact integer_proper hc h
  split at h
  · exact integer_proper hc h
  split at h
  · cases h
    exact Flags.noZero_proper _
  split at h <;> exact string_proper h

/-- Two pads and a body: the pads make up for what the body lacks. -/
theorem pads_length {fl : Flags} (hfl : fl.Proper) (w n : Int) :
    (pad (ch ' ') w n fl).flatten.length + (pad (ch '0') w n fl.flipZero).flatten.length +
      (pad (ch ' ') w n fl.flipLeft).flatten.length = (w - n).toNat := by
  simp only [pad_length, Flags.flipZero, Flags.flipLeft]
  cases hl : fl.leftAdj <;> cases hz : fl.zeroPad <;> simp
  exact absurd ⟨hl, hz⟩ hfl

/-- **The common tail** writes the width that it counts. -/
theorem emit_length {cnt : Nat} {w : Int} {b : Field} {r : List Frag × Nat} (hfl : b.fl.Proper)
    (h : emit cnt w b = .ok r) : r.1.flatten.length = r.2 := by
  simp only [emit] at h
  split at h
  · cases h
  split at h
  · cases h
  cases h
  have hpads := pads_length hfl (max w (b.pre.length + max b.p b.a.length)) (b.pre.length + max b.p b.a.length)
  have hzeros : (pad (ch '0') (max b.p b.a.length) b.a.length {}).flatten.length =
      (max b.p b.a.length - b.a.length).toNat := by
    rw [pad_length]
    rfl
  simp only [List.flatten_append, List.length_append, List.flatten_singleton]
  omega

/-- What `fmt_fp` returns for an infinity or a NaN is what it writes. -/
theorem special_length {fl : Flags} (hfl : fl.Proper) (w : Int) {pre s : Frag} (hs : s.length = 3) :
    (pad (ch ' ') w (3 + pre.length) fl.noZero ++ [pre, s] ++
      pad (ch ' ') w (3 + pre.length) fl.flipLeft).flatten.length = (max w (3 + pre.length)).toNat := by
  simp only [List.flatten_append, List.length_append, pad_length, Flags.noZero, Flags.flipLeft, List.flatten_cons,
    List.flatten_nil, List.length_nil, hs]
  cases hl : fl.leftAdj <;> cases hz : fl.zeroPad <;> simp
  · omega
  · omega
  · omega
  · exact absurd ⟨hl, hz⟩ hfl

/-- The conversions that count more bytes than they write: a wide-character conversion never writes the padding that a
`0` asks for. -/
def Conv.Short (c : Conv F) (r : List Frag × Nat) : Prop :=
  c.wide ∧ c.flags.zeroPad ∧ (r.1.flatten.length : Int) < c.w

instance (c : Conv F) (r : List Frag × Nat) : Decidable (c.Short r) := inferInstanceAs (Decidable (_ ∧ _))

/-- What is counted for a conversion against what is written. -/
structure Counts (c : Conv F) (r : List Frag × Nat) : Prop where
  le : r.1.flatten.length ≤ r.2
  eq_iff : r.1.flatten.length = r.2 ↔ ¬c.Short r

theorem Conv.float_of_wide {c : Conv F} (h : c.wide = true) : c.float = false := by
  rw [Conv.wide, Bool.or_eq_true, decide_eq_true_eq, decide_eq_true_eq] at h
  unfold Conv.float
  rcases h with h | h <;> rw [h] <;> decide

theorem Counts.of_eq {c : Conv F} {r : List Frag × Nat} (h : r.1.flatten.length = r.2)
    (hw : c.wide = false) : Counts c r := by
  refine ⟨Nat.le_of_eq h, fun _ => ?_, fun _ => h⟩
  rintro ⟨hw', -⟩
  rw [hw] at hw'
  cases hw'

theorem wide_counts {env : Env F} {c : Conv F} {ws : Block (BitVec 32)} {p : Int} {r : List Frag × Nat}
    (hc : c.wide) (h : wide env ws c.w p c.flags = .ok r) : Counts c r := by
  simp only [wide] at h
  split at h
  · cases h
  rename_i i hi
  split at h
  · cases h
  cases h
  have hout := (wideOut_length hi).2 i (by omega)
  have hlen : (pad (ch ' ') c.w i c.flags ++ wideOut env.utf8 ws i i 0 0 ++
      pad (ch ' ') c.w i c.flags.flipLeft).flatten.length = if c.flags.zeroPad then i else (max c.w i).toNat := by
    simp only [List.flatten_append, List.length_append, pad_length, hout, Flags.flipLeft]
    cases c.flags.leftAdj <;> cases c.flags.zeroPad <;> simp
    · omega
    · omega
  have hshort : ∀ n, c.Short n ↔ c.flags.zeroPad = true ∧ (n.1.flatten.length : Int) < c.w := by
    intro n
    simp [Conv.Short, hc]
  constructor
  · rw [hlen]
    split <;> simp only <;> omega
  · rw [hshort, hlen]
    split
    · rename_i hz
      simp only [hz, true_and]
      omega
    · rename_i hz
      simp [hz]

theorem fmtFp_counts {env : Env F} {c : Conv F} {r : List Frag × Nat} (hc : c.float)
    (h : fmtFp env c.arg.f c.w c.p c.flags c.letter = .ok r) : Counts c r := by
  have hw : c.wide = false := by
    cases hw : c.wide with
    | false => rfl
    | true => rw [Conv.float_of_wide hw] at hc; cases hc
  simp only [fmtFp] at h
  split at h
  · cases h
    refine Counts.of_eq (special_length c.flags_proper c.w ?_) hw
    split <;> rfl
  · cases h
    refine Counts.of_eq (special_length c.flags_proper c.w ?_) hw
    split <;> rfl
  · exact Counts.of_eq (env.fp.exact h c.flags_proper) hw

/-- **A conversion** counts no less than it writes, and as much unless it is short. -/
theorem convert_counts {env : Env F} {cnt : Nat} {m : Mem} {c : Conv F} {q : (List Frag × Nat) × Mem}
    (h : convert env cnt m c = .ok q) : Counts c q.1 := by
  unfold convert at h
  split at h
  · rename_i hn
    cases h
    exact Counts.of_eq rfl (by rw [Conv.wide, hn]; decide)
  split at h
  · rename_i hC
    cases hw : wide env (wideOne c.arg.i) c.w (-1) c.flags with
    | error e => simp only [hw, Except.map, reduceCtorEq] at h
    | ok r =>
      rw [hw] at h
      cases h
      exact wide_counts (by rw [Conv.wide, hC]; decide) hw
  split at h
  · rename_i hS
    cases hw : wide env (wideAt m c.arg.i) c.w c.p c.flags with
    | error e => simp only [hw, Except.map, reduceCtorEq] at h
    | ok r =>
      rw [hw] at h
      cases h
      exact wide_counts (by rw [Conv.wide, hS]; decide) hw
  rename_i hC hS
  split at h
  · rename_i hf
    split at h
    · cases h
    cases hfp : fmtFp env c.arg.f c.w c.p c.flags c.letter with
    | error e => simp only [hfp, Except.map, reduceCtorEq] at h
    | ok r =>
      rw [hfp] at h
      cases h
      exact fmtFp_counts hf hfp
  · cases hb : c.field env m with
    | error e => simp only [hb, bind, Except.bind, Except.map, reduceCtorEq] at h
    | ok b =>
      cases he : emit cnt c.w b with
      | error e => simp only [hb, he, bind, Except.bind, Except.map, reduceCtorEq] at h
      | ok r =>
        simp only [hb, he, bind, Except.bind, Except.map] at h
        cases h
        exact Counts.of_eq (emit_length (Conv.field_proper hb) he) (by simp [Conv.wide, hC, hS])

end Synthol.Stdio
