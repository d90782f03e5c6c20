import Mathlib.Data.List.Infix
import Mathlib.Logic.Function.Basic
import Synthol.Stdio.File

/-!
# Conversion specifications

The part of `printf_core` that reads a format: literal text, then flags, width, precision, length modifiers and the
conversion character, taking arguments where a `*` or the conversion asks for them.

A format is the list of its bytes before the NUL. The variables that reading changes are those of `Scan`; what is left
of the format is always a suffix of what it was (`literal_suffix`, `conversion_suffix`), and a conversion takes at
least its `%` (`conversion_lt`).
-/

namespace Synthol.Stdio

open X86

def intMax : Int := 2147483647

/-! ## Arguments -/

/-- A `long double`: its sign, and what it is. -/
inductive Class (F : Type)
  | nan
  | inf
  | finite (y : F)

structure LongDouble (F : Type) where
  signbit : Bool
  val : Class F

/-- `union arg`. -/
structure Arg (F : Type) where
  i : Word
  f : LongDouble F

/-- The argument types at the end of the state machine. -/
inductive Ty
  | ptr | int | uint | ullong | long | ulong | short | ushort | char | uchar | llong | sizet | imax | umax | pdiff
  | uiptr | dbl | ldbl | noarg
  deriving DecidableEq

/-- The states between length modifiers. -/
inductive Pre
  | bare | lpre | llpre | hpre | hhpre | biglpre | ztpre | jpre
  deriving DecidableEq

section Arguments

variable {F : Type}

/-- The arguments that are still to be taken. What a call does not pass is junk. -/
structure VaList (F : Type) where
  args : List (Arg F)
  junk : Arg F

/-- `va_arg`, before it is read at a type. -/
def VaList.head (ap : VaList F) : Arg F := ap.args.headD ap.junk

def VaList.tail (ap : VaList F) : VaList F := { ap with args := ap.args.tail }

/-- A word read as an `int`. -/
def asInt (x : Word) : Int := (x.setWidth 32).toInt

def popArg (arg : Arg F) : Ty → Arg F
  | .int => { arg with i := (arg.i.setWidth 32).signExtend 64 }
  | .uint => { arg with i := (arg.i.setWidth 32).setWidth 64 }
  | .short => { arg with i := (arg.i.setWidth 16).signExtend 64 }
  | .ushort => { arg with i := (arg.i.setWidth 16).setWidth 64 }
  | .char => { arg with i := (arg.i.setWidth 8).signExtend 64 }
  | .uchar => { arg with i := (arg.i.setWidth 8).setWidth 64 }
  | .ptr | .ullong | .long | .ulong | .llong | .sizet | .imax | .umax | .pdiff | .uiptr | .dbl | .ldbl | .noarg => arg

end Arguments

/-! ## Literal text -/

/-- `s[k]`, the NUL past the end. -/
def byteAt (s : List Byte) (k : Nat) : Byte := s.getD k 0

def isdigit (c : Byte) : Bool := ch '0' ≤ c && c ≤ ch '9'

/-- `c - '0'` -/
def digit (c : Byte) : Nat := c.toNat - 48

/-- The number of `%%` at the head of `s`. -/
def percents : List Byte → Nat
  | c :: d :: s => if c = ch '%' ∧ d = ch '%' then percents s + 1 else 0
  | _ => 0

/-- The bytes from `a` to `z`, and the new `s`. -/
def literal (s : List Byte) : Frag × List Byte :=
  let r := s.dropWhile (· ≠ ch '%')
  (s.takeWhile (· ≠ ch '%') ++ r.take (percents r), r.drop (2 * percents r))

/-! ## Flags -/

structure Flags where
  altForm : Bool := false
  zeroPad : Bool := false
  leftAdj : Bool := false
  padPos : Bool := false
  markPos : Bool := false
  grouped : Bool := false
  deriving DecidableEq

/-- The flag of a character of `FLAGMASK`. -/
def Flags.add (fl : Flags) (c : Byte) : Option Flags :=
  if c = ch '#' then some { fl with altForm := true }
  else if c = ch '0' then some { fl with zeroPad := true }
  else if c = ch '-' then some { fl with leftAdj := true }
  else if c = ch ' ' then some { fl with padPos := true }
  else if c = ch '+' then some { fl with markPos := true }
  else if c = BitVec.ofNat 8 39 then some { fl with grouped := true }
  else none

def readFlags (fl : Flags) : List Byte → Flags × List Byte
  | [] => (fl, [])
  | c :: s =>
    match fl.add c with
    | some fl => readFlags fl s
    | none => (fl, c :: s)

/-! ## Numbers -/

/-- `getint`, from `i` on: `-1` stands for a number that does not fit. -/
def getintFrom (i : Int) : List Byte → Int × List Byte
  | [] => (i, [])
  | c :: s =>
    if isdigit c then
      getintFrom (if i < 0 ∨ i > intMax / 10 ∨ (digit c : Int) > intMax - 10 * i then -1 else 10 * i + digit c) s
    else (i, c :: s)

def getint (s : List Byte) : Int × List Byte := getintFrom 0 s

/-! ## Length modifiers and conversions -/

/-- One step of the state machine: another state, or the type of the argument. -/
inductive Next
  | pre (st : Pre)
  | ty (st : Ty)
  deriving DecidableEq

/-- A row of `states`. A character that is not there has the entry 0. -/
def row : Pre → List (List Char × Next)
  | .bare =>
    [(['d', 'i'], .ty .int), (['o', 'u', 'x', 'X'], .ty .uint),
      (['e', 'f', 'g', 'a', 'E', 'F', 'G', 'A'], .ty .dbl), (['c'], .ty .char), (['C'], .ty .int),
      (['s', 'S'], .ty .ptr), (['p'], .ty .uiptr), (['n'], .ty .ptr), (['m'], .ty .noarg), (['l'], .pre .lpre),
      (['h'], .pre .hpre), (['L'], .pre .biglpre), (['z'], .pre .ztpre), (['j'], .pre .jpre), (['t'], .pre .ztpre)]
  | .lpre =>
    [(['d', 'i'], .ty .long), (['o', 'u', 'x', 'X'], .ty .ulong),
      (['e', 'f', 'g', 'a', 'E', 'F', 'G', 'A'], .ty .dbl), (['c'], .ty .int), (['s'], .ty .ptr), (['n'], .ty .ptr),
      (['l'], .pre .llpre)]
  | .llpre => [(['d', 'i'], .ty .llong), (['o', 'u', 'x', 'X'], .ty .ullong), (['n'], .ty .ptr)]
  | .hpre =>
    [(['d', 'i'], .ty .short), (['o', 'u', 'x', 'X'], .ty .ushort), (['n'], .ty .ptr), (['h'], .pre .hhpre)]
  | .hhpre => [(['d', 'i'], .ty .char), (['o', 'u', 'x', 'X'], .ty .uchar), (['n'], .ty .ptr)]
  | .biglpre => [(['e', 'f', 'g', 'a', 'E', 'F', 'G', 'A'], .ty .ldbl), (['n'], .ty .ptr)]
  | .ztpre => [(['d', 'i'], .ty .pdiff), (['o', 'u', 'x', 'X'], .ty .sizet), (['n'], .ty .ptr)]
  | .jpre => [(['d', 'i'], .ty .imax), (['o', 'u', 'x', 'X'], .ty .umax), (['n'], .ty .ptr)]

/-- `states[st]S(c)` -/
def states (st : Pre) (c : Byte) : Option Next :=
  ((row st).find? fun e => e.1.any fun d => ch d = c).map Prod.snd

/-- Why `printf_core` does not reach the end of the format. `zero` is the `return 0` of the first pass. `undefined` is no
return: an `int` has overflowed, and nothing is known from there on. -/
inductive Stop
  | inval | overflow | ilseq | zero | undefined
  deriving DecidableEq

theorem map_ok {α β : Type} {x : Except Stop α} {f : α → β} {b : β} :
    x.map f = .ok b ↔ ∃ a, x = .ok a ∧ f a = b := by
  cases x <;> simp [Except.map]

theorem map_error {α β : Type} {x : Except Stop α} {f : α → β} {e : Stop} : x.map f = .error e ↔ x = .error e := by
  cases x <;> simp [Except.map]

theorem bind_error {α β : Type} {x : Except Stop α} {f : α → Except Stop β} {e : Stop} :
    x >>= f = .error e ↔ x = .error e ∨ ∃ a, x = .ok a ∧ f a = .error e := by
  cases x <;> simp [bind, Except.bind]

theorem bind_ok {α β : Type} {x : Except Stop α} {f : α → Except Stop β} {b : β} :
    x >>= f = .ok b ↔ ∃ a, x = .ok a ∧ f a = .ok b := by
  cases x <;> simp [bind, Except.bind]

/-- The state machine from `st` on: the argument type, the last state, the conversion character and what follows. -/
def machine : Pre → List Byte → Except Stop ((Ty × Pre × Byte) × List Byte)
  | _, [] => .error .inval
  | ps, c :: s =>
    match states ps c with
    | none => .error .inval
    | some (.pre st) => machine st s
    | some (.ty st) => .ok ((st, ps, c), s)

/-! ## A conversion specification -/

/-- What a pass does not change: whether it has a stream, and the arguments by position. -/
structure Pass (F : Type) where
  f : Bool
  nlArg : Nat → Arg F

/-- The variables of `printf_core` that reading a conversion changes. -/
structure Scan (F : Type) where
  s : List Byte
  l10n : Bool
  ap : VaList F
  nlType : Nat → Option Ty

/-- A conversion specification with its argument. -/
structure Conv (F : Type) where
  fl : Flags
  w : Int
  p : Int
  xp : Bool
  ps : Pre
  t : Byte
  arg : Arg F

section Reading

variable {F : Type} (cx : Pass F)

/-- `isdigit(s[k]) && s[k+1]=='$'` -/
def positional (s : List Byte) (k : Nat) : Bool := isdigit (byteAt s k) && byteAt s (k + 1) = ch '$'

/-- After the `%`: the position of the argument, or `-1`. -/
def argpos (v : Scan F) : Option Nat × Scan F :=
  if positional v.s 1 then (some (digit (byteAt v.s 1)), { v with l10n := true, s := v.s.drop 3 })
  else (none, { v with s := v.s.drop 1 })

/-- The value of a `*`. Of the two places where one may stand, only that of the width sets `l10n`. -/
def star (isWidth : Bool) (v : Scan F) : Except Stop (Int × Scan F) :=
  if positional v.s 1 then
    let k := digit (byteAt v.s 1)
    .ok (asInt (cx.nlArg k).i,
      { v with l10n := v.l10n || isWidth, nlType := Function.update v.nlType k (some .int), s := v.s.drop 3 })
  else if v.l10n then .error .inval
  else if cx.f then .ok (asInt v.ap.head.i, { v with ap := v.ap.tail, s := v.s.drop 1 })
  else .ok (0, { v with s := v.s.drop 1 })

/-- `-w` as the machine has it: there is no opposite of the least `int`. -/
def negInt (w : Int) : Int := if w = -2147483648 then w else -w

def width (fl : Flags) (v : Scan F) : Except Stop ((Int × Flags) × Scan F) :=
  if byteAt v.s 0 = ch '*' then
    (star cx true v).map fun (w, v) => if w < 0 then ((negInt w, { fl with leftAdj := true }), v) else ((w, fl), v)
  else
    let (w, s) := getint v.s
    if w < 0 then .error .overflow else .ok ((w, fl), { v with s := s })

/-- The precision and `xp`. -/
def precision (v : Scan F) : Except Stop ((Int × Bool) × Scan F) :=
  if byteAt v.s 0 = ch '.' then
    let v := { v with s := v.s.drop 1 }
    if byteAt v.s 0 = ch '*' then (star cx false v).map fun (p, v) => ((p, decide (p ≥ 0)), v)
    else
      let (p, s) := getint v.s
      .ok ((p, true), { v with s := s })
  else .ok ((-1, false), v)

/-- The check of the argument's type against its position, and the argument. -/
def argument (st : Ty) (pos : Option Nat) (v : Scan F) : Except Stop (Arg F × Scan F) :=
  match st, pos with
  | .noarg, some _ => .error .inval
  | .noarg, none => .ok (v.ap.junk, v)
  | st, some k => .ok (cx.nlArg k, { v with nlType := Function.update v.nlType k (some st) })
  | st, none => if cx.f then .ok (popArg v.ap.head st, { v with ap := v.ap.tail }) else .error .zero

/-- From the `%` to the argument. -/
def conversion (v : Scan F) : Except Stop (Conv F × Scan F) := do
  let (pos, v) := argpos v
  let (fl, s) := readFlags {} v.s
  let ((w, fl), v) ← width cx fl { v with s := s }
  let ((p, xp), v) ← precision cx v
  let ((st, ps, t), s) ← machine .bare v.s
  let (arg, v) ← argument cx st pos { v with s := s }
  pure ({ fl := fl, w := w, p := p, xp := xp, ps := ps, t := t, arg := arg }, v)

/-! ## What is left of the format -/

theorem percents_le : ∀ s : List Byte, 2 * percents s ≤ s.length
  | [] | [_] => Nat.zero_le _
  | c :: d :: s => by
    have ih := percents_le s
    rw [percents]
    split <;> simp only [List.length_cons] <;> omega

theorem literal_suffix (s : List Byte) : (literal s).2 <:+ s :=
  (List.drop_suffix _ _).trans (List.dropWhile_suffix _)

theorem takeWhile_ne_nil {s : List Byte} {q : Byte → Bool} (h : s.takeWhile q ≠ []) :
    (s.dropWhile q).length < s.length := by
  have hlen := congrArg List.length (List.takeWhile_append_dropWhile (p := q) (l := s))
  have hpos := List.length_pos_iff.mpr h
  rw [List.length_append] at hlen
  omega

/-- Literal text takes something of the format. -/
theorem literal_lt {s : List Byte} (h : (literal s).1 ≠ []) : (literal s).2.length < s.length := by
  by_cases hw : s.takeWhile (· ≠ ch '%') = []
  · have hr : s.dropWhile (· ≠ ch '%') = s := by
      have happ := List.takeWhile_append_dropWhile (p := fun c => decide (c ≠ ch '%')) (l := s)
      rwa [hw, List.nil_append] at happ
    have hp : percents s ≠ 0 := by
      intro h0
      apply h
      simp only [literal, hw, hr, h0, List.take_zero, List.append_nil]
    have hle := percents_le s
    simp only [literal, hr, List.length_drop]
    omega
  · exact Nat.lt_of_le_of_lt (List.drop_suffix _ _).length_le (takeWhile_ne_nil hw)

theorem readFlags_suffix : ∀ (s : List Byte) (fl : Flags), (readFlags fl s).2 <:+ s
  | [], _ => List.suffix_refl _
  | c :: s, fl => by
    rw [readFlags]
    cases fl.add c with
    | none => exact List.suffix_refl _
    | some fl => exact (readFlags_suffix s fl).trans (List.suffix_cons c s)

theorem getintFrom_suffix : ∀ (s : List Byte) (i : Int), (getintFrom i s).2 <:+ s
  | [], _ => List.suffix_refl _
  | c :: s, i => by
    rw [getintFrom]
    split
    · exact (getintFrom_suffix s _).trans (List.suffix_cons c s)
    · exact List.suffix_refl _

theorem machine_suffix : ∀ {s : List Byte} {st : Pre} {r}, machine st s = .ok r → r.2 <:+ s
  | [], _, _, h => by cases h
  | c :: s, st, r, h => by
    rw [machine] at h
    cases hst : states st c with
    | none => simp [hst] at h
    | some next =>
      cases next with
      | pre st' =>
        simp only [hst] at h
        exact (machine_suffix h).trans (List.suffix_cons c s)
      | ty st' =>
        simp only [hst, Except.ok.injEq] at h
        subst h
        exact List.suffix_cons c s

theorem argpos_suffix (v : Scan F) : (argpos v).2.s <:+ v.s.drop 1 := by
  unfold argpos
  split
  · have h := List.drop_suffix 2 (v.s.drop 1)
    rwa [List.drop_drop] at h
  · exact List.suffix_refl _

variable {cx}

theorem star_suffix {b : Bool} {v : Scan F} {r} (h : star cx b v = .ok r) : r.2.s <:+ v.s := by
  unfold star at h
  split at h
  · cases h
    exact List.drop_suffix _ _
  · split at h
    · cases h
    · split at h <;> cases h <;> exact List.drop_suffix _ _

theorem width_suffix {fl : Flags} {v : Scan F} {r} (h : width cx fl v = .ok r) : r.2.s <:+ v.s := by
  unfold width at h
  split at h
  · cases hs : star cx true v with
    | error e => simp only [hs, Except.map, reduceCtorEq] at h
    | ok q =>
      simp only [hs, Except.map, Except.ok.injEq] at h
      subst h
      split <;> exact star_suffix hs
  · simp only at h
    split at h
    · cases h
    · cases h
      exact getintFrom_suffix _ _

theorem precision_suffix {v : Scan F} {r} (h : precision cx v = .ok r) : r.2.s <:+ v.s := by
  unfold precision at h
  split at h
  · simp only at h
    split at h
    · cases hs : star cx false { v with s := v.s.drop 1 } with
      | error e => simp only [hs, Except.map, reduceCtorEq] at h
      | ok q =>
        simp only [hs, Except.map, Except.ok.injEq] at h
        subst h
        exact (star_suffix hs).trans (List.drop_suffix _ _)
    · cases h
      exact (getintFrom_suffix _ _).trans (List.drop_suffix _ _)
  · cases h
    exact List.suffix_refl _

theorem argument_suffix {st : Ty} {pos : Option Nat} {v : Scan F} {r} (h : argument cx st pos v = .ok r) :
    r.2.s = v.s := by
  unfold argument at h
  split at h
  · cases h
  · cases h
    rfl
  · cases h
    rfl
  · split at h <;> cases h
    rfl

/-- **A conversion specification** takes at least its `%`. -/
theorem conversion_suffix {v : Scan F} {r} (h : conversion cx v = .ok r) : r.2.s <:+ v.s.drop 1 := by
  simp only [conversion, bind, Except.bind, pure, Except.pure] at h
  split at h
  · cases h
  rename_i q₁ hw
  split at h
  · cases h
  rename_i q₂ hp
  split at h
  · cases h
  rename_i q₃ hm
  split at h
  · cases h
  rename_i q₄ ha
  cases h
  have h₁ := (width_suffix hw).trans (readFlags_suffix _ _)
  have h₂ := (precision_suffix hp).trans h₁
  have h₃ := (machine_suffix hm).trans h₂
  have h₄ : q₄.2.s = q₃.2 := argument_suffix ha
  rw [h₄]
  exact h₃.trans (argpos_suffix v)

theorem conversion_lt {v : Scan F} {r} (h : conversion cx v = .ok r) (hs : v.s ≠ []) :
    r.2.s.length < v.s.length := by
  have hle := (conversion_suffix h).length_le
  have hpos := List.length_pos_iff.mpr hs
  rw [List.length_drop] at hle
  omega

/-! ## Reading is defined -/

theorem star_defined (b : Bool) (v : Scan F) : star cx b v ≠ .error .undefined := by
  intro h
  unfold star at h
  split at h
  · cases h
  · split at h
    · cases h
    · split at h <;> cases h

theorem width_defined (fl : Flags) (v : Scan F) : width cx fl v ≠ .error .undefined := by
  intro h
  unfold width at h
  split at h
  · exact star_defined _ _ (map_error.mp h)
  · simp only at h
    split at h <;> cases h

theorem precision_defined (v : Scan F) : precision cx v ≠ .error .undefined := by
  intro h
  unfold precision at h
  split at h
  · simp only at h
    split at h
    · exact star_defined _ _ (map_error.mp h)
    · cases h
  · cases h

theorem machine_defined : ∀ {s : List Byte} {st : Pre}, machine st s ≠ .error .undefined
  | [], _ => by
    intro h
    cases h
  | c :: s, st => by
    rw [machine]
    split
    · exact fun h => by cases h
    · exact machine_defined
    · exact fun h => by cases h

theorem argument_defined (st : Ty) (pos : Option Nat) (v : Scan F) : argument cx st pos v ≠ .error .undefined := by
  intro h
  unfold argument at h
  split at h
  · cases h
  · cases h
  · cases h
  · split at h <;> cases h

theorem conversion_defined (v : Scan F) : conversion cx v ≠ .error .undefined := by
  intro h
  simp only [conversion] at h
  rcases bind_error.mp h with h | ⟨q₁, -, h⟩
  · exact width_defined _ _ h
  rcases bind_error.mp h with h | ⟨q₂, -, h⟩
  · exact precision_defined _ h
  rcases bind_error.mp h with h | ⟨q₃, -, h⟩
  · exact machine_defined h
  rcases bind_error.mp h with h | ⟨q₄, -, h⟩
  · exact argument_defined _ _ _ h
  · cases h

end Reading

end Synthol.Stdio
