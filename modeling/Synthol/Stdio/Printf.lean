import Synthol.Stdio.Convert

/-!
# printf_core

The loop of `printf_core`. A turn takes literal text or one conversion specification (`turn`); what it hands to `out`
is recorded as pieces, each with the number of bytes that it counts. Nothing that `out` does comes back to the loop, so
the calls can be made afterwards in the same order.

The function is called twice. The first pass has no stream and looks for arguments given by position (`firstPass`), the
second one writes (`secondPass`).

- a turn takes a byte of the format at least, so that the loop ends (`loop_ends`);
- the first pass returns where the arguments are found (`firstPass_found`), and the second gets to the end where each
  specification is accepted with what has been counted before it (`loop_accepted`), which is said without the loop;
- the count is the sum over the pieces (`turn_counts`, `loop_counts`);
- what the second pass returns is at least the length of its text, the same exactly when no piece is short, and at most
  `INT_MAX` (`passes_counts`).
-/

namespace Synthol.Stdio

open X86

variable {F : Type}

/-! ## The loop -/

/-- The calls of `out` of one conversion, or of literal text, and what is counted for them. -/
structure Piece (F : Type) where
  conv : Option (Conv F)
  frags : List Frag
  l : Nat

/-- The variables of `printf_core` that last. -/
structure State (F : Type) where
  v : Scan F
  m : Mem
  cnt : Nat
  l : Nat

/-- `if (f) out(f, a, l);` -/
def Pass.lit (cx : Pass F) (a : Frag) : List (Piece F) := if cx.f then [⟨none, [a], a.length⟩] else []

section Loop

variable (env : Env F) (cx : Pass F)

/-- The body of the loop after the check for the end of the format. -/
def turn (x : State F) : List (Piece F) × Except Stop (State F) :=
  let a := (literal x.v.s).1
  let v := { x.v with s := (literal x.v.s).2 }
  if (a.length : Int) > intMax - x.cnt then ([], .error .overflow)
  else if a ≠ [] then (cx.lit a, .ok { x with v := v, l := a.length })
  else
    match conversion cx v with
    | .error e => (cx.lit a, .error e)
    | .ok (c, v) =>
      if cx.f then
        match convert env x.cnt x.m c with
        | .error e => (cx.lit a, .error e)
        | .ok ((fs, l), m) => (cx.lit a ++ [⟨some c, fs, l⟩], .ok { v := v, m := m, cnt := x.cnt, l := l })
      else (cx.lit a, .ok { x with v := v, l := 0 })

end Loop

/-- What the loop hands to `out`, the memory that it leaves, and how it ends, if it does. -/
structure Trace (F : Type) where
  pieces : List (Piece F)
  m : Mem
  stop : Option (Except Stop (State F))

/-- The loop for `n` turns. -/
def loop (env : Env F) (cx : Pass F) : Nat → State F → Trace F
  | 0, x => ⟨[], x.m, none⟩
  | n + 1, x =>
    if (x.l : Int) > intMax - x.cnt then ⟨[], x.m, some (.error .overflow)⟩
    else
      let x := { x with cnt := x.cnt + x.l, l := 0 }
      if x.v.s = [] then ⟨[], x.m, some (.ok x)⟩
      else
        match turn env cx x with
        | (qs, .error e) => ⟨qs, x.m, some (.error e)⟩
        | (qs, .ok x') => { loop env cx n x' with pieces := qs ++ (loop env cx n x').pieces }

def Scan.start (fmt : List Byte) (ap : VaList F) : Scan F :=
  { s := fmt, l10n := false, ap := ap, nlType := fun _ => none }

def start (fmt : List Byte) (ap : VaList F) (m : Mem) : State F := { v := .start fmt ap, m := m, cnt := 0, l := 0 }

/-! ## The first pass -/

def nlArgmax : Nat := 9

/-- `for (i=1; i<=NL_ARGMAX && nl_type[i]; i++) pop_arg(nl_arg+i, nl_type[i], ap);` from `i` on, where `n` positions are
left. -/
def popArgs (nlType : Nat → Option Ty) : Nat → Nat → VaList F → (Nat → Arg F) → Nat × VaList F × (Nat → Arg F)
  | 0, i, ap, nlArg => (i, ap, nlArg)
  | n + 1, i, ap, nlArg =>
    match nlType i with
    | none => (i, ap, nlArg)
    | some st => popArgs nlType n (i + 1) ap.tail (Function.update nlArg i (popArg ap.head st))

/-- `printf_core(0, fmt, &ap2, nl_arg, nl_type)`: what it leaves in `ap2` and `nl_arg`, `none` for `-1`. -/
def firstPass (env : Env F) (fmt : List Byte) (ap : VaList F) (nlArg : Nat → Arg F) (m : Mem) :
    Option (VaList F × (Nat → Arg F)) :=
  match (loop env ⟨false, nlArg⟩ (fmt.length + 1) (start fmt ap m)).stop with
  | some (.error .zero) => some (ap, nlArg)
  | some (.ok x) =>
    if x.v.l10n then
      let r := popArgs x.v.nlType nlArgmax 1 x.v.ap nlArg
      if (List.range' r.1 (nlArgmax + 1 - r.1)).any fun i => (x.v.nlType i).isSome then none else some r.2
    else some (ap, nlArg)
  | _ => none

/-! ## The second pass -/

/-- What a pass with a stream does: the calls of `out`, the memory that the stores of `%n` leave, and what is returned,
`none` where that is undefined. -/
structure Printed (F : Type) where
  pieces : List (Piece F)
  m : Mem
  ret : Option Int

def Printed.frags (r : Printed F) : List Frag := r.pieces.flatMap Piece.frags

/-- The text. -/
def Printed.text (r : Printed F) : List Byte := r.frags.flatten

/-- `printf_core(f, fmt, &ap2, nl_arg, nl_type)`. The `nl_type` that the first pass has filled is not read again. -/
def secondPass (env : Env F) (fmt : List Byte) (ap : VaList F) (nlArg : Nat → Arg F) (m : Mem) : Printed F :=
  let r := loop env ⟨true, nlArg⟩ (fmt.length + 1) (start fmt ap m)
  { pieces := r.pieces
    m := r.m
    ret := match r.stop with
      | some (.ok x) => some x.cnt
      | some (.error .undefined) => none
      | _ => some (-1) }

/-- The two calls that `vfprintf` makes: `none` if the first fails. -/
def passes (env : Env F) (fmt : List Byte) (ap : VaList F) (m : Mem) : Option (Printed F) :=
  (firstPass env fmt ap env.nlArg m).map fun r => secondPass env fmt r.1 r.2 m

def pieces (env : Env F) (fmt : List Byte) (ap : VaList F) (m : Mem) : List (Piece F) :=
  ((passes env fmt ap m).map Printed.pieces).getD []

/-- The calls of `out`, in order. -/
def fragments (env : Env F) (fmt : List Byte) (ap : VaList F) (m : Mem) : List Frag :=
  (pieces env fmt ap m).flatMap Piece.frags

/-- The whole text, however much of it there is room for. -/
def fullText (env : Env F) (fmt : List Byte) (ap : VaList F) (m : Mem) : List Byte := (fragments env fmt ap m).flatten

/-! ## Turns -/

section Turns

variable {env : Env F} {cx : Pass F} {x : State F} {cs s : List Byte} (hlit : literal x.v.s = (cs, s))
include hlit

theorem turn_over (h : (cs.length : Int) > intMax - x.cnt) : turn env cx x = ([], .error .overflow) := by
  simp only [turn, hlit, if_pos h]

variable (h : ¬(cs.length : Int) > intMax - x.cnt)
include h

theorem turn_lit (hcs : cs ≠ []) :
    turn env cx x = (cx.lit cs, .ok { x with v := { x.v with s := s }, l := cs.length }) := by
  simp only [turn, hlit, if_neg h, if_pos hcs]

theorem turn_error {e : Stop} (hcs : cs = []) (hc : conversion cx { x.v with s := s } = .error e) :
    turn env cx x = (cx.lit cs, .error e) := by
  simp only [turn, hlit, if_neg h, if_neg (not_not.mpr hcs), hc]

theorem turn_skip {c : Conv F} {v : Scan F} (hcs : cs = []) (hf : cx.f = false)
    (hc : conversion cx { x.v with s := s } = .ok (c, v)) :
    turn env cx x = (cx.lit cs, .ok { x with v := v, l := 0 }) := by
  simp only [turn, hlit, if_neg h, if_neg (not_not.mpr hcs), hc, hf, Bool.false_eq_true, if_false]

theorem turn_stop {c : Conv F} {v : Scan F} {e : Stop} (hcs : cs = []) (hf : cx.f = true)
    (hc : conversion cx { x.v with s := s } = .ok (c, v)) (hconv : convert env x.cnt x.m c = .error e) :
    turn env cx x = (cx.lit cs, .error e) := by
  simp only [turn, hlit, if_neg h, if_neg (not_not.mpr hcs), hc, hf, if_true, hconv]

theorem turn_conv {c : Conv F} {v : Scan F} {fs : List Frag} {l : Nat} {m : Mem} (hcs : cs = []) (hf : cx.f = true)
    (hc : conversion cx { x.v with s := s } = .ok (c, v)) (hconv : convert env x.cnt x.m c = .ok ((fs, l), m)) :
    turn env cx x = (cx.lit cs ++ [⟨some c, fs, l⟩], .ok { v := v, m := m, cnt := x.cnt, l := l }) := by
  simp only [turn, hlit, if_neg h, if_neg (not_not.mpr hcs), hc, hf, if_true, hconv]

end Turns

/-! ## The loop ends -/

section Ends

variable {env : Env F} {cx : Pass F}

theorem turn_lt {x : State F} (hs : x.v.s ≠ []) {x' : State F} (h : (turn env cx x).2 = .ok x') :
    x'.v.s.length < x.v.s.length := by
  simp only [turn] at h
  split at h
  · cases h
  split at h
  · rename_i ha
    cases h
    exact literal_lt ha
  rename_i ha
  have hle : (literal x.v.s).2.length ≤ x.v.s.length := (literal_suffix x.v.s).length_le
  split at h
  · cases h
  rename_i c v hc
  have hlt : v.s.length < x.v.s.length := by
    by_cases hr : (literal x.v.s).2 = []
    · have hv := (conversion_suffix hc).length_le
      simp only [hr, List.drop_nil, List.length_nil, Nat.le_zero] at hv
      rw [hv]
      exact List.length_pos_iff.mpr hs
    · exact Nat.lt_of_lt_of_le (conversion_lt hc hr) hle
  split at h
  · split at h <;> cases h
    exact hlt
  · cases h
    exact hlt

/-- **The loop ends**: the bytes of the format are turns enough. -/
theorem loop_ends : ∀ {n : Nat} {x : State F}, x.v.s.length < n → (loop env cx n x).stop ≠ none
  | 0, _, h => absurd h (Nat.not_lt_zero _)
  | n + 1, x, h => by
    rw [loop]
    split
    · exact Option.some_ne_none _
    simp only
    split
    · exact Option.some_ne_none _
    rename_i hs
    split
    · exact Option.some_ne_none _
    · rename_i qs x' ht
      have hlt := turn_lt (x := { x with cnt := x.cnt + x.l, l := 0 }) hs (congrArg Prod.snd ht)
      exact loop_ends (Nat.lt_of_lt_of_le hlt (Nat.le_of_lt_succ h))

end Ends

/-! ## The formats that are accepted -/

/-- From `v` on the format is literal text and specifications that can be read and converted, and what is counted for
each fits in an `int` with the `cnt` bytes before it. -/
inductive Accepted (env : Env F) (cx : Pass F) : Scan F → Mem → Nat → Prop
  | done {v m cnt} : v.s = [] → Accepted env cx v m cnt
  | text {v m} {cnt : Nat} : (literal v.s).1 ≠ [] → ((cnt + (literal v.s).1.length : Nat) : Int) ≤ intMax →
    Accepted env cx { v with s := (literal v.s).2 } m (cnt + (literal v.s).1.length) → Accepted env cx v m cnt
  | spec {v v' c m m' fs} {cnt l : Nat} : v.s ≠ [] → (literal v.s).1 = [] →
    conversion cx { v with s := (literal v.s).2 } = .ok (c, v') → convert env cnt m c = .ok ((fs, l), m') →
    ((cnt + l : Nat) : Int) ≤ intMax → Accepted env cx v' m' (cnt + l) → Accepted env cx v m cnt

/-- From `v` on the format is literal text that fits in the count and specifications that can be read, up to an argument
that is taken in order (`none`), or to the end. -/
inductive Surveyed (cx : Pass F) : Scan F → Nat → Option (Scan F) → Prop
  | done {v cnt} : v.s = [] → Surveyed cx v cnt (some v)
  | text {v r} {cnt : Nat} : (literal v.s).1 ≠ [] → ((cnt + (literal v.s).1.length : Nat) : Int) ≤ intMax →
    Surveyed cx { v with s := (literal v.s).2 } (cnt + (literal v.s).1.length) r → Surveyed cx v cnt r
  | spec {v v' c r cnt} : v.s ≠ [] → (literal v.s).1 = [] →
    conversion cx { v with s := (literal v.s).2 } = .ok (c, v') → Surveyed cx v' cnt r → Surveyed cx v cnt r
  | arg {v cnt} : v.s ≠ [] → (literal v.s).1 = [] →
    conversion cx { v with s := (literal v.s).2 } = .error .zero → Surveyed cx v cnt none

/-- What the first pass leaves of the arguments: all of them, or those that are given by position, from 1 on without a
gap. -/
inductive Found (fmt : List Byte) (ap : VaList F) (nlArg : Nat → Arg F) : VaList F × (Nat → Arg F) → Prop
  | inOrder {r} : Surveyed ⟨false, nlArg⟩ (.start fmt ap) 0 r → (∀ v, r = some v → v.l10n = false) →
    Found fmt ap nlArg (ap, nlArg)
  | byPosition {v} : Surveyed ⟨false, nlArg⟩ (.start fmt ap) 0 (some v) → v.l10n = true →
    (∀ i, (popArgs v.nlType nlArgmax 1 v.ap nlArg).1 ≤ i → i ≤ nlArgmax → v.nlType i = none) →
    Found fmt ap nlArg (popArgs v.nlType nlArgmax 1 v.ap nlArg).2

/-- The arguments are found, and with them the format is accepted. -/
def Accepts (env : Env F) (fmt : List Byte) (ap : VaList F) (m : Mem) : Prop :=
  ∃ r, Found fmt ap env.nlArg r ∧ Accepted env ⟨true, r.2⟩ (.start fmt r.1) m 0

section Finding

variable {env : Env F} {nlArg : Nat → Arg F}

theorem turn_surveyed {x : State F} (hs : x.v.s ≠ []) (hc : (x.cnt : Int) ≤ intMax) {r : Option (Scan F)} :
    Surveyed ⟨false, nlArg⟩ x.v x.cnt r ↔
      (r = none ∧ ∃ qs, turn env ⟨false, nlArg⟩ x = (qs, .error .zero)) ∨
        ∃ qs y, turn env ⟨false, nlArg⟩ x = (qs, .ok y) ∧ ((y.cnt + y.l : Nat) : Int) ≤ intMax ∧
          Surveyed ⟨false, nlArg⟩ y.v (y.cnt + y.l) r := by
  have hlit : literal x.v.s = ((literal x.v.s).1, (literal x.v.s).2) := rfl
  have hlen (hnil : (literal x.v.s).1 = []) : ¬((literal x.v.s).1.length : Int) > intMax - x.cnt := by
    rw [hnil, List.length_nil]
    omega
  constructor
  · intro h
    cases h with
    | done hnil => exact absurd hnil hs
    | text hne hle hrest => exact .inr ⟨_, _, turn_lit hlit (by omega) hne, hle, hrest⟩
    | spec _ hnil hconv hrest => exact .inr ⟨_, _, turn_skip hlit (hlen hnil) hnil rfl hconv, hc, hrest⟩
    | arg _ hnil hconv => exact .inl ⟨rfl, _, turn_error hlit (hlen hnil) hnil hconv⟩
  · intro h
    by_cases hover : ((literal x.v.s).1.length : Int) > intMax - x.cnt
    · rw [turn_over hlit hover] at h
      rcases h with ⟨-, _, ht⟩ | ⟨_, _, ht, -⟩ <;> cases ht
    by_cases hnil : (literal x.v.s).1 = []
    · cases hconv : conversion ⟨false, nlArg⟩ { x.v with s := (literal x.v.s).2 } with
      | error e =>
        rw [turn_error hlit hover hnil hconv] at h
        rcases h with ⟨rfl, _, ht⟩ | ⟨_, _, ht, -⟩
        · cases ht
          exact .arg hs hnil hconv
        · cases ht
      | ok q =>
        rw [turn_skip hlit hover hnil rfl hconv] at h
        rcases h with ⟨-, _, ht⟩ | ⟨_, _, ht, -, hrest⟩
        · cases ht
        · cases ht
          exact .spec hs hnil hconv hrest
    · rw [turn_lit hlit hover hnil] at h
      rcases h with ⟨-, _, ht⟩ | ⟨_, _, ht, hle, hrest⟩
      · cases ht
      · cases ht
        exact .text hnil hle hrest

theorem surveyed_end {cx : Pass F} {v : Scan F} {cnt : Nat} {r : Option (Scan F)} (hs : v.s = []) :
    Surveyed cx v cnt r ↔ r = some v := by
  constructor
  · intro h
    cases h with
    | done => rfl
    | text hne => exact absurd (by rw [hs]; rfl) hne
    | spec hne => exact absurd hs hne
    | arg hne => exact absurd hs hne
  · rintro rfl
    exact .done hs

/-- How the loop of the first pass ends. -/
def Reaches (stop : Option (Except Stop (State F))) : Option (Scan F) → Prop
  | none => stop = some (.error .zero)
  | some v => ∃ y, stop = some (.ok y) ∧ y.v = v

theorem reaches_error {e : Stop} {r : Option (Scan F)} : Reaches (some (.error e)) r ↔ e = .zero ∧ r = none := by
  cases r with
  | none => simp [Reaches]
  | some v => simp [Reaches]

theorem reaches_ok {y : State F} {r : Option (Scan F)} : Reaches (some (.ok y)) r ↔ r = some y.v := by
  cases r with
  | none => simp [Reaches]
  | some v => simp [Reaches, eq_comm]

/-- **The first pass** gets as far as the format can be read. -/
theorem loop_surveyed : ∀ {n : Nat} {x : State F} {r : Option (Scan F)}, x.v.s.length < n →
    (Reaches (loop env ⟨false, nlArg⟩ n x).stop r ↔
      ((x.cnt + x.l : Nat) : Int) ≤ intMax ∧ Surveyed ⟨false, nlArg⟩ x.v (x.cnt + x.l) r)
  | 0, _, _, h => absurd h (Nat.not_lt_zero _)
  | n + 1, x, r, hn => by
    rw [loop]
    by_cases hl : (x.l : Int) > intMax - x.cnt
    · rw [if_pos hl, reaches_error]
      exact iff_of_false (fun h => by cases h.1) fun h => by omega
    rw [if_neg hl]
    have hle : ((x.cnt + x.l : Nat) : Int) ≤ intMax := by omega
    simp only [hle, true_and]
    by_cases hs : x.v.s = []
    · rw [if_pos hs, reaches_ok, surveyed_end hs]
    rw [if_neg hs]
    have hturn : Surveyed ⟨false, nlArg⟩ x.v (x.cnt + x.l) r ↔ _ :=
      @turn_surveyed F env nlArg { x with cnt := x.cnt + x.l, l := 0 } hs hle r
    rw [hturn]
    cases ht : turn env ⟨false, nlArg⟩ { x with cnt := x.cnt + x.l, l := 0 } with
    | mk qs t =>
      cases t with
      | error e =>
        rw [reaches_error]
        constructor
        · rintro ⟨rfl, rfl⟩
          exact .inl ⟨rfl, _, rfl⟩
        · rintro (⟨rfl, _, hq⟩ | ⟨_, _, hq, -⟩)
          · cases hq
            exact ⟨rfl, rfl⟩
          · cases hq
      | ok y =>
        have hlt := turn_lt (x := { x with cnt := x.cnt + x.l, l := 0 }) hs (congrArg Prod.snd ht)
        refine (loop_surveyed (Nat.lt_of_lt_of_le hlt (Nat.le_of_lt_succ hn))).trans ⟨fun h => .inr ⟨_, _, rfl, h⟩, ?_⟩
        rintro (⟨-, _, hq⟩ | ⟨_, _, hq, h⟩)
        · cases hq
        · cases hq
          exact h

/-- **The arguments are found** where the first pass returns. -/
theorem firstPass_found {fmt : List Byte} {ap : VaList F} {m : Mem} {r : VaList F × (Nat → Arg F)} :
    firstPass env fmt ap nlArg m = some r ↔ Found fmt ap nlArg r := by
  have hzero : ((0 + 0 : Nat) : Int) ≤ intMax := by decide
  have hloop (v : Option (Scan F)) : Reaches (loop env ⟨false, nlArg⟩ (fmt.length + 1) (start fmt ap m)).stop v ↔
      Surveyed ⟨false, nlArg⟩ (.start fmt ap) 0 v :=
    (loop_surveyed (x := start fmt ap m) (Nat.lt_succ_self _)).trans (and_iff_right hzero)
  have hgap (v : Scan F) (i : Nat) : ((List.range' i (nlArgmax + 1 - i)).any fun i => (v.nlType i).isSome) = true ↔
      ¬∀ j, i ≤ j → j ≤ nlArgmax → v.nlType j = none := by
    simp only [List.any_eq_true, List.mem_range'_1, Option.isSome_iff_ne_none, not_forall]
    constructor
    · rintro ⟨j, hj, hne⟩
      exact ⟨j, hj.1, by omega, hne⟩
    · rintro ⟨j, h₁, h₂, hne⟩
      exact ⟨j, by omega, hne⟩
  constructor
  · intro h
    unfold firstPass at h
    split at h
    · rename_i hstop
      cases h
      exact .inOrder ((hloop none).mp hstop) fun v hv => by cases hv
    · rename_i y hstop
      have hread := (hloop (some y.v)).mp ⟨y, hstop, rfl⟩
      split at h
      · rename_i hl
        simp only at h
        split at h
        · cases h
        · rename_i hany
          cases h
          exact .byPosition hread hl (not_not.mp (mt (hgap _ _).mpr hany))
      · rename_i hl
        cases h
        refine .inOrder hread fun v hv => ?_
        cases hv
        exact Bool.eq_false_of_not_eq_true hl
    · cases h
  · intro h
    cases h with
    | @inOrder t hread hl =>
      have hreach := (hloop t).mpr hread
      cases t with
      | none =>
        rw [Reaches] at hreach
        rw [firstPass, hreach]
      | some v =>
        obtain ⟨y, hstop, rfl⟩ := hreach
        rw [firstPass, hstop]
        simp only [hl _ rfl, Bool.false_eq_true, if_false]
    | @byPosition v hread hl hnone =>
      obtain ⟨y, hstop, rfl⟩ := (hloop (some v)).mpr hread
      rw [firstPass, hstop]
      simp only [hl, if_true]
      rw [if_neg fun hany => (hgap _ _).mp hany hnone]

end Finding

section Accepting

variable {env : Env F} {nlArg : Nat → Arg F}

theorem turn_accepted {x : State F} (hs : x.v.s ≠ []) (hc : (x.cnt : Int) ≤ intMax) :
    Accepted env ⟨true, nlArg⟩ x.v x.m x.cnt ↔ ∃ qs y, turn env ⟨true, nlArg⟩ x = (qs, .ok y) ∧
      ((y.cnt + y.l : Nat) : Int) ≤ intMax ∧ Accepted env ⟨true, nlArg⟩ y.v y.m (y.cnt + y.l) := by
  have hlit : literal x.v.s = ((literal x.v.s).1, (literal x.v.s).2) := rfl
  constructor
  · intro h
    cases h with
    | done hnil => exact absurd hnil hs
    | text hne hle hrest => exact ⟨_, _, turn_lit hlit (by omega) hne, hle, hrest⟩
    | spec _ hnil hconv hcv hle hrest =>
      have hlen : ¬((literal x.v.s).1.length : Int) > intMax - x.cnt := by
        rw [hnil, List.length_nil]
        omega
      exact ⟨_, _, turn_conv hlit hlen hnil rfl hconv hcv, hle, hrest⟩
  · rintro ⟨qs, y, ht, hle, hrest⟩
    simp only [turn] at ht
    split at ht
    · cases ht
    split at ht
    · rename_i hne
      cases ht
      exact .text hne hle hrest
    rename_i hnil
    split at ht
    · cases ht
    rename_i hconv
    simp only [if_true] at ht
    split at ht
    · cases ht
    rename_i hcv
    cases ht
    exact .spec hs (not_not.mp hnil) hconv hcv hle hrest

/-- **The second pass** gets to the end of the formats that it accepts, and of no others. -/
theorem loop_accepted : ∀ {n : Nat} {x : State F}, x.v.s.length < n →
    ((∃ y, (loop env ⟨true, nlArg⟩ n x).stop = some (.ok y)) ↔
      ((x.cnt + x.l : Nat) : Int) ≤ intMax ∧ Accepted env ⟨true, nlArg⟩ x.v x.m (x.cnt + x.l))
  | 0, _, h => absurd h (Nat.not_lt_zero _)
  | n + 1, x, hn => by
    rw [loop]
    by_cases hl : (x.l : Int) > intMax - x.cnt
    · rw [if_pos hl]
      exact iff_of_false (fun ⟨_, hy⟩ => by cases hy) fun ⟨hle, _⟩ => by omega
    rw [if_neg hl]
    have hle : ((x.cnt + x.l : Nat) : Int) ≤ intMax := by omega
    simp only [hle, true_and]
    by_cases hs : x.v.s = []
    · rw [if_pos hs]
      exact iff_of_true ⟨_, rfl⟩ (.done hs)
    rw [if_neg hs]
    have hturn : Accepted env ⟨true, nlArg⟩ x.v x.m (x.cnt + x.l) ↔ _ :=
      turn_accepted (x := { x with cnt := x.cnt + x.l, l := 0 }) hs hle
    rw [hturn]
    cases ht : turn env ⟨true, nlArg⟩ { x with cnt := x.cnt + x.l, l := 0 } with
    | mk qs r =>
      cases r with
      | error e => exact iff_of_false (fun ⟨_, hy⟩ => by cases hy) fun ⟨_, _, hy, _⟩ => by cases hy
      | ok y =>
        have hlt := turn_lt (x := { x with cnt := x.cnt + x.l, l := 0 }) hs (congrArg Prod.snd ht)
        refine (loop_accepted (Nat.lt_of_lt_of_le hlt (Nat.le_of_lt_succ hn))).trans ⟨fun h => ⟨_, _, rfl, h⟩, ?_⟩
        rintro ⟨_, _, hq, h⟩
        cases hq
        exact h

theorem secondPass_ret {fmt : List Byte} {ap : VaList F} {m : Mem} {k : Int}
    (h : (secondPass env fmt ap nlArg m).ret = some k) (hk : 0 ≤ k) :
    ∃ x, (loop env ⟨true, nlArg⟩ (fmt.length + 1) (start fmt ap m)).stop = some (.ok x) ∧ k = x.cnt := by
  unfold secondPass at h
  simp only at h
  split at h
  · rename_i x hx
    exact ⟨x, hx, (Option.some.inj h).symm⟩
  · cases h
  · cases h
    exact absurd hk (by decide)

/-- What is negative is -1. -/
theorem secondPass_failed {fmt : List Byte} {ap : VaList F} {m : Mem} {r : Printed F} {k : Int}
    (h : passes env fmt ap m = some r) (hret : r.ret = some k) (hk : k < 0) : k = -1 := by
  obtain ⟨q, -, rfl⟩ := Option.map_eq_some_iff.mp h
  unfold secondPass at hret
  simp only at hret
  split at hret
  · cases hret
    omega
  · cases hret
  · exact (Option.some.inj hret).symm

/-- **A length is returned** for the formats that are accepted, and for no others. -/
theorem passes_accepts {fmt : List Byte} {ap : VaList F} {m : Mem} :
    Accepts env fmt ap m ↔ ∃ r k, passes env fmt ap m = some r ∧ r.ret = some k ∧ 0 ≤ k := by
  have hloop (q : VaList F × (Nat → Arg F)) :=
    @loop_accepted F env q.2 (fmt.length + 1) (start fmt q.1 m) (Nat.lt_succ_self fmt.length)
  have hzero : ((0 + 0 : Nat) : Int) ≤ intMax := by decide
  constructor
  · rintro ⟨q, hq, hacc⟩
    obtain ⟨x, hx⟩ := (hloop q).mpr ⟨hzero, hacc⟩
    refine ⟨_, x.cnt, by rw [passes, firstPass_found.mpr hq]; rfl, ?_, Int.natCast_nonneg _⟩
    simp only [secondPass, hx]
  · rintro ⟨r, k, hr, hret, hk⟩
    obtain ⟨q, hq, rfl⟩ := Option.map_eq_some_iff.mp hr
    obtain ⟨x, hx, -⟩ := secondPass_ret hret hk
    exact ⟨q, firstPass_found.mp hq, ((hloop q).mp ⟨x, hx⟩).2⟩

variable {fmt : List Byte} {ap : VaList F} {m : Mem}

theorem not_accepts (h : passes env fmt ap m = none) : ¬Accepts env fmt ap m := by
  intro hacc
  obtain ⟨r, k, hr, -⟩ := passes_accepts.mp hacc
  cases h.symm.trans hr

theorem accepts_iff {r : Printed F} (h : passes env fmt ap m = some r) :
    Accepts env fmt ap m ↔ ∃ k, r.ret = some k ∧ 0 ≤ k := by
  rw [passes_accepts, h]
  exact ⟨fun ⟨_, k, hr, hk⟩ => by cases hr; exact ⟨k, hk⟩, fun ⟨k, hk⟩ => ⟨_, k, rfl, hk⟩⟩

theorem pieces_eq {r : Printed F} (h : passes env fmt ap m = some r) : pieces env fmt ap m = r.pieces := by
  rw [pieces, h]
  rfl

theorem fragments_eq {r : Printed F} (h : passes env fmt ap m = some r) : fragments env fmt ap m = r.frags := by
  rw [fragments, pieces_eq h]
  rfl

theorem fullText_eq {r : Printed F} (h : passes env fmt ap m = some r) : fullText env fmt ap m = r.text := by
  rw [fullText, fragments_eq h]
  rfl

end Accepting

/-! ## What is undefined -/

/-- The format has a specification that is read as `c`. -/
def Reads (cx : Pass F) (fmt : List Byte) (c : Conv F) : Prop :=
  ∃ v v', v.s <:+ fmt ∧ conversion cx v = .ok (c, v')

section Undefined

variable {env : Env F} {cx : Pass F}

theorem turn_suffix {x x' : State F} (h : (turn env cx x).2 = .ok x') : x'.v.s <:+ x.v.s := by
  have hlit := literal_suffix x.v.s
  simp only [turn] at h
  split at h
  · cases h
  split at h
  · cases h
    exact hlit
  split at h
  · cases h
  rename_i hc
  have hconv := ((conversion_suffix hc).trans (List.drop_suffix _ _)).trans hlit
  split at h
  · split at h <;> cases h
    exact hconv
  · cases h
    exact hconv

theorem turn_undefined {x : State F} (h : (turn env cx x).2 = .error .undefined) :
    ∃ c, Reads cx x.v.s c ∧ convert env x.cnt x.m c = .error .undefined := by
  simp only [turn] at h
  split at h
  · cases h
  split at h
  · cases h
  split at h
  · rename_i hc
    cases h
    exact absurd hc (conversion_defined _)
  rename_i c v hc
  refine ⟨c, ⟨_, v, literal_suffix x.v.s, hc⟩, ?_⟩
  split at h
  · split at h
    · rename_i hcv
      cases h
      exact hcv
    · cases h
  · cases h

/-- **A pass is undefined** only where a conversion of the format is. -/
theorem loop_undefined : ∀ {n : Nat} {x : State F}, (loop env cx n x).stop = some (.error .undefined) →
    ∃ c cnt m, Reads cx x.v.s c ∧ convert env cnt m c = .error .undefined
  | 0, _, h => by cases h
  | n + 1, x, h => by
    rw [loop] at h
    split at h
    · cases h
    simp only at h
    split at h
    · cases h
    split at h
    · rename_i qs e ht
      cases h
      obtain ⟨c, hc, hcv⟩ := turn_undefined (congrArg Prod.snd ht)
      exact ⟨c, _, _, hc, hcv⟩
    · rename_i qs x' ht
      obtain ⟨c, cnt, m, ⟨v, v', hv, hc⟩, hcv⟩ := loop_undefined h
      have hsuffix := turn_suffix (x := { x with cnt := x.cnt + x.l, l := 0 }) (congrArg Prod.snd ht)
      exact ⟨c, cnt, m, ⟨v, v', hv.trans hsuffix, hc⟩, hcv⟩

theorem passes_undefined {fmt : List Byte} {ap : VaList F} {m : Mem} {r : Printed F}
    (h : passes env fmt ap m = some r) (hret : r.ret = none) :
    ∃ nlArg c cnt m, Reads ⟨true, nlArg⟩ fmt c ∧ convert env cnt m c = .error .undefined := by
  obtain ⟨q, -, rfl⟩ := Option.map_eq_some_iff.mp h
  unfold secondPass at hret
  simp only at hret
  split at hret
  · cases hret
  · rename_i hstop
    exact ⟨q.2, loop_undefined hstop⟩
  · cases hret

end Undefined

/-! ## The count -/

section Counts

/-- The piece's conversion counts more than it writes. -/
def Piece.Short (q : Piece F) : Prop := ∃ c, q.conv = some c ∧ c.Short (q.frags, q.l)

instance (q : Piece F) : Decidable q.Short :=
  match h : q.conv with
  | none => .isFalse fun ⟨_, hc, _⟩ => by rw [h] at hc; cases hc
  | some c => decidable_of_iff (c.Short (q.frags, q.l)) (by simp [Piece.Short, h])

/-- What is counted for a piece against what it writes. -/
structure Piece.Counts (q : Piece F) : Prop where
  le : q.frags.flatten.length ≤ q.l
  eq_iff : q.frags.flatten.length = q.l ↔ ¬q.Short

def counted (qs : List (Piece F)) : Nat := (qs.map Piece.l).sum

def written (qs : List (Piece F)) : Nat := (qs.map fun q => q.frags.flatten.length).sum

@[simp] theorem counted_append (qs qs' : List (Piece F)) : counted (qs ++ qs') = counted qs + counted qs' := by
  simp [counted]

theorem written_eq (qs : List (Piece F)) : (qs.flatMap Piece.frags).flatten.length = written qs := by
  induction qs with
  | nil => rfl
  | cons q qs ih =>
    rw [List.flatMap_cons, List.flatten_append, List.length_append, ih]
    rfl

/-- A sum of counts is the number of bytes when every count is. -/
theorem written_counted {qs : List (Piece F)} (h : ∀ q ∈ qs, q.Counts) :
    written qs ≤ counted qs ∧ (written qs = counted qs ↔ ∀ q ∈ qs, ¬q.Short) := by
  induction qs with
  | nil => simp [written, counted]
  | cons q qs ih =>
    obtain ⟨hle, hiff⟩ := ih fun q' hq' => h q' (List.mem_cons_of_mem _ hq')
    have hq := h q List.mem_cons_self
    have hq_le := hq.le
    have hw : written (q :: qs) = q.frags.flatten.length + written qs := rfl
    have hc : counted (q :: qs) = q.l + counted qs := by simp [counted]
    rw [hw, hc, List.forall_mem_cons, ← hq.eq_iff, ← hiff]
    omega

variable {env : Env F} {nlArg : Nat → Arg F}

theorem lit_counts (a : Frag) : ∀ q ∈ (⟨true, nlArg⟩ : Pass F).lit a, q.Counts := by
  intro q hq
  obtain rfl := List.mem_singleton.mp hq
  refine ⟨by simp, fun _ => ?_, fun _ => by simp⟩
  rintro ⟨c, hc, -⟩
  cases hc

theorem counted_lit (a : Frag) : counted ((⟨true, nlArg⟩ : Pass F).lit a) = a.length := by
  simp [Pass.lit, counted]

/-- One turn. -/
theorem turn_counts {x x' : State F} {qs : List (Piece F)} (h : turn env ⟨true, nlArg⟩ x = (qs, .ok x')) :
    x'.cnt = x.cnt ∧ x'.l = counted qs ∧ ∀ q ∈ qs, q.Counts := by
  simp only [turn] at h
  split at h
  · cases h
  split at h
  · cases h
    exact ⟨rfl, (counted_lit _).symm, lit_counts _⟩
  rename_i ha
  rw [not_not] at ha
  split at h
  · cases h
  simp only [if_true] at h
  split at h
  · cases h
  rename_i fs l m hcv
  cases h
  have hc := convert_counts hcv
  refine ⟨rfl, ?_, ?_⟩
  · rw [counted_append, counted_lit, ha]
    simp [counted]
  · intro q hq
    rcases List.mem_append.mp hq with hq | hq
    · exact lit_counts _ q hq
    · obtain rfl := List.mem_singleton.mp hq
      refine ⟨hc.le, hc.eq_iff.trans (not_congr ?_)⟩
      simp [Piece.Short]

/-- A run. -/
theorem loop_counts : ∀ {n : Nat} {x x' : State F}, (loop env ⟨true, nlArg⟩ n x).stop = some (.ok x') →
    x'.cnt = x.cnt + x.l + counted (loop env ⟨true, nlArg⟩ n x).pieces ∧ (x'.cnt : Int) ≤ intMax ∧
      ∀ q ∈ (loop env ⟨true, nlArg⟩ n x).pieces, q.Counts
  | 0, _, _, h => by cases h
  | n + 1, x, x', h => by
    rw [loop] at h ⊢
    split at h
    · cases h
    rename_i hl
    rw [if_neg hl]
    simp only at h ⊢
    split at h
    · rename_i hs
      simp only [hs, if_true]
      cases h
      refine ⟨rfl, by simp only; omega, by simp⟩
    · rename_i hs
      rw [if_neg hs]
      split at h
      · cases h
      · rename_i qs y ht
        obtain ⟨hcnt, hly, hq⟩ := turn_counts ht
        obtain ⟨hx', hmax, hqs⟩ := loop_counts h
        refine ⟨?_, hmax, ?_⟩
        · rw [counted_append, hx', hcnt, hly]
          simp only
          omega
        · intro q hm
          rcases List.mem_append.mp hm with hm | hm
          · exact hq q hm
          · exact hqs q hm

/-- **The second pass**: what it returns against the length of its text. -/
theorem secondPass_counts {fmt : List Byte} {ap : VaList F} {m : Mem} {k : Int}
    (h : (secondPass env fmt ap nlArg m).ret = some k) (hk : 0 ≤ k) :
    ((secondPass env fmt ap nlArg m).text.length : Int) ≤ k ∧
      (((secondPass env fmt ap nlArg m).text.length : Int) = k ↔
        ∀ q ∈ (secondPass env fmt ap nlArg m).pieces, ¬q.Short) ∧ k ≤ intMax := by
  obtain ⟨x, hx, rfl⟩ := secondPass_ret h hk
  obtain ⟨hcnt, hmax, hq⟩ := loop_counts hx
  obtain ⟨hle, hiff⟩ := written_counted hq
  have htext : (secondPass env fmt ap nlArg m).text.length = written (secondPass env fmt ap nlArg m).pieces :=
    written_eq _
  have hpieces : x.cnt = counted (secondPass env fmt ap nlArg m).pieces := by
    rw [hcnt, start, Nat.zero_add, Nat.zero_add]
    rfl
  rw [htext, hpieces, Int.natCast_inj, Int.ofNat_le]
  exact ⟨hle, hiff, hpieces ▸ hmax⟩

theorem passes_counts {fmt : List Byte} {ap : VaList F} {m : Mem} {r : Printed F} {k : Int}
    (h : passes env fmt ap m = some r) (hr : r.ret = some k) (hk : 0 ≤ k) : (r.text.length : Int) ≤ k ∧
      ((r.text.length : Int) = k ↔ ∀ q ∈ r.pieces, ¬q.Short) ∧ k ≤ intMax := by
  obtain ⟨q, -, rfl⟩ := Option.map_eq_some_iff.mp h
  exact secondPass_counts hr hk

end Counts

end Synthol.Stdio
