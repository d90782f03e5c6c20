import Synthol.Stdio.Decimal

/-!
# Formats as they are written

A conversion specification as a programmer means it (`Directive`): flags, a width and a precision that are numbers or
`*`, length modifiers and a letter, where the letter has to go with the modifiers. `Directive.show` is how it stands in
a format.

`printf_core` reads what is written: from the text of a specification, whatever comes behind it, it gets the flags, the
width, the precision and the argument that are meant (`conversion_show`).
-/

namespace Synthol.Stdio

open X86

/-! ## Specifications -/

/-- A width or a precision. -/
inductive Amount
  | lit (n : Nat)
  | star

/-- A conversion specification without positions of arguments. A width of 0 is no width. -/
structure Directive where
  flags : List Byte
  width : Amount
  prec : Option Amount
  ps : Pre
  t : Byte
  st : Ty
  flags_ok : ∀ c ∈ flags, ∀ fl : Flags, (fl.add c).isSome = true
  width_ok : ∀ n : Nat, width = .lit n → (n : Int) ≤ intMax
  prec_ok : ∀ n : Nat, prec = some (.lit n) → (n : Int) ≤ intMax
  state : states ps t = some (.ty st)

/-- No width. -/
theorem Amount.zero_ok (n : Nat) (h : Amount.lit 0 = .lit n) : (n : Int) ≤ intMax := by
  cases h
  decide

/-- The length modifiers that lead to a state. -/
def Pre.show : Pre → List Byte
  | .bare => []
  | .lpre => text ['l']
  | .llpre => text ['l', 'l']
  | .hpre => text ['h']
  | .hhpre => text ['h', 'h']
  | .biglpre => text ['L']
  | .ztpre => text ['z']
  | .jpre => text ['j']

def Amount.show : Amount → List Byte
  | .lit n => natText n
  | .star => text ['*']

def Directive.showWidth (d : Directive) : List Byte :=
  match d.width with
  | .lit 0 => []
  | a => a.show

def Directive.showPrec (d : Directive) : List Byte :=
  match d.prec with
  | none => []
  | some a => ch '.' :: a.show

/-- The text of a specification. -/
def Directive.show (d : Directive) : List Byte :=
  ch '%' :: (d.flags ++ (d.showWidth ++ (d.showPrec ++ (d.ps.show ++ [d.t]))))

/-! ## What is meant -/

section Meaning

variable {F : Type} (f : Bool)

/-- The value of a width or a precision, and the arguments behind it; `f` is whether there are arguments. -/
def Amount.get (ap : VaList F) : Amount → Int × VaList F
  | .lit n => (n, ap)
  | .star => if f then (asInt ap.head.i, ap.tail) else (0, ap)

def addFlags (fl : Flags) (cs : List Byte) : Flags := cs.foldl (fun fl c => (fl.add c).getD fl) fl

/-- A negative width is a width and a `-`. -/
def settle (fl : Flags) (w : Int) : Int × Flags := if w < 0 then (negInt w, { fl with leftAdj := true }) else (w, fl)

def Directive.precision (d : Directive) (ap : VaList F) : (Int × Bool) × VaList F :=
  match d.prec with
  | none => ((-1, false), ap)
  | some a => (((a.get f ap).1, decide ((a.get f ap).1 ≥ 0)), (a.get f ap).2)

/-- The specification with its argument, and the arguments behind it. -/
def Directive.conv (d : Directive) (ap : VaList F) : Except Stop (Conv F × VaList F) :=
  let (w, ap) := d.width.get f ap
  let (w, fl) := settle (addFlags {} d.flags) w
  let ((p, xp), ap) := d.precision f ap
  if d.st = .noarg then .ok (⟨fl, w, p, xp, d.ps, d.t, ap.junk⟩, ap)
  else if f then .ok (⟨fl, w, p, xp, d.ps, d.t, popArg ap.head d.st⟩, ap.tail)
  else .error .zero

variable {f}

/-- How many arguments a width or a precision takes. -/
def Amount.stars : Amount → Nat
  | .lit _ => 0
  | .star => 1

def Directive.stars (d : Directive) : Nat := d.width.stars + (d.prec.map Amount.stars).getD 0

variable {d : Directive} {ap ap' : VaList F} {c : Conv F}

theorem Directive.conv_letter (h : d.conv f ap = .ok (c, ap')) : c.ps = d.ps ∧ c.t = d.t := by
  simp only [Directive.conv] at h
  split at h
  · cases h
    exact ⟨rfl, rfl⟩
  · split at h <;> cases h
    exact ⟨rfl, rfl⟩

/-- The argument of a specification is the one behind those. -/
theorem Directive.conv_arg (h : d.conv true ap = .ok (c, ap')) (hst : d.st ≠ .noarg) :
    c.arg = popArg (ap.args.getD d.stars ap.junk) d.st := by
  simp only [Directive.conv, if_neg hst, if_true] at h
  cases h
  obtain ⟨as, junk⟩ := ap
  cases hw : d.width <;> rcases hp : d.prec with _ | _ | _ <;>
    simp [Directive.precision, Amount.get, Directive.stars, Amount.stars, hw, hp, VaList.head, VaList.tail,
      List.head?_eq_getElem?]

end Meaning

/-! ## Bytes -/

theorem byteAt_zero_cons (c : Byte) (s : List Byte) : byteAt (c :: s) 0 = c := rfl

/-- A byte that starts neither a number nor a `*`, and is no flag. -/
def Plain (c : Byte) : Prop := isdigit c = false ∧ c ≠ ch '*' ∧ Flags.add {} c = none

instance (c : Byte) : Decidable (Plain c) := inferInstanceAs (Decidable (_ ∧ _))

/-- Whether a byte is a flag does not depend on the flags before it. -/
theorem Flags.add_none {c : Byte} (h : Flags.add {} c = none) (fl : Flags) : fl.add c = none := by
  unfold Flags.add at h ⊢
  split at h
  · cases h
  split at h
  · cases h
  split at h
  · cases h
  split at h
  · cases h
  split at h
  · cases h
  split at h
  · cases h
  rename_i h₁ h₂ h₃ h₄ h₅ h₆
  rw [if_neg h₁, if_neg h₂, if_neg h₃, if_neg h₄, if_neg h₅, if_neg h₆]

theorem readFlags_append {rest : List Byte} (hr : ∀ c, rest.head? = some c → Flags.add {} c = none) :
    ∀ {cs : List Byte} {fl : Flags}, (∀ c ∈ cs, ∀ fl : Flags, (fl.add c).isSome = true) →
      readFlags fl (cs ++ rest) = (addFlags fl cs, rest)
  | [], fl, _ => by
    cases rest with
    | nil => rfl
    | cons c rest =>
      rw [List.nil_append, readFlags, Flags.add_none (hr c rfl)]
      rfl
  | c :: cs, fl, h => by
    obtain ⟨fl', hfl⟩ := Option.isSome_iff_exists.mp (h c List.mem_cons_self fl)
    have ih : readFlags fl' (cs ++ rest) = (addFlags fl' cs, rest) :=
      readFlags_append hr fun c hc => h c (List.mem_cons_of_mem _ hc)
    rw [List.cons_append, readFlags, hfl]
    simp only
    rw [ih, addFlags, addFlags, List.foldl_cons, hfl]
    rfl

/-- Bytes without a `$`, the last of them no digit, give no position. -/
theorem positional_append {s rest : List Byte} {k : Nat} (h : ∀ c ∈ s, c ≠ ch '$')
    (hlast : ∀ c, s.getLast? = some c → isdigit c = false) (hk : k < s.length) : positional (s ++ rest) k = false := by
  have hget (i : Nat) (hi : i < s.length) : byteAt (s ++ rest) i = s.get ⟨i, hi⟩ := by
    rw [byteAt, List.getD_append _ _ _ _ hi, List.getD_eq_getElem _ _ hi]
    rfl
  rw [positional, Bool.and_eq_false_iff]
  by_cases hk' : k + 1 < s.length
  · right
    rw [hget _ hk', decide_eq_false_iff_not]
    exact h _ (List.get_mem _ _)
  · left
    rw [hget _ hk]
    apply hlast
    rw [List.getLast?_eq_getElem?, List.getElem?_eq_getElem (by omega)]
    simp only [List.get_eq_getElem, Option.some.injEq]
    congr 1
    omega

/-- A byte that may stand in a specification behind the `%`. -/
def Inner (c : Byte) : Prop := c ≠ ch '$' ∧ c ≠ ch '%'

instance (c : Byte) : Decidable (Inner c) := inferInstanceAs (Decidable (_ ∧ _))

/-- A letter that ends a specification. -/
theorem letter_plain {ps : Pre} {t : Byte} {next : Next} (h : states ps t = some next) :
    Plain t ∧ t ≠ ch '.' ∧ Inner t := by
  have hall : ∀ t : Byte, (states ps t).isSome = true → Plain t ∧ t ≠ ch '.' ∧ Inner t := by
    cases ps <;> decide +kernel
  exact hall t (by rw [h]; rfl)

theorem dig_plain {k : Nat} (h : k < 10) :
    Inner (dig k) ∧ dig k ≠ ch '*' ∧ (k ≠ 0 → Flags.add {} (dig k) = none) := by
  have hall : ∀ k < 10, Inner (dig k) ∧ dig k ≠ ch '*' ∧ (k ≠ 0 → Flags.add {} (dig k) = none) := by decide
  exact hall k h

/-! ## The parts of a specification -/

namespace Directive

variable (d : Directive)

/-- The modifiers and the letter. -/
def showEnd : List Byte := d.ps.show ++ [d.t]

/-- From the precision on. -/
def showRest : List Byte := d.showPrec ++ d.showEnd

theorem show_eq : d.show = ch '%' :: (d.flags ++ (d.showWidth ++ d.showRest)) := rfl

theorem showEnd_head {rest : List Byte} {c : Byte} (h : (d.showEnd ++ rest).head? = some c) :
    Plain c ∧ c ≠ ch '.' := by
  have ht := letter_plain d.state
  revert h
  rw [showEnd]
  cases d.ps with
  | bare =>
    intro h
    cases h
    exact ⟨ht.1, ht.2.1⟩
  | _ =>
    intro h
    cases h
    decide

theorem inner_showEnd {c : Byte} (h : c ∈ d.showEnd) : Inner c := by
  have hps (ps : Pre) : ∀ c ∈ ps.show, Inner c := by
    cases ps <;> decide
  rcases List.mem_append.mp h with hc | hc
  · exact hps d.ps c hc
  · rw [List.mem_singleton.mp hc]
    exact (letter_plain d.state).2.2

theorem inner_amount {a : Amount} {c : Byte} (h : c ∈ a.show) : Inner c := by
  cases a with
  | lit n =>
    obtain ⟨l, hl, hd, -⟩ := natText_digits n
    rw [Amount.show, hl] at h
    obtain ⟨k, hk, rfl⟩ := List.mem_map.mp h
    exact (dig_plain (hd k hk)).1
  | star =>
    rw [Amount.show] at h
    rw [List.mem_singleton.mp h]
    decide

theorem inner_showRest {c : Byte} (h : c ∈ d.showRest) : Inner c := by
  rcases List.mem_append.mp h with hc | hc
  · unfold showPrec at hc
    split at hc
    · cases hc
    · rcases List.mem_cons.mp hc with rfl | hc
      · decide
      · exact inner_amount hc
  · exact d.inner_showEnd hc

/-- All that is behind the `%`. -/
theorem inner_show {c : Byte} (h : c ∈ d.flags ++ (d.showWidth ++ d.showRest)) : Inner c := by
  rcases List.mem_append.mp h with h | h
  · constructor
    · rintro rfl
      exact absurd (d.flags_ok _ h {}) (by decide)
    · rintro rfl
      exact absurd (d.flags_ok _ h {}) (by decide)
  rcases List.mem_append.mp h with h | h
  · unfold showWidth at h
    split at h
    · cases h
    · exact inner_amount h
  · exact d.inner_showRest h

theorem last_show {s : List Byte} {c : Byte} (h : (s ++ (d.ps.show ++ [d.t])).getLast? = some c) : isdigit c = false := by
  rw [← List.append_assoc, List.getLast?_append, List.getLast?_singleton] at h
  cases h
  exact (letter_plain d.state).1.1

/-- The first byte after the width. -/
theorem showRest_head {rest : List Byte} {c : Byte} (h : (d.showRest ++ rest).head? = some c) : Plain c := by
  rw [showRest] at h
  unfold showPrec at h
  split at h
  · exact (d.showEnd_head h).1
  · cases h
    decide

/-- The first byte after the flags. -/
theorem showWidth_head {rest : List Byte} {c : Byte} (h : (d.showWidth ++ (d.showRest ++ rest)).head? = some c) :
    Flags.add {} c = none := by
  unfold showWidth at h
  split at h
  · exact (d.showRest_head h).2.2
  · rename_i hw
    cases hd : d.width with
    | lit n =>
      obtain ⟨l, hl, hlt, -, hne, hfirst⟩ := natText_digits n
      have hn : n ≠ 0 := by
        rintro rfl
        exact hw hd
      rw [hd, Amount.show, hl] at h
      cases l with
      | nil => exact absurd rfl hne
      | cons k l =>
        cases h
        exact (dig_plain (hlt k List.mem_cons_self)).2.2 (hfirst hn k rfl)
    | star =>
      rw [hd] at h
      cases h
      decide

/-! ### Reading them -/

section

variable {F : Type} (cx : Pass F) (v : Scan F) (rest : List Byte)

theorem machine_showEnd : machine .bare (d.showEnd ++ rest) = .ok ((d.st, d.ps, d.t), rest) := by
  have hstep (ps : Pre) (t : Byte) (h : states ps t = some (.ty d.st)) :
      machine ps (t :: rest) = .ok ((d.st, ps, t), rest) := by
    rw [machine, h]
  have hpath (ps : Pre) (s : List Byte) : machine .bare (ps.show ++ s) = machine ps s := by
    cases ps <;> rfl
  rw [showEnd, List.append_assoc, hpath]
  exact hstep d.ps d.t d.state

theorem positional_star {s : List Byte} (h : ∀ c ∈ s, c ≠ ch '$') :
    positional (ch '*' :: (s ++ (d.showEnd ++ rest))) 1 = false := by
  have hs : ∀ c ∈ ch '*' :: (s ++ d.showEnd), c ≠ ch '$' := by
    intro c hc
    rcases List.mem_cons.mp hc with rfl | hc
    · decide
    · rcases List.mem_append.mp hc with hc | hc
      · exact h c hc
      · exact (d.inner_showEnd hc).1
  have hpos : positional (ch '*' :: (s ++ d.showEnd) ++ rest) 1 = false := positional_append hs
    (fun c hc => d.last_show (s := ch '*' :: s) (by rw [← hc, showEnd]; rfl))
    (by simp only [showEnd, List.length_cons, List.length_append, List.length_nil]; omega)
  rwa [List.cons_append, List.append_assoc] at hpos

/-- A `*` takes an argument, in the pass that has them. -/
theorem star_get {b : Bool} {s : List Byte} (hs : v.s = ch '*' :: s) (hpos : positional v.s 1 = false)
    (hl : v.l10n = false) :
    star cx b v = .ok ((Amount.star.get cx.f v.ap).1, { v with s := s, ap := (Amount.star.get cx.f v.ap).2 }) := by
  rw [star, hpos, hl, hs]
  simp only [Bool.false_eq_true, if_false, List.drop_one, List.tail_cons, Amount.get]
  split <;> rfl

theorem byteAt_head {s : List Byte} (b : Byte) (hb : b ≠ 0) (h : ∀ c, s.head? = some c → c ≠ b) : byteAt s 0 ≠ b := by
  cases s with
  | nil => exact fun h0 => hb h0.symm
  | cons c s => exact h c rfl

theorem width_show (fl : Flags) (hs : v.s = d.showWidth ++ (d.showRest ++ rest)) (hl : v.l10n = false) :
    Stdio.width cx fl v = .ok (settle fl (d.width.get cx.f v.ap).1,
      { v with s := d.showRest ++ rest, ap := (d.width.get cx.f v.ap).2 }) := by
  have hdigit : ∀ c, (d.showRest ++ rest).head? = some c → isdigit c = false := fun c hc => (d.showRest_head hc).1
  unfold showWidth at hs
  split at hs
  · rename_i hw
    have hstar : byteAt v.s 0 ≠ ch '*' := by
      rw [hs]
      exact byteAt_head _ (by decide) fun c hc => (d.showRest_head hc).2.1
    rw [Stdio.width, if_neg hstar, hs, List.nil_append, getint_none hdigit, hw]
    rfl
  · cases hd : d.width with
    | lit n =>
      obtain ⟨l, hl, hlt, -, hne, -⟩ := natText_digits n
      rw [hd, Amount.show] at hs
      have hstar : byteAt v.s 0 ≠ ch '*' := by
        rw [hs, hl]
        cases l with
        | nil => exact absurd rfl hne
        | cons k l => exact (dig_plain (hlt k List.mem_cons_self)).2.1
      have hpos : ¬(n : Int) < 0 := by omega
      have hget : Amount.get cx.f v.ap (.lit n) = ((n : Int), v.ap) := rfl
      rw [Stdio.width, if_neg hstar, hs, getint_natText (d.width_ok n hd) hdigit, hget]
      simp only [settle, if_neg hpos]
    | star =>
      rw [hd] at hs
      have hstar : v.s = ch '*' :: (d.showRest ++ rest) := hs
      have hpos : positional v.s 1 = false := by
        have h := d.positional_star rest (s := d.showPrec) fun c hc => (d.inner_showRest (List.mem_append_left _ hc)).1
        rwa [hstar, showRest, List.append_assoc]
      rw [Stdio.width, if_pos (by rw [hstar]; rfl), star_get cx v hstar hpos hl, settle]
      simp only [Except.map]
      split <;> rfl

theorem precision_show (hs : v.s = d.showRest ++ rest) (hl : v.l10n = false) :
    Stdio.precision cx v = .ok ((d.precision cx.f v.ap).1,
      { v with s := d.showEnd ++ rest, ap := (d.precision cx.f v.ap).2 }) := by
  have hdigit : ∀ c, (d.showEnd ++ rest).head? = some c → isdigit c = false := fun c hc => (d.showEnd_head hc).1.1
  rw [showRest] at hs
  unfold showPrec at hs
  cases hd : d.prec with
  | none =>
    rw [hd, List.nil_append] at hs
    have hdot : byteAt v.s 0 ≠ ch '.' := by
      rw [hs]
      exact byteAt_head _ (by decide) fun c hc => (d.showEnd_head hc).2
    rw [Stdio.precision, if_neg hdot, Directive.precision, hd, ← hs]
  | some a =>
    rw [hd] at hs
    have hdot : byteAt v.s 0 = ch '.' := by
      rw [hs]
      rfl
    have hdrop : v.s.drop 1 = a.show ++ (d.showEnd ++ rest) := by
      rw [hs]
      simp
    rw [Stdio.precision, if_pos hdot, Directive.precision, hd]
    simp only [hdrop]
    cases a with
    | lit n =>
      obtain ⟨l, htext, hlt, -, hne, -⟩ := natText_digits n
      have hstar : byteAt (Amount.show (.lit n) ++ (d.showEnd ++ rest)) 0 ≠ ch '*' := by
        rw [Amount.show, htext]
        cases l with
        | nil => exact absurd rfl hne
        | cons k l => exact (dig_plain (hlt k List.mem_cons_self)).2.1
      have hpos : (n : Int) ≥ 0 := by omega
      rw [if_neg hstar, Amount.show, getint_natText (d.prec_ok n hd) hdigit]
      simp only [Amount.get, hpos, decide_true]
    | star =>
      have hpos : positional (ch '*' :: (d.showEnd ++ rest)) 1 = false :=
        d.positional_star rest (s := []) fun c hc => by cases hc
      have hget := star_get cx { v with s := ch '*' :: (d.showEnd ++ rest) } (b := false) rfl hpos hl
      have hshow : Amount.show .star ++ (d.showEnd ++ rest) = ch '*' :: (d.showEnd ++ rest) := rfl
      rw [hshow, if_pos (byteAt_zero_cons _ _), hget]
      rfl

theorem argument_show : argument cx d.st none v =
    if d.st = .noarg then .ok (v.ap.junk, v)
    else if cx.f then .ok (popArg v.ap.head d.st, { v with ap := v.ap.tail }) else .error .zero := by
  by_cases h : d.st = .noarg
  · rw [if_pos h, h]
    rfl
  · rw [if_neg h]
    unfold argument
    split <;> simp_all

/-- **What is written is what is read**: the flags, the width, the precision and the argument of a specification, and
what is behind it. -/
theorem conversion_show (hs : v.s = d.show ++ rest) (hl : v.l10n = false) :
    conversion cx v = (d.conv cx.f v.ap).map fun r => (r.1, { v with s := rest, ap := r.2 }) := by
  have hpos : positional v.s 1 = false := by
    rw [hs]
    apply positional_append
    · intro c hc
      rw [show_eq] at hc
      rcases List.mem_cons.mp hc with rfl | hc
      · decide
      · exact (d.inner_show hc).1
    · intro c hc
      exact d.last_show (s := ch '%' :: (d.flags ++ (d.showWidth ++ d.showPrec))) (by
        rw [← hc]
        simp only [Directive.show, List.cons_append, List.append_assoc])
    · simp only [Directive.show, List.length_cons, List.length_append, List.length_nil]
      omega
  have hdrop : v.s.drop 1 = d.flags ++ (d.showWidth ++ (d.showRest ++ rest)) := by
    rw [hs, show_eq]
    simp only [List.cons_append, List.drop_one, List.tail_cons, List.append_assoc]
  have hflags : readFlags {} (d.flags ++ (d.showWidth ++ (d.showRest ++ rest))) = (addFlags {} d.flags,
      d.showWidth ++ (d.showRest ++ rest)) := readFlags_append (fun c hc => d.showWidth_head hc) d.flags_ok
  have hargpos : argpos v = (none, { v with s := d.flags ++ (d.showWidth ++ (d.showRest ++ rest)) }) := by
    rw [argpos, hpos, hdrop]
    rfl
  simp only [conversion, hargpos, hflags, bind, Except.bind, pure, Except.pure]
  rw [d.width_show cx { v with s := d.showWidth ++ (d.showRest ++ rest) } rest (addFlags {} d.flags) rfl hl]
  simp only
  rw [d.precision_show cx { v with s := d.showRest ++ rest, ap := (d.width.get cx.f v.ap).2 } rest rfl hl]
  simp only [d.machine_showEnd]
  rw [d.argument_show]
  simp only [Directive.conv]
  by_cases hst : d.st = .noarg
  · simp only [if_pos hst]
    rfl
  · simp only [if_neg hst]
    by_cases hf : cx.f = true
    · simp only [if_pos hf]
      rfl
    · simp only [if_neg hf]
      rfl

end

end Directive

end Synthol.Stdio
