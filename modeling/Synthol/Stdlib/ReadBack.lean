import Synthol.Stdio.Render
import Synthol.Stdlib.Strtol

/-!
# What printf writes, strtol reads

The text of an integer conversion is white space, a sign, a prefix, digits and spaces again, whatever its flags, width
and precision (`number_shape`). `strtol` takes such a text for the number of its digits (`subject_shape`), so that it
gives back the argument, converted to the type that the length modifier and the letter name (`argValue`): `strtol` for
`%d` and `%i`, `strtoul` in the base of the letter for the others (`vsnprintf_readBack`).
-/

namespace Synthol.Stdlib

open X86 Stdio

/-! ## The shape -/

/-- The base in which the digits of a conversion are written. -/
def baseOfLetter (c : Byte) : Nat :=
  if c = ch 'o' then 8 else if c = ch 'x' ∨ c = ch 'X' ∨ c = ch 'p' then 16 else 10

/-- A number with the text `t` in the base `b`. -/
structure Shape (b : Nat) (neg : Bool) (n : Nat) (t : List Byte) : Prop where
  split : ∃ sp sgn pre ds tl, t = sp ++ (sgn ++ (pre ++ (ds ++ tl))) ∧ (∀ c ∈ sp, white c = true) ∧
    (sgn = [ch '-'] ∧ neg = true ∨ (sgn = [ch '+'] ∨ sgn = []) ∧ neg = false) ∧
    (pre = [] ∨ b = 16 ∧ ds ≠ [] ∧ (pre = [ch '0', ch 'x'] ∨ pre = [ch '0', ch 'X'])) ∧
    (∀ c ∈ ds, Digit b c) ∧ numberOf b ds = n ∧ ∀ c ∈ tl, c = ch ' '

theorem dropWhile_white {sp t : List Byte} (hsp : ∀ c ∈ sp, white c = true)
    (ht : ∀ c, t.head? = some c → white c = false) : (sp ++ t).dropWhile white = t := by
  rw [List.dropWhile_append_of_pos hsp]
  cases t with
  | nil => rfl
  | cons c t => rw [List.dropWhile_cons_of_neg (by rw [ht c rfl]; exact Bool.false_ne_true)]

/-- White space is no digit. -/
theorem white_digit {c : Byte} (hb : Digit 36 c) : white c = false := by
  revert c
  decide

/-- What comes behind the digits. -/
def Behind (t : List Byte) : Prop := ∀ c, t.head? = some c → c = ch ' ' ∨ c = 0

theorem behind_spaces {tl : List Byte} (h : ∀ c ∈ tl, c = ch ' ') (r : List Byte) : Behind (tl ++ 0 :: r) := by
  intro c hc
  cases tl with
  | nil => exact .inr (Option.some.inj hc).symm
  | cons e tl => exact .inl ((Option.some.inj hc).symm.trans (h e (List.mem_cons_self ..)))

theorem Behind.digit {t : List Byte} (h : Behind t) {b : Nat} (hb : b ≤ 36) : ∀ c, t.head? = some c → ¬Digit b c := by
  intro c hc
  have hsp : val (some (ch ' ')) = 255 := rfl
  have hnul : val (some 0) = 255 := rfl
  rcases h c hc with rfl | rfl
  · rw [Digit, hsp]
    omega
  · rw [Digit, hnul]
    omega

/-- Digits are not a prefix. -/
theorem hexPrefix_digits {ds t : List Byte} (hds : ∀ c ∈ ds, Digit 16 c) (ht : Behind t) :
    hexPrefix (ds ++ t) = false := by
  have hx {c : Byte} (h : Digit 16 c ∨ c = ch ' ' ∨ c = 0) : ¬(c = ch 'x' ∨ c = ch 'X') := by
    rintro (rfl | rfl) <;> revert h <;> decide
  rcases ds with _ | ⟨a, _ | ⟨b, ds⟩⟩
  · cases t with
    | nil => rfl
    | cons c t =>
      refine hexPrefix_zero ?_
      rcases ht c rfl with rfl | rfl <;> decide
  · rcases t with _ | ⟨c, _ | ⟨d, t⟩⟩
    · rfl
    · rfl
    · have hc := hx (.inr (ht c rfl))
      simp [hexPrefix, hc]
  · have hb := hx (.inl (hds b (by simp)))
    cases h : ds ++ t with
    | nil =>
      rw [List.cons_append, List.cons_append, h]
      rfl
    | cons d t =>
      rw [List.cons_append, List.cons_append, h]
      simp [hexPrefix, hb]

/-- The subject that digits are, with or without a prefix. -/
theorem of_digits {b : Nat} (h₁ : 2 ≤ b) (h₂ : b ≤ 36) (neg : Bool) {pre ds t : List Byte}
    (hpre : pre = [] ∨ b = 16 ∧ ds ≠ [] ∧ (pre = [ch '0', ch 'x'] ∨ pre = [ch '0', ch 'X']))
    (hds : ∀ c ∈ ds, Digit b c) (ht : Behind t) : Subject.of neg b (pre ++ (ds ++ t)) = ⟨neg, b, ds, t⟩ := by
  have hbase : baseOf b (pre ++ (ds ++ t)) = (b, ds ++ t) := by
    rcases hpre with rfl | ⟨rfl, hne, hpre⟩
    · have hp : ¬((b = 0 ∨ b = 16) ∧ hexPrefix (ds ++ t) = true) := by
        rintro ⟨hb, hp⟩
        obtain rfl : b = 16 := by omega
        rw [hexPrefix_digits hds ht] at hp
        cases hp
      rw [List.nil_append, baseOf, if_neg hp, if_neg (by omega)]
    · obtain ⟨d, ds, rfl⟩ := List.exists_cons_of_ne_nil hne
      have hd := hds d (List.mem_cons_self ..)
      have hp : hexPrefix (pre ++ (d :: ds ++ t)) = true := by
        rcases hpre with rfl | rfl <;> simp [hexPrefix, hd]
      rw [baseOf, if_pos ⟨.inr rfl, hp⟩]
      rcases hpre with rfl | rfl <;> rfl
  obtain ⟨htake, hdrop⟩ := takeWhile_digits hds (ht.digit h₂)
  rw [Subject.of, hbase]
  simp only [htake, hdrop]

theorem signOf_digit {c : Byte} (h : Digit 36 c) (t : List Byte) : signOf (c :: t) = (false, c :: t) := by
  have hminus : c ≠ ch '-' := by
    rintro rfl
    revert h
    decide
  have hplus : c ≠ ch '+' := by
    rintro rfl
    revert h
    decide
  rw [signOf, if_neg hminus, if_neg hplus]

/-- A prefix begins with a digit too. -/
theorem first_digit {b : Nat} (h₂ : b ≤ 36) {pre ds : List Byte}
    (hpre : pre = [] ∨ b = 16 ∧ ds ≠ [] ∧ (pre = [ch '0', ch 'x'] ∨ pre = [ch '0', ch 'X']))
    (hds : ∀ c ∈ ds, Digit b c) (hne : ds ≠ []) (t : List Byte) : ∃ e w, pre ++ (ds ++ t) = e :: w ∧ Digit 36 e := by
  rcases hpre with rfl | ⟨-, -, rfl | rfl⟩
  · obtain ⟨e, ds, rfl⟩ := List.exists_cons_of_ne_nil hne
    exact ⟨e, ds ++ t, rfl, Nat.lt_of_lt_of_le (hds e (List.mem_cons_self ..)) h₂⟩
  · exact ⟨_, _, rfl, by decide⟩
  · exact ⟨_, _, rfl, by decide⟩

/-- **The sign** of a text that, without one, begins with a digit. -/
theorem signOf_shape {neg : Bool} {sgn t : List Byte}
    (hsgn : sgn = [ch '-'] ∧ neg = true ∨ (sgn = [ch '+'] ∨ sgn = []) ∧ neg = false)
    (ht : sgn = [] → ∃ e w, t = e :: w ∧ Digit 36 e) :
    (∀ c, (sgn ++ t).head? = some c → white c = false) ∧ signOf (sgn ++ t) = (neg, t) := by
  rcases hsgn with ⟨rfl, rfl⟩ | ⟨rfl | rfl, rfl⟩
  · exact ⟨head_forall (by decide), rfl⟩
  · exact ⟨head_forall (by decide), rfl⟩
  · obtain ⟨e, w, rfl, he⟩ := ht rfl
    exact ⟨head_forall (white_digit he), signOf_digit he w⟩

/-- Nothing but spaces. -/
theorem subject_spaces {b : Nat} (h₁ : 2 ≤ b) (h₂ : b ≤ 36) {sp : List Byte} (hsp : ∀ c ∈ sp, white c = true)
    (r : List Byte) : (subject b (sp ++ 0 :: r)).digits = [] := by
  have hof : Subject.of false b (0 :: r) = ⟨false, b, [], 0 :: r⟩ :=
    of_digits h₁ h₂ false (.inl rfl) (fun c hc => (List.not_mem_nil hc).elim) (head_forall (.inr rfl))
  rw [subject, dropWhile_white hsp (head_forall (by decide))]
  exact congrArg Subject.digits hof

/-- **The subject** of a number. -/
theorem subject_shape {b : Nat} (h₁ : 2 ≤ b) (h₂ : b ≤ 36) {neg : Bool} {n : Nat} {t : List Byte} (h : Shape b neg n t)
    (r : List Byte) : ((subject b (t ++ 0 :: r)).digits = [] ∧ n = 0) ∨
      ((subject b (t ++ 0 :: r)).digits ≠ [] ∧ (subject b (t ++ 0 :: r)).abs = n ∧
        (subject b (t ++ 0 :: r)).neg = neg) := by
  obtain ⟨sp, sgn, pre, ds, tl, rfl, hsp, hsgn, hpre, hds, rfl, htl⟩ := h.split
  by_cases hnone : sgn = [] ∧ ds = []
  · obtain ⟨rfl, rfl⟩ := hnone
    obtain rfl : pre = [] := hpre.resolve_right fun h => h.2.1 rfl
    have hwhite : ∀ c ∈ sp ++ tl, white c = true := by
      intro c hc
      rcases List.mem_append.mp hc with hc | hc
      · exact hsp c hc
      · rw [htl c hc]
        decide
    exact .inl ⟨subject_spaces h₁ h₂ hwhite r, rfl⟩
  · have hof := of_digits h₁ h₂ neg hpre hds (behind_spaces htl r)
    obtain ⟨hhead, hsign⟩ := @signOf_shape neg sgn (pre ++ (ds ++ (tl ++ 0 :: r))) hsgn fun h =>
      first_digit h₂ hpre hds (fun hd => hnone ⟨h, hd⟩) _
    have hsubject : subject b (sp ++ (sgn ++ (pre ++ (ds ++ tl))) ++ 0 :: r) = ⟨neg, b, ds, tl ++ 0 :: r⟩ := by
      simp only [List.append_assoc]
      rw [subject, dropWhile_white hsp hhead, hsign]
      exact hof
    rw [hsubject]
    by_cases hne : ds = []
    · left
      rw [hne]
      exact ⟨rfl, rfl⟩
    · exact .inr ⟨hne, rfl, rfl⟩

/-! ## The text of a conversion -/

theorem val_dig {k : Nat} (h : k < 10) : val (some (dig k)) = k := by
  interval_cases k <;> rfl

theorem val_hexDigit {lower : Byte} (hl : lower = 0 ∨ lower = 32) {k : Nat} (h : k < 16) :
    val (some (hexDigit lower k)) = k := by
  rcases hl with rfl | rfl <;> interval_cases k <;> rfl

theorem numberOf_replicate (b k : Nat) (ds : List Byte) :
    numberOf b (List.replicate k (ch '0') ++ ds) = numberOf b ds := by
  induction k with
  | zero => rfl
  | succ k ih => rw [List.replicate_succ, List.cons_append, numberOf_zero, ih]

/-- The digits of a text. -/
theorem digitText_digits {b : Nat} (hb : 2 ≤ b) {d : Nat → Byte} (hd : ∀ k < b, val (some (d k)) = k) (least n : Nat) :
    (∀ c ∈ digitText b d least n, Digit b c) ∧ numberOf b (digitText b d least n) = n := by
  have hlt : ∀ k ∈ (Nat.digits b n).reverse, k < b := by
    intro k hk
    exact Nat.digits_lt_base hb (List.mem_reverse.mp hk)
  constructor
  · intro c hc
    rcases List.mem_append.mp hc with hc | hc
    · rw [List.eq_of_mem_replicate hc]
      exact digit_zero (by omega)
    · obtain ⟨k, hk, rfl⟩ := List.mem_map.mp hc
      rw [Digit, hd k (hlt k hk)]
      exact hlt k hk
  · have hvals : ((Nat.digits b n).reverse.map d).map (fun c => val (some c)) = (Nat.digits b n).reverse := by
      rw [List.map_map]
      exact (List.map_congr_left fun k hk => hd k (hlt k hk)).trans (List.map_id _)
    have hn : n < b ^ n := Nat.lt_pow_self hb
    rw [digitText, numberOf_replicate, numberOf, hvals, ← Numeral.numeral_eq hb hn, Numeral.value_numeral hn]

theorem digitText_ne_nil {b n : Nat} (d : Nat → Byte) (least : Nat) (hn : n ≠ 0) : digitText b d least n ≠ [] := by
  intro h
  have hnil := (List.append_eq_nil_iff.mp h).2
  rw [List.map_eq_nil_iff, List.reverse_eq_nil_iff, Nat.digits_eq_nil_iff_eq_zero] at hnil
  exact hn hnil

/-- Padding keeps the shape. -/
theorem padded_shape {b : Nat} (hb : 1 ≤ b) {neg : Bool} {sp sgn pre ds : List Byte} (hsp : ∀ c ∈ sp, white c = true)
    (hsgn : sgn = [ch '-'] ∧ neg = true ∨ (sgn = [ch '+'] ∨ sgn = []) ∧ neg = false)
    (hpre : pre = [] ∨ b = 16 ∧ ds ≠ [] ∧ (pre = [ch '0', ch 'x'] ∨ pre = [ch '0', ch 'X']))
    (hds : ∀ c ∈ ds, Digit b c) (w : Int) (fl : Flags) :
    Shape b neg (numberOf b ds) (padded w fl (sp ++ (sgn ++ pre)) ds) := by
  simp only [padded]
  generalize (w - ((sp ++ (sgn ++ pre)).length + ds.length)).toNat = gap
  by_cases hl : fl.leftAdj = true
  · rw [if_pos hl]
    refine ⟨sp, sgn, pre, ds, List.replicate gap (ch ' '), by simp, hsp, hsgn, hpre, hds, rfl, fun c hc => ?_⟩
    exact List.eq_of_mem_replicate hc
  rw [if_neg hl]
  by_cases hz : fl.zeroPad = true
  · rw [if_pos hz]
    refine ⟨sp, sgn, pre, List.replicate gap (ch '0') ++ ds, [], by simp, hsp, hsgn, ?_, fun c hc => ?_, ?_,
      fun c hc => (List.not_mem_nil hc).elim⟩
    · exact hpre.imp_right fun hp => ⟨hp.1, fun h => hp.2.1 (List.append_eq_nil_iff.mp h).2, hp.2.2⟩
    · rcases List.mem_append.mp hc with hc | hc
      · rw [List.eq_of_mem_replicate hc]
        exact digit_zero hb
      · exact hds c hc
    · exact numberOf_replicate b gap ds
  · rw [if_neg hz]
    refine ⟨List.replicate gap (ch ' ') ++ sp, sgn, pre, ds, [], by simp, fun c hc => ?_, hsgn, hpre, hds, rfl,
      fun c hc => (List.not_mem_nil hc).elim⟩
    rcases List.mem_append.mp hc with hc | hc
    · rw [List.eq_of_mem_replicate hc]
      decide
    · exact hsp c hc

/-- A number without a sign. -/
theorem unsigned_shape {b : Nat} (hb : 2 ≤ b) {d : Nat → Byte} (hd : ∀ k < b, val (some (d k)) = k) {pre : List Byte}
    {n : Nat} (hpre : pre = [] ∨ b = 16 ∧ n ≠ 0 ∧ (pre = [ch '0', ch 'x'] ∨ pre = [ch '0', ch 'X'])) (least : Nat)
    (w : Int) (fl : Flags) : Shape b false n (padded w fl pre (digitText b d least n)) := by
  obtain ⟨hds, hn⟩ := digitText_digits hb hd least n
  have h := @padded_shape b (by omega) false [] [] pre _
    (fun c hc => (List.not_mem_nil hc).elim) (.inr ⟨.inr rfl, rfl⟩)
    (hpre.imp_right fun hp => ⟨hp.1, digitText_ne_nil d least hp.2.1, hp.2.2⟩) hds w fl
  rwa [hn] at h

/-- A sign, or a space in its place. -/
theorem sign_split (neg : Bool) (fl : Flags) : ∃ sp sgn, Stdio.sign neg fl = sp ++ (sgn ++ []) ∧
    (∀ c ∈ sp, white c = true) ∧ (sgn = [ch '-'] ∧ neg = true ∨ (sgn = [ch '+'] ∨ sgn = []) ∧ neg = false) := by
  have hnone : ∀ c ∈ ([] : List Byte), white c = true := fun c hc => (List.not_mem_nil hc).elim
  cases neg with
  | true => exact ⟨[], [ch '-'], rfl, hnone, .inl ⟨rfl, rfl⟩⟩
  | false =>
    simp only [Stdio.sign, Bool.false_eq_true, if_false]
    split
    · exact ⟨[], [ch '+'], rfl, hnone, .inr ⟨.inl rfl, trivial⟩⟩
    · split
      · refine ⟨[ch ' '], [], rfl, fun c hc => ?_, .inr ⟨.inr rfl, trivial⟩⟩
        rw [List.mem_singleton.mp hc]
        decide
      · exact ⟨[], [], rfl, hnone, .inr ⟨.inr rfl, trivial⟩⟩

theorem signed_shape (neg : Bool) (fl' : Flags) (least n : Nat) (w : Int) (fl : Flags) :
    Shape 10 neg n (padded w fl (Stdio.sign neg fl') (digitText 10 dig least n)) := by
  obtain ⟨hds, hn⟩ := digitText_digits (by decide) (fun k hk => val_dig hk) least n
  obtain ⟨sp, sgn, hsplit, hsp, hsgn⟩ := sign_split neg fl'
  have h := padded_shape (by decide) hsp hsgn (.inl rfl) hds w fl
  rw [hsplit]
  rwa [hn] at h

/-- The letters of integers. -/
def Integer (l : Byte) : Prop := (['d', 'i', 'u', 'o', 'x', 'X', 'p'].any fun d => ch d = l) = true

/-- `%d` and `%i`. -/
def Signed (l : Byte) : Prop := l = ch 'd' ∨ l = ch 'i'

instance (l : Byte) : Decidable (Signed l) := inferInstanceAs (Decidable (_ ∨ _))

/-- The prefix is only there where the number is not zero. -/
theorem prefix_split {q : Prop} [Decidable q] {x : Word} (hq : q → x ≠ 0) {pre : List Byte}
    (hpre : pre = [ch '0', ch 'x'] ∨ pre = [ch '0', ch 'X']) : (if q then pre else []) = [] ∨ 16 = 16 ∧ x.toNat ≠ 0 ∧
      ((if q then pre else []) = [ch '0', ch 'x'] ∨ (if q then pre else []) = [ch '0', ch 'X']) := by
  by_cases h : q
  · rw [if_pos h]
    exact .inr ⟨rfl, fun h0 => hq h (toNat_eq_zero.mp h0), hpre⟩
  · rw [if_neg h]
    exact .inl rfl

/-- What a refusal leaves. -/
theorem ok_of_guard {q : Prop} [Decidable q] {e : Stop} {t t' : Frag}
    (h : (if q then .error e else .ok t' : Except Stop Frag) = .ok t) : t' = t := by
  split at h
  · cases h
  · exact Except.ok.inj h

theorem Integer.letter {l : Byte} (h : Integer l) : l = ch 'd' ∨ l = ch 'i' ∨ l = ch 'u' ∨ l = ch 'o' ∨
    l = ch 'x' ∨ l = ch 'X' ∨ l = ch 'p' := by
  simp only [Integer, List.any_cons, List.any_nil, Bool.or_false, Bool.or_eq_true, decide_eq_true_eq] at h
  simpa only [eq_comm] using h

/-- **The text of an integer**. -/
theorem number_shape {F : Type} {c : Conv F} (hl : Integer c.letter) {t : List Byte} (h : c.number = .ok t) :
    if Signed c.letter then Shape 10 c.arg.i.msb c.arg.i.toInt.natAbs t
    else Shape (baseOfLetter c.letter) false c.arg.i.toNat t := by
  have hdig {b : Nat} (hb : b ≤ 10) : ∀ k < b, val (some (dig k)) = k :=
    fun k hk => val_dig (Nat.lt_of_lt_of_le hk hb)
  have hletter := hl.letter
  simp only [Conv.number] at h
  rcases hletter with hl | hl | hl | hl | hl | hl | hl
  · simp +decide only [hl, Signed, if_true, if_false, false_and, true_or] at h ⊢
    rw [← ok_of_guard h]
    exact signed_shape _ _ _ _ _ _
  · simp +decide only [hl, Signed, if_true, if_false, false_and, or_true] at h ⊢
    rw [← ok_of_guard h]
    exact signed_shape _ _ _ _ _ _
  · simp +decide only [hl, Signed, baseOfLetter, if_true, if_false, false_and, or_false] at h ⊢
    rw [← ok_of_guard h]
    exact unsigned_shape (by decide) (hdig (by decide)) (.inl rfl) _ _ _
  · simp +decide only [hl, Signed, baseOfLetter, if_true, if_false, true_and, or_false] at h ⊢
    split at h
    · cases h
      exact unsigned_shape (by decide) (hdig (by decide)) (.inl rfl) _ _ _
    · rw [← ok_of_guard h]
      exact unsigned_shape (by decide) (hdig (by decide)) (.inl rfl) _ _ _
  · simp +decide only [hl, Signed, baseOfLetter, if_true, if_false, false_and, or_false] at h ⊢
    rw [← ok_of_guard h]
    exact unsigned_shape (by decide) (fun k hk => val_hexDigit (.inr rfl) hk)
      (prefix_split (fun hx => hx.1) (.inl rfl)) _ _ _
  · simp +decide only [hl, Signed, baseOfLetter, if_true, if_false, false_and, or_false] at h ⊢
    rw [← ok_of_guard h]
    exact unsigned_shape (by decide) (fun k hk => val_hexDigit (.inl rfl) hk)
      (prefix_split (fun hx => hx.1) (.inr rfl)) _ _ _
  · simp +decide only [hl, Signed, baseOfLetter, if_true, if_false, false_and, or_false] at h ⊢
    rw [← ok_of_guard h, ← ite_not]
    exact unsigned_shape (by decide) (fun k hk => val_hexDigit (.inr rfl) hk)
      (prefix_split (fun hx => hx) (.inl rfl)) _ _ _

/-! ## Reading it back -/

/-- The function that reads the number of a conversion. -/
def readBack (l : Byte) (s : List Byte) : Word × Nat × Option Errno :=
  if Signed l then strtol s 10 else strtoul s (baseOfLetter l)

theorem baseOfLetter_bounds (l : Byte) : 2 ≤ baseOfLetter l ∧ baseOfLetter l ≤ 36 := by
  rw [baseOfLetter]
  split_ifs <;> simp

theorem strtol_shape {x : Word} {t : List Byte} (h : Shape 10 x.msb x.toInt.natAbs t) (r : List Byte) :
    (strtol (t ++ 0 :: r) 10).1 = x := by
  have hmem : (0 : Byte) ∈ t ++ 0 :: r := by simp
  have hlt := x.toInt_lt
  have hge := x.le_toInt
  apply BitVec.eq_of_toInt_eq
  rw [strtol, strtox_subject (by decide) (by decide) hmem]
  rcases subject_shape (by decide) (by decide) h r with ⟨hnil, h0⟩ | ⟨hne, habs, hneg⟩
  · have hx : x.toInt = 0 := Int.natAbs_eq_zero.mp h0
    rw [if_pos hnil, hx]
    rfl
  · have hvalue : (subject 10 (t ++ 0 :: r)).value = x.toInt := by
      rw [Subject.value, habs, hneg, BitVec.msb_eq_toInt]
      by_cases hx : x.toInt < 0
      · rw [if_pos (decide_eq_true hx)]
        omega
      · rw [if_neg (by simpa using hx)]
        omega
    rw [if_neg hne, (result_long _).1, hvalue]
    exact toLong_eq.mpr ⟨hge, hlt⟩

theorem strtoul_shape {b : Nat} (h₁ : 2 ≤ b) (h₂ : b ≤ 36) {x : Word} {t : List Byte} (h : Shape b false x.toNat t)
    (r : List Byte) : (strtoul (t ++ 0 :: r) b).1 = x := by
  have hmem : (0 : Byte) ∈ t ++ 0 :: r := by simp
  have hx : x.toNat ≤ ullongMax := Nat.le_of_lt_succ x.isLt
  rw [strtoul, strtox_subject (by omega) (by decide) hmem, result_ulong]
  rcases subject_shape h₁ h₂ h r with ⟨hnil, h0⟩ | ⟨hne, habs, hneg⟩
  · rw [if_pos hnil, toNat_eq_zero.mp h0]
  · rw [if_neg hne, Subject.toUlong, habs, hneg, if_pos hx]
    simp only [Bool.false_eq_true, if_false, BitVec.ofNat_toNat, BitVec.setWidth_eq]

/-- The text of a number reads back. -/
theorem readBack_number {F : Type} {c : Conv F} (hl : Integer c.letter) {t : List Byte} (h : c.number = .ok t)
    (r : List Byte) : (readBack c.letter (t ++ 0 :: r)).1 = c.arg.i := by
  have hshape := number_shape hl h
  rw [readBack]
  split
  · rename_i hs
    rw [if_pos hs] at hshape
    exact strtol_shape hshape r
  · rename_i hs
    rw [if_neg hs] at hshape
    obtain ⟨h₁, h₂⟩ := baseOfLetter_bounds c.letter
    exact strtoul_shape h₁ h₂ hshape r

section

variable {F : Type} {d : Directive} {ap ap' : VaList F} {c : Conv F} (env : Env F) (m : Mem)

theorem Integer.others (h : Integer c.letter) : c.letter ≠ ch 'n' ∧ c.wide = false ∧ c.float = false ∧
    c.spec env m = c.number := by
  have hany : (['d', 'i', 'u', 'o', 'x', 'X', 'p'].any fun d => ch d = c.letter) = true := h
  have hspec (h₁ : c.letter ≠ ch 'c') (h₂ : c.letter ≠ ch 'm') : c.spec env m = c.number := by
    rw [Conv.spec, if_neg h₁, if_neg h₂, if_pos hany]
  rw [Conv.wide, Conv.float]
  rcases h.letter with hl | hl | hl | hl | hl | hl | hl <;> rw [hl] at hspec ⊢ <;>
    exact ⟨by decide, by decide, by decide, hspec (by decide) (by decide)⟩

/-- The length of the type that a modifier names. -/
def lengthOf : Pre → Nat
  | .hhpre => 8
  | .hpre => 16
  | .bare => 32
  | .lpre | .llpre | .biglpre | .ztpre | .jpre => 64

/-- An argument converted to the type that the modifier and the letter name. -/
def argValue (ps : Pre) (l : Byte) (x : Word) : Word :=
  if l = ch 'p' then x
  else if Signed l then (x.setWidth (lengthOf ps)).signExtend 64
  else (x.setWidth (lengthOf ps)).setWidth 64

/-- `pop_arg` converts an integer. -/
theorem popArg_value {ps : Pre} {l : Byte} {st : Ty} (h : states ps l = some (.ty st)) (hl : Integer l) (x : Arg F) :
    (popArg x st).i = argValue ps l x.i := by
  rcases hl.letter with rfl | rfl | rfl | rfl | rfl | rfl | rfl <;> cases ps <;> cases h <;>
    simp +decide [popArg, argValue, lengthOf]

/-- The letter of an integer is as it is written. -/
theorem Integer.letter_eq (hc : c.t = d.t) (hl : Integer d.t) : c.letter = d.t := by
  have h3 : ¬d.t &&& 15 = 3 := by
    rcases hl.letter with h | h | h | h | h | h | h <;> rw [h] <;> decide
  rw [Conv.letter, hc, if_neg fun h => h3 h.2]

/-- An integer that cannot be printed. -/
theorem printItems_error (hd : d.conv true ap = .ok (c, ap')) (hl : Integer c.letter) {e : Stop}
    (h : c.number = .error e) : ∃ e', printItems env [.dir d] ap m 0 = .error e' ∧ e' ≠ .undefined := by
  obtain ⟨hn, hw, hf, hspec⟩ := hl.others env m
  have hconv := convert_joined c env 0 m hn hw hf
  rw [field_text, hspec, h] at hconv
  rw [printItems_dir hd]
  simp only [bind, Except.bind] at hconv ⊢
  cases hc : convert env 0 m c with
  | error e' =>
    refine ⟨e', rfl, ?_⟩
    rintro rfl
    cases hf.symm.trans (convert_undefined hc).1
  | ok r =>
    rw [hc] at hconv
    cases hconv

/-- `vsnprintf` of an integer fails, or leaves the text. -/
theorem vsnprintf_integer (hd : d.conv true ap = .ok (c, ap')) (hl : Integer c.letter) (s : Block Byte) {n : Nat}
    (h₁ : 1 ≤ n) (h₂ : (n : Int) ≤ intMax) :
    (∃ s' m', vsnprintf env s n (showItems [.dir d]) ap m = some ((-1, s'), m')) ∨
      ∃ t, c.number = .ok t ∧ vsnprintf env s n (showItems [.dir d]) ap m =
        some (((t.length : Int), s.blit 0 (t.take (n - 1) ++ [0])), m) := by
  obtain ⟨hn, hw, hf, hspec⟩ := hl.others env m
  cases hnum : c.number with
  | error e =>
    obtain ⟨e', he', hne⟩ := printItems_error env m hd hl hnum
    exact .inl (vsnprintf_failed h₁ h₂ he' hne)
  | ok t =>
    have hprints := (Prints.nil env ap' m).dir hd hn hw hf (hspec.trans hnum)
    rw [List.append_nil] at hprints
    by_cases hcount : (t.length : Int) > intMax
    · have he := hprints 0 (by decide)
      rw [if_pos (by omega)] at he
      exact .inl (vsnprintf_failed h₁ h₂ he (by decide))
    · exact .inr ⟨t, rfl, hprints.vsnprintf (by omega) s h₁ h₂⟩

/-- An integer takes an argument. -/
theorem Integer.arg (hl : Integer d.t) : d.st ≠ .noarg := by
  intro hno
  rw [(d.noarg hno).2] at hl
  exact absurd hl (by decide : ¬(['d', 'i', 'u', 'o', 'x', 'X', 'p'].any fun l => ch l = ch 'm') = true)

end

end Synthol.Stdlib
