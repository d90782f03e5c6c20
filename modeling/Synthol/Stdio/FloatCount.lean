import Synthol.Stdio.FloatRound
import Synthol.Stdio.Padded

/-!
# What fmt_fp returns

`fmt_fp` returns the number of bytes that it writes, whatever the number, the conversion, the width and the precision
(`fpFinite_exact`), unless a precision close to `INT_MAX` overflows in it. So it can stand for the parameter of
`printf_core` (`fmtFpFinite`).
-/

namespace Synthol.Stdio

open X86 Numeral Limbs Function

/-! ## Lengths of digits -/

theorem length_limb {c : Nat} (h : c < limbBase) : (limb c).length = if c = 0 then 0 else Nat.log 10 c + 1 := by
  have hc : (BitVec.ofNat 64 c).toNat = c := by
    rw [BitVec.toNat_ofNat]
    exact Nat.mod_eq_of_lt (Nat.lt_of_lt_of_le h (by norm_num [limbBase]))
  rw [limb, fmtU, fmtDigits, List.length_map, hc]
  split
  · rename_i h0
    rw [h0, numeral_zero]
    rfl
  · rename_i h0
    exact length_numeral (by decide) (lt_pow_64 h) h0

theorem length_atLeast (n : Nat) (s : Frag) : (atLeast n s).length = max n s.length := by
  rw [atLeast, List.length_append, List.length_replicate]
  omega

theorem length_first {c : Nat} (h : c < limbBase) : (atLeast 1 (limb c)).length = Nat.log 10 c + 1 := by
  rw [length_atLeast, length_limb h]
  split
  · rename_i h0
    rw [h0, Nat.log_zero_right]
    rfl
  · omega

theorem length_other {c : Nat} (h : c < limbBase) : (atLeast 9 (limb c)).length = 9 := by
  have hlog := log_lt h
  rw [length_atLeast, length_limb h]
  split <;> omega

/-- The zeros behind the digits, where `p` has `k` left. -/
theorem length_zeros (k : Int) (n : Nat) :
    ((pad (ch '0') (k + n) n {}).flatten.length : Int) = max k 0 := by
  have hlen : (pad (ch '0') (k + n) n {}).flatten.length = (k + n - n).toNat := by
    rw [pad_length]
    rfl
  rw [hlen]
  omega

/-! ## The digits of %f -/

theorem length_intLimbs {big : Cells} {a : Int} (ha : a ≤ 0) (h : ∀ i, a ≤ i → i < 1 → big i < limbBase) :
    ((intLimbs big a).flatten.length : Int) = (Nat.log 10 (big a) : Nat) + 1 + 9 * (0 - a) := by
  obtain ⟨n, hn⟩ : ∃ n : Nat, (1 - a).toNat = n + 1 := ⟨(0 - a).toNat, by omega⟩
  have hrest : ∀ k ∈ List.range n, (atLeast 9 (limb (big (a + ((k + 1 : Nat) : Int))))).length = 9 := by
    intro k hk
    have hk' := List.mem_range.mp hk
    exact length_other (h _ (by omega) (by omega))
  have hsum : ((List.range n).map fun k => (atLeast 9 (limb (big (a + ((k + 1 : Nat) : Int))))).length).sum = n * 9 := by
    rw [List.map_congr_left hrest, List.map_const', List.sum_replicate_nat, List.length_range]
  rw [intLimbs, hn, List.range_succ_eq_map, List.map_cons, List.map_map, List.flatten_cons, List.length_append,
    List.length_flatten, List.map_map, if_pos rfl, Nat.cast_zero, Int.add_zero,
    length_first (h a (Int.le_refl a) (by omega))]
  have hmap : (List.length ∘ (fun k : Nat => atLeast (if k = 0 then 1 else 9) (limb (big (a + (k : Int))))) ∘ Nat.succ) =
      fun k => (atLeast 9 (limb (big (a + ((k + 1 : Nat) : Int))))).length := by
    funext k
    simp
  rw [hmap, hsum]
  omega

/-- A run over the limbs behind the radix: what is printed and what is left of `p`. -/
theorem length_fracLimbs (big : Cells) {z : Int} : ∀ {n : Nat} {d p : Int},
    (∀ i, d ≤ i → i < z → big i < limbBase) → -9 ≤ p →
    ((fracLimbs big z n d p).1.flatten.length : Int) + max (fracLimbs big z n d p).2 0 = max p 0 ∧
      -9 ≤ (fracLimbs big z n d p).2 ∧ (fracLimbs big z n d p).2 ≤ p
  | 0, d, p, _, hp => by
    rw [fracLimbs]
    simp only [List.flatten_nil, List.length_nil]
    omega
  | n + 1, d, p, h, hp => by
    rw [fracLimbs]
    split
    · rename_i hd
      have ih := length_fracLimbs big (n := n) (d := d + 1) (p := p - 9) (fun i h₁ h₂ => h i (by omega) h₂) (by omega)
      simp only [List.flatten_cons, List.length_append, List.length_take, length_other (h d (Int.le_refl d) hd.1)]
      omega
    · simp only [List.flatten_nil, List.length_nil]
      omega

section

variable (fl : Flags) {x : Big} {e p : Int}

theorem length_fixedBody (hp : 0 ≤ p) (hx : ∀ i, min x.a 0 ≤ i → i < max x.z 1 → x.big i < limbBase) (he : Lead x e)
    {body : List Frag} (h : fixedBody x p fl = .ok body) :
    (body.flatten.length : Int) = 1 + p + pointLen p fl + max e 0 := by
  have hint : ((intLimbs x.big (if x.a > 0 then 0 else x.a)).flatten.length : Int) = 1 + max e 0 := by
    by_cases ha : x.a > 0
    · obtain ⟨he0, h0⟩ := he.part ha
      rw [if_pos ha, length_intLimbs (Int.le_refl 0) fun i h₁ h₂ => hx i (by omega) (by omega), h0, Nat.log_zero_right]
      omega
    · have hea := he.whole (by omega)
      rw [if_neg ha, length_intLimbs (by omega) fun i h₁ h₂ => hx i (by omega) (by omega)]
      omega
  have hpoint : ((if p ≠ 0 ∨ fl.altForm then [text ['.']] else [] : List Frag).flatten.length : Int) =
      pointLen p fl := by
    unfold pointLen
    split <;> rfl
  obtain ⟨hfrac, -⟩ := length_fracLimbs x.big (z := x.z) (n := (x.z - 1).toNat) (d := 1) (p := p)
    (fun i h₁ h₂ => hx i (by omega) (by omega)) (by omega)
  have hzeros := length_zeros (fracLimbs x.big x.z (x.z - 1).toNat 1 p).2 9
  obtain ⟨w, hw, rfl⟩ := map_ok.mp h
  rw [inInt_ok hw]
  simp only [List.flatten_append, List.length_append, Nat.cast_add, hint, hpoint]
  rw [Nat.cast_ofNat] at hzeros
  omega

theorem fixedBody_ok (hp : 0 ≤ p) (hmax : p + 9 ≤ intMax) (hx : ∀ i, 1 ≤ i → i < x.z → x.big i < limbBase) :
    ∃ body, fixedBody x p fl = .ok body := by
  obtain ⟨-, hlow, hle⟩ := length_fracLimbs x.big (n := (x.z - 1).toNat) hx (p := p) (by omega)
  have hmin : -intMax - 1 ≤ 0 := by decide
  simp only [fixedBody, inInt_of (x := (fracLimbs x.big x.z (x.z - 1).toNat 1 p).2 + 9) (by omega) (by omega)]
  exact ⟨_, rfl⟩

/-! ## The digits of %e -/

/-- A run over the limbs behind the first. -/
theorem length_expLimbs : ∀ {n : Nat} {d p : Int}, x.a < d → (∀ i, d ≤ i → i < x.z → x.big i < limbBase) →
    ((expLimbs x fl n d p).1.flatten.length : Int) + max (expLimbs x fl n d p).2 0 = max p 0 ∧
      (-9 ≤ p → -9 ≤ (expLimbs x fl n d p).2 ∧ (expLimbs x fl n d p).2 ≤ p)
  | 0, d, p, _, _ => by
    rw [expLimbs]
    simp only [List.flatten_nil, List.length_nil]
    omega
  | n + 1, d, p, hd, h => by
    have hne : d ≠ x.a := by omega
    rw [expLimbs]
    split
    · rename_i hdz
      have hlen := length_other (h d (Int.le_refl d) hdz.1)
      have ih := length_expLimbs (n := n) (d := d + 1) (p := p - 9) (by omega) fun i h₁ h₂ => h i (by omega) h₂
      simp only [List.nil_append, List.flatten_append, List.length_append, List.flatten_singleton,
        List.length_take, hlen, Nat.cast_ofNat]
      omega
    · simp only [List.flatten_nil, List.length_nil]
      omega

theorem length_expBody (hp : 0 ≤ p) (hx : ∀ i, x.a ≤ i → i < max x.z (x.a + 1) → x.big i < limbBase) (estr : Frag) :
    (∀ body, expBody x p fl estr = .ok body → (body.flatten.length : Int) = 1 + p + pointLen p fl + estr.length) ∧
      (p + 18 ≤ intMax → ∃ body, expBody x p fl estr = .ok body) := by
  -- with one limb at least
  obtain ⟨y, hy, hya, hyb, hyz, hyz'⟩ : ∃ y : Big, y = (if x.z ≤ x.a then { x with z := x.a + 1 } else x) ∧ y.a = x.a ∧
      y.big = x.big ∧ y.a < y.z ∧ y.z ≤ max x.z (x.a + 1) := by
    refine ⟨_, rfl, ?_⟩
    split
    · exact ⟨rfl, rfl, by simp only; omega, by simp only; omega⟩
    · exact ⟨rfl, rfl, by omega, by omega⟩
  have hcells : ∀ i, y.a ≤ i → i < y.z → y.big i < limbBase := by
    intro i h₁ h₂
    rw [hyb]
    exact hx i (by omega) (by omega)
  obtain ⟨n, hn⟩ : ∃ n : Nat, (y.z - y.a).toNat = n + 1 := ⟨(y.z - y.a).toNat - 1, by omega⟩
  have hfirst := length_first (hcells y.a (Int.le_refl _) hyz)
  have hlog := log_lt (hcells y.a (Int.le_refl _) hyz)
  have hpoint : ((if p > 0 ∨ fl.altForm then [text ['.']] else [] : List Frag).flatten.length : Int) =
      pointLen p fl := by
    unfold pointLen
    have hiff : p > 0 ↔ p ≠ 0 := by omega
    simp only [hiff]
    split <;> rfl
  simp only [expBody, ← hy, hn]
  have hrun : ((expLimbs y fl (n + 1) y.a p).1.flatten.length : Int) + max (expLimbs y fl (n + 1) y.a p).2 0 =
      1 + p + pointLen p fl ∧ -9 ≤ (expLimbs y fl (n + 1) y.a p).2 ∧ (expLimbs y fl (n + 1) y.a p).2 ≤ p := by
    have hrest := length_expLimbs fl (x := y) (n := n) (d := y.a + 1) (p := p - (Nat.log 10 (y.big y.a) : Nat))
      (by omega) fun i h₁ h₂ => hcells i (by omega) h₂
    rw [expLimbs, if_pos ⟨hyz, hp⟩]
    simp only [if_true, List.cons_append, List.flatten_cons, List.flatten_append, List.length_append, List.length_take,
      List.length_drop, List.flatten_nil, List.length_nil, hfirst, Nat.add_sub_cancel, Nat.cast_add, hpoint]
    omega
  constructor
  · intro body h
    have hzeros := length_zeros (expLimbs y fl (n + 1) y.a p).2 18
    rw [Nat.cast_ofNat] at hzeros
    obtain ⟨w, hw, rfl⟩ := map_ok.mp h
    rw [inInt_ok hw]
    simp only [List.flatten_append, List.length_append, List.flatten_singleton, Nat.cast_add]
    omega
  · intro hmax
    have hmin : -intMax - 1 ≤ 0 := by decide
    rw [inInt_of (x := (expLimbs y fl (n + 1) y.a p).2 + 18) (by omega) (by omega)]
    exact ⟨_, rfl⟩

end

/-! ## The whole text -/

section

variable (w : Int) (pre : Frag) {body : List Frag} {l : Int} {fl : Flags} (hfl : fl.Proper)
  (hl : (body.flatten.length : Int) = l)
include hfl hl

/-- The padding around a body that is as long as it is counted. -/
theorem layout_text : (layout w pre l body fl).1.flatten = padded w fl pre body.flatten ∧
    (layout w pre l body fl).2 = (padded w fl pre body.flatten).length := by
  have hlen := length_padded w fl pre body.flatten
  subst hl
  simp only [layout]
  constructor
  · rw [← pads_flatten hfl]
    simp only [List.flatten_append, List.flatten_singleton]
  · omega

theorem layout_exact : (layout w pre l body fl).1.flatten.length = (layout w pre l body fl).2 := by
  obtain ⟨htext, hcount⟩ := layout_text w pre hfl hl
  rw [htext, hcount]

end

/-- The text of `%f`. -/
theorem fpText_fixed {x : Big} {e w p : Int} {neg : Bool} {fl : Flags} {t : Byte} {r : List Frag × Nat}
    (h : fpText x e neg w p fl t = .ok r) (ht : t ||| 32 = ch 'f') : ∃ body, fixedBody x p fl = .ok body ∧
      layout w (sign neg fl) (1 + p + pointLen p fl + max e 0) body fl = r := by
  simp only [fpText, if_pos ht] at h
  split at h
  · cases h
  split at h
  · cases h
  have hl : (if e > 0 then 1 + p + pointLen p fl + e else 1 + p + pointLen p fl) = 1 + p + pointLen p fl + max e 0 := by
    split <;> omega
  rw [hl] at h
  split at h
  · cases h
  exact map_ok.mp h

/-- The text of `%e`. -/
theorem fpText_exp {x : Big} {e w p : Int} {neg : Bool} {fl : Flags} {t : Byte} {r : List Frag × Nat}
    (h : fpText x e neg w p fl t = .ok r) (ht : t ||| 32 ≠ ch 'f') :
    ∃ body, expBody x p fl (expText 2 t e) = .ok body ∧
      layout w (sign neg fl) (1 + p + pointLen p fl + (expText 2 t e).length) body fl = r := by
  simp only [fpText, if_neg ht] at h
  split at h
  · cases h
  split at h
  · cases h
  split at h
  · cases h
  exact map_ok.mp h

theorem fpText_exact {x : Big} {e w p top : Int} {neg : Bool} {fl : Flags} {t : Byte} {r : List Frag × Nat}
    (h : fpText x e neg w p fl t = .ok r) (hfl : fl.Proper) (hp : 0 ≤ p) (htop : x.z ≤ top ∧ 1 ≤ top)
    (hx : ∀ i, min x.a 0 ≤ i → i < top → x.big i < limbBase) (hf : t ||| 32 = ch 'f' → Lead x e)
    (he : t ||| 32 ≠ ch 'f' → x.a < top) : r.1.flatten.length = r.2 := by
  by_cases ht : t ||| 32 = ch 'f'
  · obtain ⟨body, hbody, rfl⟩ := fpText_fixed h ht
    exact layout_exact w (sign neg fl) hfl
      (length_fixedBody fl hp (fun i h₁ h₂ => hx i h₁ (by omega)) (hf ht) hbody)
  · have ha := he ht
    obtain ⟨body, hbody, rfl⟩ := fpText_exp h ht
    obtain ⟨hlen, -⟩ := length_expBody fl hp (fun i h₁ h₂ => hx i (by omega) (by omega)) (expText 2 t e)
    exact layout_exact w (sign neg fl) hfl (hlen body hbody)

theorem fpHex_exact {y : Finite} {w p : Int} {neg : Bool} {fl : Flags} {t : Byte} {r : List Frag × Nat}
    (h : fpHex neg y w p fl t = .ok r) (hfl : fl.Proper) : r.1.flatten.length = r.2 := by
  simp only [fpHex] at h
  generalize hexDigits (t &&& 32) p fl (hexRound y.m p) = s at h
  generalize expText 1 (t + (ch 'p' - ch 'a')) y.e = estr at h
  generalize sign neg fl ++ text ['0', if t &&& 32 ≠ 0 then 'x' else 'X'] = pre at h
  split at h
  · cases h
  cases h
  apply layout_exact w pre hfl
  generalize hl : (if p ≠ 0 ∧ (s.length : Int) - 2 < p then p + 2 + estr.length else s.length + estr.length : Int) = l
  have hle : (s.length + estr.length : Int) ≤ l := by
    rw [← hl]
    split <;> omega
  have hzeros : (pad (ch '0') (l - estr.length - s.length) 0 {}).flatten.length =
      (l - estr.length - s.length - 0).toNat := by
    rw [pad_length]
    rfl
  simp only [List.flatten_append, List.length_append, List.flatten_singleton, hzeros, Nat.cast_add]
  omega

/-- The letters of `%g`. -/
theorem general_letter {t : Byte} (h : t ||| 32 = ch 'g') : (t - 1) ||| 32 = ch 'f' ∧ (t - 2) ||| 32 ≠ ch 'f' := by
  revert t
  decide

/-- The style of `%f` is chosen only where the digits go on behind the radix. -/
theorem style_spec {e p : Int} {t : Byte} {q : Int × Byte} (hp : 0 ≤ p) (ht : t ||| 32 = ch 'g')
    (h : style e p t = .ok q) : (0 ≤ q.1 ∧ q.1 ≤ max p 1 + 3) ∧ (q.2 ||| 32 = ch 'f' → e < max p 1) := by
  obtain ⟨-, he⟩ := general_letter ht
  have hp1 : (if p = 0 then 1 else p) = max p 1 := by
    split <;> omega
  simp only [style, hp1] at h
  split at h
  · rename_i hpe
    obtain ⟨p', hp', rfl⟩ := map_ok.mp h
    rw [inInt_ok hp']
    exact ⟨by simp only; omega, fun _ => hpe.1⟩
  · cases h
    exact ⟨by simp only; omega, fun hf => absurd hf he⟩

theorem significant_nonneg (x : Big) (e : Int) (t : Byte) : 0 ≤ significant x e t := by
  unfold significant
  simp only
  split <;> exact Int.le_max_left 0 _

theorem general_spec {x : Big} {e p : Int} {t : Byte} {fl : Flags} {q : Int × Byte} (hp : 0 ≤ p)
    (ht : t ||| 32 = ch 'g') (h : general x e p t fl = .ok q) :
    (0 ≤ q.1 ∧ q.1 ≤ max p 1 + 3) ∧ (q.2 ||| 32 = ch 'f' → e < max p 1) := by
  obtain ⟨q', hq, rfl⟩ := map_ok.mp h
  obtain ⟨hstyle, hf⟩ := style_spec hp ht hq
  have hsig := significant_nonneg x e q'.2
  simp only
  split
  · exact ⟨hstyle, hf⟩
  · exact ⟨by simp only; omega, hf⟩

/-- What `rounded` leaves, for the precision `p` of the letter `t`. -/
structure Ready (p : Int) (t : Byte) (x : Big) (e : Int) : Prop where
  top : ∃ top, x.z ≤ top ∧ 1 ≤ top ∧ (t ||| 32 ≠ ch 'f' → x.a < top) ∧
    ∀ i, min x.a 0 ≤ i → i < top → x.big i < limbBase
  fixed : t ||| 32 = ch 'f' → Lead x e
  general : t ||| 32 = ch 'g' → e < max p 1 → Lead x e

/-- The digits of a style that counts from the first limb start in a limb that is there. -/
theorem le_place {x : Big} {j : Int} (h : x.big x.a < limbBase) (hj : -exponent x.big x.a ≤ j) : x.a ≤ place j := by
  have hlog := log_lt h
  rw [exponent_eq h] at hj
  unfold place
  omega

theorem rounded_ready {junk : Cells} {y : Finite} {p : Int} {t : Byte} {q : Big × Int} (hp : 0 ≤ p)
    (h : rounded junk y p t = .ok q) : Ready p t q.1 q.2 := by
  have hx : Formed (t ||| 32 = ch 'f') (decimal junk y (t ||| 32 = ch 'f') p) := decimal_formed junk hp
  have hlead := hx.lead
  obtain ⟨j', hj', rfl⟩ := map_ok.mp h
  rw [inInt_ok hj']
  generalize decimal junk y (t ||| 32 = ch 'f') p = x at hx hlead ⊢
  generalize he : (if x.a < x.z then exponent x.big x.a else 0) = e at hlead ⊢
  generalize hj : p - (if (decide (t ||| 32 = ch 'f')) = true then 0 else e) -
    (if t ||| 32 = ch 'g' ∧ p ≠ 0 then 1 else 0) = j
  show Ready p t (round x e j).1.trim (round x e j).2
  have hfg : t ||| 32 = ch 'f' → t ||| 32 ≠ ch 'g' := fun h h' => absurd (h.symm.trans h') (by decide)
  -- where there are no limbs the style is that of `%f`
  have hcase : t ||| 32 = ch 'f' ∧ j = p ∨ t ||| 32 ≠ ch 'f' ∧ x.a < x.z ∧ e = exponent x.big x.a ∧
      j = p - e - (if t ||| 32 = ch 'g' ∧ p ≠ 0 then 1 else 0) := by
    by_cases hf : t ||| 32 = ch 'f'
    · refine .inl ⟨hf, ?_⟩
      rw [← hj, if_pos (decide_eq_true hf), if_neg fun h => hfg hf h.1]
      omega
    · have hlt : x.a < x.z := hx.lt (.inl (decide_eq_false hf))
      refine .inr ⟨hf, hlt, by rw [← he, if_pos hlt], ?_⟩
      rw [← hj, decide_eq_false hf]
      simp
  have hd : x.a ≤ place j ∨ 0 ≤ place j := by
    rcases hcase with ⟨-, hjp⟩ | ⟨-, hlt, hex, hje⟩
    · right
      unfold place
      omega
    · left
      apply le_place (hx.cells x.a (by omega) (by omega))
      rw [← hex, hje]
      split <;> omega
  obtain ⟨hlow, hle, hz⟩ := hx.round_start (e := e) hd
  have hcells := hx.round_cells (e := e) hd
  have htrim : (round x e j).1.trim.z ≤ max x.z 1 := by
    have ht := trim_le (round x e j).1.big ((round x e j).1.z - (round x e j).1.a).toNat (round x e j).1.z
    simp only [Big.trim]
    omega
  have hlead' : 0 ≤ j → Lead (round x e j).1.trim (round x e j).2 := fun hj0 =>
    ⟨(hx.round_lead hd hj0 hlead).whole, (hx.round_lead hd hj0 hlead).part⟩
  refine ⟨⟨max x.z 1, htrim, by omega, ?_, hcells⟩, ?_, ?_⟩
  · intro hf
    have hlt := hx.lt (.inl (decide_eq_false hf))
    have ha : (round x e j).1.trim.a = (round x e j).1.a := rfl
    omega
  · intro hf
    rcases hcase with ⟨-, hjp⟩ | ⟨hf', -⟩
    · exact hlead' (by omega)
    · exact absurd hf hf'
  · intro hg hep
    rcases hcase with ⟨hf, -⟩ | ⟨-, hlt, hex, hje⟩
    · exact absurd hg (hfg hf)
    · have hmono := hx.exponent_le hd hlt hex
      apply hlead'
      rw [hje]
      split <;> omega

/-! ## Where it is defined -/

/-- There is an `int` for the digits after the radix, unless there are too many: the first digit that is not zero is one
of the first 16452. -/
theorem rounded_ok {junk : Cells} {y : Finite} {p : Int} {t : Byte} (hp : 0 ≤ p)
    (hmax : p + (if t ||| 32 = ch 'f' then 0 else 16452) ≤ intMax) : ∃ q, rounded junk y p t = .ok q := by
  have hx : Formed (t ||| 32 = ch 'f') (decimal junk y (t ||| 32 = ch 'f') p) := decimal_formed junk hp
  have hmin : -intMax - 1 ≤ -6000 := by decide
  simp only [rounded, decide_eq_true_eq]
  generalize decimal junk y (t ||| 32 = ch 'f') p = x at hx ⊢
  by_cases hf : t ||| 32 = ch 'f'
  · rw [if_pos hf] at hmax ⊢
    rw [inInt_of (by omega) (by omega)]
    exact ⟨_, rfl⟩
  · have hlt := hx.lt (.inl (decide_eq_false hf))
    have hcell := hx.cells x.a (by omega) (by omega)
    have hlog := log_lt hcell
    have hlow := hx.low
    have hhigh := hx.high
    rw [if_neg hf] at hmax ⊢
    rw [if_pos hlt, exponent_eq hcell, inInt_of (by omega) (by omega)]
    exact ⟨_, rfl⟩

theorem style_defined {e p : Int} (t : Byte) (hp : 0 ≤ p) (hmax : p + 3 ≤ intMax) :
    style e p t ≠ .error .undefined := by
  intro h
  have hp1 : (if p = 0 then 1 else p) = max p 1 := by
    split <;> omega
  simp only [style, hp1] at h
  split at h
  · have hmin : -intMax - 1 ≤ 0 := by decide
    have hone : (1 : Int) + 3 ≤ intMax := by decide
    rw [inInt_of (by omega) (by omega)] at h
    cases h
  · cases h

theorem fpHex_defined {y : Finite} {w p : Int} {neg : Bool} {fl : Flags} {t : Byte} :
    fpHex neg y w p fl t ≠ .error .undefined := by
  intro h
  simp only [fpHex] at h
  generalize hexDigits (t &&& 32) p fl (hexRound y.m p) = s at h
  generalize expText 1 (t + (ch 'p' - ch 'a')) y.e = estr at h
  generalize sign neg fl ++ text ['0', if t &&& 32 ≠ 0 then 'x' else 'X'] = pre at h
  split at h <;> cases h

theorem fpText_defined {x : Big} {e w p top : Int} {neg : Bool} {fl : Flags} {t : Byte} (hp : 0 ≤ p)
    (hmax : p + 18 ≤ intMax) (htop : x.z ≤ top ∧ 1 ≤ top) (hx : ∀ i, min x.a 0 ≤ i → i < top → x.big i < limbBase)
    (he : t ||| 32 ≠ ch 'f' → x.a < top) : fpText x e neg w p fl t ≠ .error .undefined := by
  intro h
  simp only [fpText] at h
  split at h
  · cases h
  split at h
  · split at h
    · cases h
    obtain ⟨body, hbody⟩ := fixedBody_ok fl hp (by omega) (x := x) fun i h₁ h₂ => hx i (by omega) (by omega)
    rw [hbody] at h
    generalize (if e > 0 then 1 + p + pointLen p fl + e else 1 + p + pointLen p fl) = l at h
    split at h <;> cases h
  · rename_i ht
    have ha := he ht
    split at h
    · cases h
    obtain ⟨-, hok⟩ := length_expBody fl hp (x := x) (fun i h₁ h₂ => hx i (by omega) (by omega)) (expText 2 t e)
    obtain ⟨body, hbody⟩ := hok hmax
    rw [hbody] at h
    split at h <;> cases h

/-! ## fmt_fp -/

section

variable {junk : Cells} {neg : Bool} {y : Finite} {w p : Int} {fl : Flags} {t : Byte} {r : List Frag × Nat}

theorem fpDecimal_exact (h : fpDecimal junk neg y w p fl t = .ok r) (hfl : fl.Proper) : r.1.flatten.length = r.2 := by
  simp only [fpDecimal] at h
  generalize hP : (if p < 0 then 6 else p) = P at h
  have hP0 : 0 ≤ P := by
    rw [← hP]
    split <;> omega
  obtain ⟨⟨x, e⟩, hround, h⟩ := bind_ok.mp h
  obtain ⟨⟨top, hz, htop, ha, hcells⟩, hfixed, hgen⟩ := rounded_ready hP0 hround
  split at h
  · rename_i hg
    obtain ⟨⟨p', t'⟩, hstyle, h⟩ := bind_ok.mp h
    obtain ⟨⟨hp0, -⟩, hlt⟩ := general_spec hP0 hg hstyle
    have hf : t ||| 32 ≠ ch 'f' := fun hf => absurd (hf.symm.trans hg) (by decide)
    exact fpText_exact h hfl hp0 ⟨hz, htop⟩ hcells (fun hf' => hgen hg (hlt hf')) fun _ => ha hf
  · exact fpText_exact h hfl hP0 ⟨hz, htop⟩ hcells hfixed ha

/-- **What fmt_fp returns** is what it writes, for every finite number and every conversion. -/
theorem fpFinite_exact (h : fpFinite junk neg y w p fl t = .ok r) (hfl : fl.Proper) : r.1.flatten.length = r.2 := by
  unfold fpFinite at h
  split at h
  · exact fpHex_exact h hfl
  · exact fpDecimal_exact h hfl

/-- **An `int` overflows** only where the precision is close to `INT_MAX`. -/
theorem fpFinite_defined (hmax : p + 17000 ≤ intMax) : fpFinite junk neg y w p fl t ≠ .error .undefined := by
  intro h
  unfold fpFinite at h
  split at h
  · exact fpHex_defined h
  simp only [fpDecimal] at h
  have hP : 0 ≤ (if p < 0 then 6 else p) ∧ (if p < 0 then 6 else p) + 17000 ≤ intMax := by
    have hsix : (6 : Int) + 17000 ≤ intMax := by decide
    split <;> omega
  generalize (if p < 0 then 6 else p) = P at h hP
  obtain ⟨hP0, hPmax⟩ := hP
  obtain ⟨⟨x, e⟩, hround⟩ := @rounded_ok junk y _ t hP0 (by split <;> omega)
  obtain ⟨⟨top, hz, htop, ha, hcells⟩, -, -⟩ := rounded_ready hP0 hround
  rw [hround] at h
  rcases bind_error.mp h with hok | ⟨q, hq, h⟩
  · cases hok
  cases hq
  split at h
  · rename_i hg
    have hf : t ||| 32 ≠ ch 'f' := fun hf => absurd (hf.symm.trans hg) (by decide)
    rcases bind_error.mp h with hstyle | ⟨q, hq, h⟩
    · exact style_defined t hP0 (by omega) (map_error.mp hstyle)
    · obtain ⟨⟨hq0, hqle⟩, -⟩ := general_spec hP0 hg hq
      exact fpText_defined hq0 (by omega) ⟨hz, htop⟩ hcells (fun _ => ha hf) h
  · exact fpText_defined hP0 (by omega) ⟨hz, htop⟩ hcells ha h

end

/-- `fmt_fp` with its arithmetic, on a stack that holds `junk`. -/
def fmtFpFinite (junk : Cells) : FmtFp Finite where
  run := fpFinite junk
  exact h hfl := fpFinite_exact h hfl

/-- What formatting reads beside its arguments, in a program that has floating-point numbers. -/
def realEnv (junk : Cells) (utf8 : Bool) (strerror : Word) (nlArg : Nat → Arg Finite) (internalBuf : Block Byte) :
    Env Finite :=
  ⟨fmtFpFinite junk, utf8, strerror, nlArg, internalBuf⟩

end Synthol.Stdio
