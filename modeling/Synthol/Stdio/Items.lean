import Synthol.Stdio.Format
import Synthol.Stdio.Vfprintf

/-!
# printf_core as an interpreter of formats

A format as a programmer means it is a list of bytes and conversion specifications (`Item`). `printItems` goes over it
and converts one argument after the other; it knows nothing of how a format is written.

`printf_core` on the text of such a list does what `printItems` does: it writes the same bytes, counts them alike, leaves
the same memory, and fails or is undefined where that is (`passes_items`). A turn of its loop takes many bytes at once, and reads each
`%%` as one, so that the two go at different paces (`literal_items`, `loop_items`).
-/

namespace Synthol.Stdio

open X86

inductive Item
  | chr (c : Byte)
  | dir (d : Directive)

def Item.show : Item → List Byte
  | .chr c => if c = ch '%' then [c, c] else [c]
  | .dir d => d.show

def showItems (is : List Item) : List Byte := is.flatMap Item.show

/-- What has been written, counted and stored. -/
structure Output where
  text : List Byte
  cnt : Nat
  m : Mem

def Output.after (t : List Byte) (o : Output) : Output := { o with text := t ++ o.text }

section

variable {F : Type} (env : Env F)

/-- The items one by one, where `cnt` bytes have been counted. -/
def printItems : List Item → VaList F → Mem → Nat → Except Stop Output
  | [], _, m, cnt => .ok ⟨[], cnt, m⟩
  | .chr c :: is, ap, m, cnt =>
    if (1 : Int) > intMax - cnt then .error .overflow else (printItems is ap m (cnt + 1)).map (Output.after [c])
  | .dir d :: is, ap, m, cnt => do
    let (c, ap) ← d.conv true ap
    let ((fs, l), m) ← convert env cnt m c
    if (l : Int) > intMax - cnt then .error .overflow
    else (printItems is ap m (cnt + l)).map (Output.after fs.flatten)

end

/-! ## Literal text -/

theorem show_second (d : Directive) (rest : List Byte) :
    ∃ c s, d.show ++ rest = ch '%' :: c :: s ∧ c ≠ ch '%' := by
  cases hs : d.flags ++ (d.showWidth ++ d.showRest) with
  | nil =>
    have h : d.t ∈ d.flags ++ (d.showWidth ++ d.showRest) := by
      simp [Directive.showRest, Directive.showEnd]
    rw [hs] at h
    cases h
  | cons c s =>
    refine ⟨c, s ++ rest, ?_, (d.inner_show (by rw [hs]; exact List.mem_cons_self)).2⟩
    rw [d.show_eq, hs]
    rfl

theorem show_ne_nil (i : Item) : i.show ≠ [] := by
  cases i with
  | chr c =>
    rw [Item.show]
    split <;> exact List.cons_ne_nil _ _
  | dir d => exact List.cons_ne_nil _ _

theorem showItems_eq_nil {is : List Item} : showItems is = [] ↔ is = [] := by
  cases is with
  | nil => exact iff_of_true rfl rfl
  | cons i is =>
    refine iff_of_false (fun h => show_ne_nil i ?_) (List.cons_ne_nil _ _)
    rw [showItems, List.flatMap_cons, List.append_eq_nil_iff] at h
    exact h.1

/-- Up to the first `%`. -/
theorem takeWhile_items : ∀ is : List Item, ∃ cs is', is = cs.map Item.chr ++ is' ∧
    (showItems is).takeWhile (· ≠ ch '%') = cs ∧ (showItems is).dropWhile (· ≠ ch '%') = showItems is' ∧
      (cs = [] → ∀ c tl, is = .chr c :: tl → c = ch '%')
  | [] => ⟨[], [], rfl, rfl, rfl, fun _ c tl h => by cases h⟩
  | .chr c :: is => by
    by_cases hc : c = ch '%'
    · refine ⟨[], .chr c :: is, rfl, ?_, ?_, fun _ c' tl h => by cases h; exact hc⟩
      · simp [showItems, Item.show, hc]
      · simp [showItems, Item.show, hc]
    · obtain ⟨cs, is', hi, ht, hd, -⟩ := takeWhile_items is
      have hshow : showItems (.chr c :: is) = c :: showItems is := by
        rw [showItems, List.flatMap_cons, Item.show, if_neg hc]
        rfl
      refine ⟨c :: cs, is', by rw [hi]; rfl, ?_, ?_, fun h => by cases h⟩
      · rw [hshow, List.takeWhile_cons_of_pos (by simpa using hc), ht]
      · rw [hshow, List.dropWhile_cons_of_pos (by simpa using hc), hd]
  | .dir d :: is => by
    have hshow : showItems (.dir d :: is) = d.show ++ showItems is := rfl
    obtain ⟨c, s, hs, -⟩ := show_second d (showItems is)
    refine ⟨[], .dir d :: is, rfl, ?_, ?_, fun _ c tl h => by cases h⟩
    · rw [hshow, hs, List.takeWhile_cons_of_neg (by simp)]
    · rw [hshow, hs, List.dropWhile_cons_of_neg (by simp)]

/-- The `%%` behind it. -/
theorem percents_items : ∀ is : List Item, ∃ k is', is = List.replicate k (.chr (ch '%')) ++ is' ∧
    percents (showItems is) = k ∧ showItems is = List.replicate (2 * k) (ch '%') ++ showItems is' ∧
      (k = 0 → ∀ tl, is ≠ .chr (ch '%') :: tl)
  | [] => ⟨0, [], rfl, rfl, rfl, fun _ tl h => by cases h⟩
  | .chr c :: is => by
    by_cases hc : c = ch '%'
    · obtain ⟨k, is', hi, hp, hs, -⟩ := percents_items is
      have hshow : showItems (.chr c :: is) = ch '%' :: ch '%' :: showItems is := by
        rw [showItems, List.flatMap_cons, Item.show, if_pos hc, hc]
        rfl
      refine ⟨k + 1, is', by rw [hi, hc]; rfl, ?_, ?_, fun h => by cases h⟩
      · rw [hshow, percents, if_pos ⟨rfl, rfl⟩, hp]
      · rw [hshow, hs, show 2 * (k + 1) = 2 * k + 1 + 1 by omega, List.replicate_succ, List.replicate_succ]
        rfl
    · have hshow : showItems (.chr c :: is) = c :: showItems is := by
        rw [showItems, List.flatMap_cons, Item.show, if_neg hc]
        rfl
      refine ⟨0, .chr c :: is, rfl, ?_, rfl, fun _ tl h => by cases h; exact hc rfl⟩
      rw [hshow]
      cases showItems is with
      | nil => rfl
      | cons d s => rw [percents, if_neg fun h => hc h.1]
  | .dir d :: is => by
    obtain ⟨c, s, hs, hne⟩ := show_second d (showItems is)
    have hshow : showItems (.dir d :: is) = ch '%' :: c :: s := hs
    refine ⟨0, .dir d :: is, rfl, ?_, rfl, fun _ tl h => by cases h⟩
    rw [hshow, percents, if_neg fun h => hne h.2]

/-- **A turn's literal text** is that of some bytes in a row, of none only before a specification or at the end. -/
theorem literal_items (is : List Item) : ∃ cs is', is = cs.map Item.chr ++ is' ∧
    literal (showItems is) = (cs, showItems is') ∧ (cs = [] → is = [] ∨ ∃ d tl, is = .dir d :: tl) := by
  obtain ⟨cs, is₁, hi, ht, hd, hc⟩ := takeWhile_items is
  obtain ⟨k, is₂, hi₁, hp, hs, hk⟩ := percents_items is₁
  refine ⟨cs ++ List.replicate k (ch '%'), is₂, ?_, ?_, ?_⟩
  · rw [hi, hi₁, List.map_append, List.map_replicate, List.append_assoc]
  · have htake : (showItems is₁).take k = List.replicate k (ch '%') := by
      rw [hs, List.take_append_of_le_length (by rw [List.length_replicate]; omega), List.take_replicate,
        Nat.min_eq_left (by omega)]
    have hdrop : (showItems is₁).drop (2 * k) = showItems is₂ := by
      have h : (List.replicate (2 * k) (ch '%') ++ showItems is₂).drop (List.replicate (2 * k) (ch '%')).length =
          showItems is₂ := List.drop_left
      rwa [List.length_replicate, ← hs] at h
    simp only [literal]
    rw [ht, hd, hp, htake, hdrop]
  · intro hnil
    rw [List.append_eq_nil_iff, List.replicate_eq_nil_iff] at hnil
    obtain ⟨hcs, rfl⟩ := hnil
    rw [hcs, List.map_nil, List.nil_append] at hi
    cases his : is with
    | nil => exact .inl rfl
    | cons i tl =>
      cases i with
      | chr c =>
        have hpc := hc hcs c tl his
        exact absurd (by rw [← hi, his, hpc]) (hk rfl tl)
      | dir d => exact .inr ⟨d, tl, rfl⟩

/-! ## The second pass -/

section

variable {F : Type} {env : Env F}

theorem map_after_after (r : Except Stop Output) (s t : List Byte) :
    (r.map (Output.after t)).map (Output.after s) = r.map (Output.after (s ++ t)) := by
  cases r with
  | error e => rfl
  | ok o => simp [Except.map, Output.after]

theorem map_after_nil (r : Except Stop Output) : r.map (Output.after []) = r := by
  cases r <;> rfl

/-- Bytes in a row count as one. -/
theorem printItems_chars (is : List Item) (ap : VaList F) (m : Mem) : ∀ (cs : List Byte) {cnt : Nat},
    (cnt : Int) ≤ intMax → printItems env (cs.map Item.chr ++ is) ap m cnt =
      if (cs.length : Int) > intMax - cnt then .error .overflow
      else (printItems env is ap m (cnt + cs.length)).map (Output.after cs)
  | [], cnt, h => by
    rw [List.length_nil, if_neg (by omega), map_after_nil]
    rfl
  | c :: cs, cnt, h => by
    rw [List.map_cons, List.cons_append, printItems, List.length_cons]
    by_cases h1 : (1 : Int) > intMax - cnt
    · rw [if_pos h1, if_pos (by omega)]
    · rw [if_neg h1, printItems_chars is ap m cs (by omega)]
      by_cases hl : (cs.length : Int) > intMax - (cnt + 1 : Nat)
      · rw [if_pos hl, if_pos (by omega)]
        rfl
      · rw [if_neg hl, if_neg (by omega), map_after_after, Nat.add_right_comm, Nat.add_assoc]
        rfl

/-- A directive in front. -/
theorem printItems_dir {d : Directive} {ap ap' : VaList F} {c : Conv F} (hd : d.conv true ap = .ok (c, ap'))
    (is : List Item) (m : Mem) (cnt : Nat) : printItems env (.dir d :: is) ap m cnt =
      (convert env cnt m c >>= fun r => if (r.1.2 : Int) > intMax - cnt then .error .overflow
        else (printItems env is ap' r.2 (cnt + r.1.2)).map (Output.after r.1.1.flatten)) := by
  rw [printItems, hd]
  rfl

/-- The text of a run. -/
def Trace.text (t : Trace F) : List Byte := (t.pieces.flatMap Piece.frags).flatten

/-- A run that ends as `r` says. -/
def Ends (t : Trace F) : Except Stop Output → Prop
  | .error e => t.stop = some (.error e)
  | .ok o => t.text = o.text ∧ t.m = o.m ∧ ∃ y, t.stop = some (.ok y) ∧ y.cnt = o.cnt

/-- A turn before a run. -/
theorem Ends.cons {t : Trace F} {r : Except Stop Output} (h : Ends t r) (qs : List (Piece F)) :
    Ends { t with pieces := qs ++ t.pieces } (r.map (Output.after (qs.flatMap Piece.frags).flatten)) := by
  cases r with
  | error e => exact h
  | ok o =>
    obtain ⟨ht, hm, hy⟩ := h
    refine ⟨?_, hm, hy⟩
    rw [Trace.text] at ht ⊢
    rw [List.flatMap_append, List.flatten_append, ht]
    rfl

/-! ### Turns -/

theorem Directive.conv_true (d : Directive) (ap : VaList F) : ∃ r, d.conv true ap = .ok r := by
  simp only [Directive.conv, if_true]
  split <;> exact ⟨_, rfl⟩

/-- What one turn does on the text of a list: it takes the plain bytes in front, if they are not too many, or the
directive in front. -/
inductive Turned (env : Env F) (cx : Pass F) (x : State F) :
    List Item → List (Piece F) × Except Stop (State F) → Prop
  | tooMany {cs : List Byte} {is} : (cs.length : Int) > intMax - x.cnt →
    Turned env cx x (cs.map Item.chr ++ is) ([], .error .overflow)
  | chars {cs : List Byte} {is} : ¬(cs.length : Int) > intMax - x.cnt → (showItems is).length < x.v.s.length →
    Turned env cx x (cs.map Item.chr ++ is)
      (cx.lit cs, .ok { x with v := { x.v with s := showItems is }, l := cs.length })
  | stop {d : Directive} {is e} : d.conv cx.f x.v.ap = .error e → Turned env cx x (.dir d :: is) (cx.lit [], .error e)
  | skip {d : Directive} {is c ap} : cx.f = false → d.conv cx.f x.v.ap = .ok (c, ap) →
    (showItems is).length < x.v.s.length →
    Turned env cx x (.dir d :: is) (cx.lit [], .ok { x with v := { x.v with s := showItems is, ap := ap }, l := 0 })
  | fail {d : Directive} {is c ap e} : cx.f = true → d.conv cx.f x.v.ap = .ok (c, ap) →
    convert env x.cnt x.m c = .error e → Turned env cx x (.dir d :: is) (cx.lit [], .error e)
  | conv {d : Directive} {is c ap fs l m} : cx.f = true → d.conv cx.f x.v.ap = .ok (c, ap) →
    convert env x.cnt x.m c = .ok ((fs, l), m) → (showItems is).length < x.v.s.length →
    Turned env cx x (.dir d :: is)
      (cx.lit [] ++ [⟨some c, fs, l⟩], .ok ⟨{ x.v with s := showItems is, ap := ap }, m, x.cnt, l⟩)

/-- **A turn** of either pass. -/
theorem turn_items {cx : Pass F} {is : List Item} {x : State F} (hs : x.v.s = showItems is) (hl : x.v.l10n = false)
    (hne : x.v.s ≠ []) : Turned env cx x is (turn env cx x) := by
  obtain ⟨cs, is', hi, hlit, hempty⟩ := literal_items is
  rw [← hs] at hlit
  by_cases hlen : (cs.length : Int) > intMax - x.cnt
  · rw [turn_over hlit hlen, hi]
    exact .tooMany hlen
  by_cases hcs : cs = []
  · obtain rfl | ⟨d, tl, rfl⟩ := hempty hcs
    · exact absurd hs hne
    rw [hcs, List.map_nil, List.nil_append] at hi
    have hshow : showItems is' = d.show ++ showItems tl := by
      rw [← hi]
      rfl
    have hlt : (showItems tl).length < x.v.s.length := by
      have hpos : 0 < d.show.length := Nat.succ_pos _
      rw [hs, hi, hshow, List.length_append]
      omega
    have hread := d.conversion_show cx { x.v with s := showItems is' } (showItems tl) hshow hl
    cases hd : d.conv cx.f x.v.ap with
    | error e =>
      simp only [hd, Except.map] at hread
      rw [turn_error hlit hlen hcs hread, hcs]
      exact .stop hd
    | ok r =>
      obtain ⟨c, ap⟩ := r
      simp only [hd, Except.map] at hread
      by_cases hf : cx.f = true
      · cases hconv : convert env x.cnt x.m c with
        | error e =>
          rw [turn_stop hlit hlen hcs hf hread hconv, hcs]
          exact .fail hf hd hconv
        | ok r =>
          obtain ⟨⟨fs, l⟩, m⟩ := r
          rw [turn_conv hlit hlen hcs hf hread hconv, hcs]
          exact .conv hf hd hconv hlt
      · rw [Bool.not_eq_true] at hf
        rw [turn_skip hlit hlen hcs hf hread, hcs]
        exact .skip hf hd hlt
  · have hlt := literal_lt (s := x.v.s) (by rw [hlit]; exact hcs)
    rw [hlit] at hlt
    rw [turn_lit hlit hlen hcs, hi]
    exact .chars hlen hlt

/-- **The loop** on the text of a list does what `printItems` does. -/
theorem loop_items (nlArg : Nat → Arg F) : ∀ (is : List Item) {n : Nat} {x : State F}, x.v.s = showItems is →
    x.v.l10n = false → (showItems is).length < n → (x.cnt : Int) ≤ intMax →
      Ends (loop env ⟨true, nlArg⟩ n x) (if (x.l : Int) > intMax - x.cnt then .error .overflow
        else printItems env is x.v.ap x.m (x.cnt + x.l))
  | _, 0, _, _, _, hn, _ => absurd hn (Nat.not_lt_zero _)
  | is, n + 1, x, hs, hl, hn, hc => by
    rw [loop]
    by_cases hover : (x.l : Int) > intMax - x.cnt
    · rw [if_pos hover, if_pos hover]
      rfl
    rw [if_neg hover, if_neg hover]
    simp only
    have hcnt : ((x.cnt + x.l : Nat) : Int) ≤ intMax := by omega
    by_cases hnil : x.v.s = []
    · rw [if_pos hnil]
      rw [hs, showItems_eq_nil] at hnil
      rw [hnil]
      exact ⟨rfl, rfl, _, rfl, rfl⟩
    rw [if_neg hnil]
    have hturn : Turned env ⟨true, nlArg⟩ { x with cnt := x.cnt + x.l, l := 0 } is _ := turn_items hs hl hnil
    generalize turn env _ _ = r at hturn ⊢
    rw [← hs] at hn
    cases hturn with
    | tooMany hlen =>
      rw [printItems_chars _ _ _ _ hcnt, if_pos hlen]
      rfl
    | @chars cs is' hlen hlt =>
      have ih := loop_items nlArg is' (n := n) (x := ⟨{ x.v with s := showItems is' }, x.m, x.cnt + x.l, cs.length⟩)
        rfl hl (Nat.lt_of_lt_of_le hlt (Nat.le_of_lt_succ hn)) hcnt
      simp only [if_neg hlen] at ih
      have h := ih.cons ((⟨true, nlArg⟩ : Pass F).lit cs)
      rw [printItems_chars _ _ _ _ hcnt, if_neg hlen]
      simpa [Pass.lit] using h
    | @stop d _ _ hd =>
      obtain ⟨r, hr⟩ := d.conv_true x.v.ap
      cases hr.symm.trans hd
    | skip hf => cases hf
    | fail _ hd hconv =>
      rw [printItems_dir hd, hconv]
      rfl
    | @conv d tl c ap fs l m _ hd hconv hlt =>
      have ih := loop_items nlArg tl (n := n) (x := ⟨{ x.v with s := showItems tl, ap := ap }, m, x.cnt + x.l, l⟩)
        rfl hl (Nat.lt_of_lt_of_le hlt (Nat.le_of_lt_succ hn)) hcnt
      rw [printItems_dir hd, hconv]
      simp only [bind, Except.bind] at ih ⊢
      by_cases hl' : (l : Int) > intMax - (x.cnt + x.l : Nat)
      · rw [if_pos hl'] at ih ⊢
        exact ih.cons _
      · rw [if_neg hl'] at ih ⊢
        have h := ih.cons ((⟨true, nlArg⟩ : Pass F).lit [] ++ [⟨some c, fs, l⟩])
        simpa [Pass.lit] using h

/-- Items without a conversion of floating-point numbers are defined. -/
theorem printItems_defined {is : List Item} (h : ∀ d, Item.dir d ∈ is → ∀ f (ap : VaList F) r,
    d.conv f ap = .ok r → r.1.float = false) : ∀ (ap : VaList F) (m : Mem) (cnt : Nat),
      printItems env is ap m cnt ≠ .error .undefined := by
  induction is with
  | nil =>
    intro ap m cnt hp
    cases hp
  | cons i is ih =>
    have hrest := ih fun d hd => h d (List.mem_cons_of_mem _ hd)
    intro ap m cnt hp
    cases i with
    | chr c =>
      rw [printItems] at hp
      split at hp
      · cases hp
      · exact hrest _ _ _ (map_error.mp hp)
    | dir d =>
      obtain ⟨⟨c, ap'⟩, hd⟩ := d.conv_true ap
      rw [printItems_dir hd] at hp
      rcases bind_error.mp hp with hc | ⟨r, -, hr⟩
      · have hfloat := (convert_undefined hc).1
        rw [h d List.mem_cons_self true ap (c, ap') hd] at hfloat
        cases hfloat
      · split at hr
        · cases hr
        · exact hrest _ _ _ (map_error.mp hr)

/-! ## The first pass -/

/-- The items can be printed where at least `k` bytes have been counted, as far as it is defined. -/
def Printable (env : Env F) (is : List Item) (k : Nat) : Prop :=
  ∃ ap m c, k ≤ c ∧ (c : Int) ≤ intMax ∧ ∀ e, printItems env is ap m c = .error e → e = .undefined

theorem Printable.chars {is : List Item} {cs : List Byte} {k : Nat} (h : Printable env (cs.map Item.chr ++ is) k) :
    ¬(cs.length : Int) > intMax - k ∧ Printable env is (k + cs.length) := by
  obtain ⟨ap, m, c, hk, hc, he⟩ := h
  rw [printItems_chars is ap m cs hc] at he
  split at he
  · exact absurd (he _ rfl) (by decide)
  · exact ⟨by omega, ap, m, c + cs.length, by omega, by omega, fun e h => he e (map_error.mpr h)⟩

/-- A directive without an argument prints the message of an error. -/
theorem Directive.noarg (d : Directive) (h : d.st = .noarg) : d.ps = .bare ∧ d.t = ch 'm' := by
  have hall : ∀ ps t, states ps t = some (.ty .noarg) → ps = .bare ∧ t = ch 'm' := by
    intro ps
    cases ps <;> decide +kernel
  exact hall d.ps d.t (by rw [d.state, h])

theorem Directive.noarg_float {d : Directive} {ap ap' : VaList F} {c : Conv F} {f : Bool}
    (hd : d.conv f ap = .ok (c, ap')) (h : d.st = .noarg) : c.float = false := by
  obtain ⟨hps, ht⟩ := d.noarg h
  obtain ⟨hcps, hct⟩ := Directive.conv_letter hd
  rw [Conv.float, Conv.letter, hcps, hct, hps, ht]
  decide

theorem Printable.dir {is : List Item} {d : Directive} {k : Nat} (h : Printable env (.dir d :: is) k)
    (hst : d.st = .noarg) : Printable env is k := by
  obtain ⟨ap, m, c, hk, hc, he⟩ := h
  obtain ⟨⟨cv, ap'⟩, hd⟩ := d.conv_true ap
  rw [printItems_dir hd] at he
  cases hcv : convert env c m cv with
  | error e =>
    obtain rfl := he e (bind_error.mpr (.inl hcv))
    have hfloat := (convert_undefined hcv).1
    rw [Directive.noarg_float hd hst] at hfloat
    cases hfloat
  | ok r =>
    have hrest := fun e h => he e (bind_error.mpr (.inr ⟨r, hcv, h⟩))
    split at hrest
    · exact absurd (hrest _ rfl) (by decide)
    · exact ⟨ap', r.2, c + r.1.2, by omega, by omega, fun e h => hrest e (map_error.mpr h)⟩

/-- How the first pass ends on a list: at the first argument, or at the end, or it counts too much and so will the
second. -/
def FirstEnds (env : Env F) (is : List Item) (k : Nat) (stop : Option (Except Stop (State F))) : Prop :=
  stop = some (.error .zero) ∨ (∃ y, stop = some (.ok y) ∧ y.v.l10n = false) ∨
    (stop = some (.error .overflow) ∧ ¬Printable env is k)

theorem loop_first (nlArg : Nat → Arg F) : ∀ (is : List Item) {n : Nat} {x : State F}, x.v.s = showItems is →
    x.v.l10n = false → (showItems is).length < n →
      FirstEnds env is (x.cnt + x.l) (loop env ⟨false, nlArg⟩ n x).stop
  | _, 0, _, _, _, hn => absurd hn (Nat.not_lt_zero _)
  | is, n + 1, x, hs, hl, hn => by
    rw [loop]
    by_cases hover : (x.l : Int) > intMax - x.cnt
    · rw [if_pos hover]
      refine .inr (.inr ⟨rfl, ?_⟩)
      rintro ⟨ap, m, c, hk, hc, -⟩
      omega
    rw [if_neg hover]
    simp only
    by_cases hnil : x.v.s = []
    · rw [if_pos hnil]
      exact .inr (.inl ⟨_, rfl, hl⟩)
    rw [if_neg hnil]
    have hturn : Turned env ⟨false, nlArg⟩ { x with cnt := x.cnt + x.l, l := 0 } is _ := turn_items hs hl hnil
    generalize turn env _ _ = r at hturn ⊢
    rw [← hs] at hn
    cases hturn with
    | tooMany hlen => exact .inr (.inr ⟨rfl, fun h => h.chars.1 hlen⟩)
    | @chars cs is' hlen hlt =>
      have ih := loop_first nlArg is' (n := n) (x := ⟨{ x.v with s := showItems is' }, x.m, x.cnt + x.l, cs.length⟩)
        rfl hl (Nat.lt_of_lt_of_le hlt (Nat.le_of_lt_succ hn))
      exact ih.imp_right (Or.imp_right (And.imp_right (mt fun h => h.chars.2)))
    | stop hd =>
      simp only [Directive.conv] at hd
      split at hd
      · cases hd
      · cases hd
        exact .inl rfl
    | @skip d tl c ap _ hd hlt =>
      have hst : d.st = .noarg := by
        by_contra hst
        simp only [Directive.conv, if_neg hst] at hd
        cases hd
      have ih := loop_first nlArg tl (n := n) (x := ⟨{ x.v with s := showItems tl, ap := ap }, x.m, x.cnt + x.l, 0⟩)
        rfl hl (Nat.lt_of_lt_of_le hlt (Nat.le_of_lt_succ hn))
      exact ih.imp_right (Or.imp_right (And.imp_right (mt fun h => h.dir hst)))
    | fail hf => cases hf
    | conv hf => cases hf

/-! ## Both passes -/

theorem firstPass_items (env : Env F) (is : List Item) (ap : VaList F) (m : Mem) :
    firstPass env (showItems is) ap env.nlArg m = some (ap, env.nlArg) ∨
      (firstPass env (showItems is) ap env.nlArg m = none ∧ ¬Printable env is 0) := by
  have hfirst : FirstEnds env is 0
      (loop env ⟨false, env.nlArg⟩ ((showItems is).length + 1) (start (showItems is) ap m)).stop :=
    loop_first env.nlArg is (x := start (showItems is) ap m) rfl rfl (Nat.lt_succ_self _)
  rcases hfirst with hz | ⟨y, hy, hl⟩ | ⟨ho, hf⟩
  · left
    rw [firstPass, hz]
  · left
    rw [firstPass, hy]
    simp only [hl, Bool.false_eq_true, if_false]
  · right
    exact ⟨by rw [firstPass, ho], hf⟩

theorem secondPass_items (env : Env F) (is : List Item) (ap : VaList F) (m : Mem) :
    match printItems env is ap m 0 with
    | .ok o => (secondPass env (showItems is) ap env.nlArg m).text = o.text ∧
      (secondPass env (showItems is) ap env.nlArg m).ret = some (o.cnt : Int) ∧
        (secondPass env (showItems is) ap env.nlArg m).m = o.m
    | .error e => (secondPass env (showItems is) ap env.nlArg m).ret = if e = .undefined then none else some (-1) := by
  have hmax : ((0 : Nat) : Int) ≤ intMax := by decide
  have hzero : ¬((0 : Nat) : Int) > intMax - (0 : Nat) := by decide
  have hrun : Ends (loop env ⟨true, env.nlArg⟩ ((showItems is).length + 1) (start (showItems is) ap m))
      (if ((0 : Nat) : Int) > intMax - (0 : Nat) then .error .overflow else printItems env is ap m 0) :=
    loop_items env.nlArg is (x := start (showItems is) ap m) rfl rfl (Nat.lt_succ_self _) hmax
  rw [if_neg hzero] at hrun
  cases hp : printItems env is ap m 0 with
  | error e =>
    rw [hp] at hrun
    have hstop : Trace.stop _ = some (.error e) := hrun
    simp only [secondPass, hstop]
    cases e <;> rfl
  | ok o =>
    rw [hp] at hrun
    obtain ⟨ht, hm, y, hy, hc⟩ := hrun
    refine ⟨ht, ?_, hm⟩
    simp only [secondPass, hy, hc]

/-- **printf_core** on the text of a list writes, counts and stores what `printItems` does, or returns -1 where that
fails. -/
theorem passes_items (env : Env F) (is : List Item) (ap : VaList F) (m : Mem) :
    match printItems env is ap m 0 with
    | .ok o => ∃ r, passes env (showItems is) ap m = some r ∧ r.text = o.text ∧ r.ret = some (o.cnt : Int) ∧ r.m = o.m
    | .error .undefined => ∃ r, passes env (showItems is) ap m = some r ∧ r.ret = none
    | .error _ => ∀ r, passes env (showItems is) ap m = some r → r.ret = some (-1) := by
  have hsecond := secondPass_items env is ap m
  rcases firstPass_items env is ap m with hf | ⟨hf, hfits⟩
  · have hpass : passes env (showItems is) ap m = some (secondPass env (showItems is) ap env.nlArg m) := by
      rw [passes, hf]
      rfl
    cases hp : printItems env is ap m 0 with
    | error e =>
      rw [hp] at hsecond
      have hfailed (he : e ≠ .undefined) : ∀ r, passes env (showItems is) ap m = some r → r.ret = some (-1) := by
        intro r hr
        rw [hpass] at hr
        cases hr
        rw [hsecond, if_neg he]
      cases e with
      | undefined => exact ⟨_, hpass, hsecond⟩
      | inval | overflow | ilseq | zero => exact hfailed (by decide)
    | ok o =>
      rw [hp] at hsecond
      exact ⟨_, hpass, hsecond⟩
  · have hpass : passes env (showItems is) ap m = none := by rw [passes, hf]; rfl
    have hno (h : ∀ e, printItems env is ap m 0 = .error e → e = .undefined) : False :=
      hfits ⟨ap, m, 0, Nat.le_refl 0, by decide, h⟩
    cases hp : printItems env is ap m 0 with
    | error e =>
      have hfailed : ∀ r, passes env (showItems is) ap m = some r → r.ret = some (-1) := by
        intro r hr
        rw [hpass] at hr
        cases hr
      cases e with
      | undefined => exact (hno fun e he => by rw [hp] at he; cases he; rfl).elim
      | inval | overflow | ilseq | zero => exact hfailed
    | ok o => exact (hno fun e he => by rw [hp] at he; cases he).elim

variable (env : Env F) (s : Block Byte) {n : Nat} (is : List Item) (ap : VaList F) (m : Mem)

section

variable {env s is ap m} {o : Output} {e : Stop} (h₁ : 1 ≤ n) (h₂ : (n : Int) ≤ intMax)
include h₁ h₂

theorem vsnprintf_ok (hp : printItems env is ap m 0 = .ok o) : vsnprintf env s n (showItems is) ap m =
    some (((o.cnt : Int), s.blit 0 (o.text.take (n - 1) ++ [0])), o.m) := by
  have h := passes_items env is ap m
  rw [hp] at h
  obtain ⟨r, hr, htext, hret, hm⟩ := h
  rw [vsnprintf_some h₁ h₂ hr, htext, hret, hm, Option.map_some]

theorem vsnprintf_undefined (hp : printItems env is ap m 0 = .error .undefined) :
    vsnprintf env s n (showItems is) ap m = none := by
  have h := passes_items env is ap m
  rw [hp] at h
  obtain ⟨r, hr, hret⟩ := h
  rw [vsnprintf_some h₁ h₂ hr, hret, Option.map_none]

theorem vsnprintf_failed (hp : printItems env is ap m 0 = .error e) (he : e ≠ .undefined) :
    ∃ s' m', vsnprintf env s n (showItems is) ap m = some ((-1, s'), m') := by
  have h := passes_items env is ap m
  rw [hp] at h
  have hfailed : ∀ r, passes env (showItems is) ap m = some r → r.ret = some (-1) := by
    cases e with
    | undefined => exact absurd rfl he
    | inval | overflow | ilseq | zero => exact h
  cases hr : passes env (showItems is) ap m with
  | none => exact ⟨_, _, vsnprintf_none h₁ h₂ hr⟩
  | some r =>
    rw [vsnprintf_some h₁ h₂ hr, hfailed r hr]
    exact ⟨_, _, rfl⟩

theorem vsnprintf_defined (h : printItems env is ap m 0 ≠ .error .undefined) :
    ∃ q, vsnprintf env s n (showItems is) ap m = some q := by
  cases hp : printItems env is ap m 0 with
  | ok o => exact ⟨_, vsnprintf_ok h₁ h₂ hp⟩
  | error e =>
    obtain ⟨s', m', hv⟩ := vsnprintf_failed (s := s) h₁ h₂ hp fun he => h (he ▸ hp)
    exact ⟨_, hv⟩

end

end

/-- `%+.2d` -/
def plusTwo : Directive where
  flags := text ['+']
  width := .lit 0
  prec := some (.lit 2)
  ps := .bare
  t := ch 'd'
  st := .int
  flags_ok := by
    intro c hc fl
    rw [List.mem_singleton.mp hc]
    rfl
  width_ok := Amount.zero_ok
  prec_ok := by
    rintro n ⟨⟩
    decide
  state := rfl

end Synthol.Stdio
