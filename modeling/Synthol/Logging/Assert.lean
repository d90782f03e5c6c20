import Synthol.Logging.Vlogf
import Synthol.Logging.Vnlogf
import Synthol.Stdio.Render

/-!
# When a hypercall fails

`vlogf_write` asserts that its hypercall has succeeded, and `__assert_fail` sends its message through `synthol_nlogf`
before it calls `abort`.

- the message is that of the format of `__assert_fail` (`assertFail_eq`), in one hypercall that has all of it when it
  is shorter than the buffer (`assertFail_short`);
- the hypercalls of a run of `out` are a function of its fragments (`sends`), as long as they succeed (`outs_tells`);
- after the first that fails there is only the message (`vlogf_calls`).
-/

namespace Synthol.Logging

open X86 Stdio

/-! ## The message -/

/-- A specification of one letter. -/
def letter (c : Char) (st : Ty) (h : states .bare (ch c) = some (.ty st)) : Directive where
  flags := []
  width := .lit 0
  prec := none
  ps := .bare
  t := ch c
  st := st
  flags_ok := by
    intro c hc
    cases hc
  width_ok := Amount.zero_ok
  prec_ok := by
    rintro n ⟨⟩
  state := h

theorem states_s : states .bare (ch 's') = some (.ty .ptr) := rfl

theorem states_d : states .bare (ch 'd') = some (.ty .int) := rfl

def assertItems : List Item :=
  (text ['A', 's', 's', 'e', 'r', 't', 'i', 'o', 'n', ' ', 'f', 'a', 'i', 'l', 'e', 'd', ':', ' ']).map Item.chr ++
    .dir (letter 's' .ptr states_s) :: ((text [' ', '(']).map Item.chr ++
    .dir (letter 's' .ptr states_s) :: ((text [':', ' ']).map Item.chr ++
    .dir (letter 's' .ptr states_s) :: ((text [':', ' ']).map Item.chr ++
    .dir (letter 'd' .int states_d) :: ((text [')', '\n']).map Item.chr ++ []))))

theorem showItems_assert : showItems assertItems = assertFormat := by decide +kernel

/-- The message has a result, whatever the arguments are. -/
theorem nlogf_assert {F : Type} (env : Env F) (ap : VaList F) (buf : Block Byte) (x : Console) (m : Mem) :
    ∃ q, nlogf env abortMessageBufferSize assertFormat ap buf x m = some q := by
  have hdir : ∀ d, Item.dir d ∈ assertItems → d = letter 's' .ptr states_s ∨ d = letter 'd' .int states_d := by
    intro d hd
    simpa [assertItems] using hd
  have hdefined : printItems env assertItems ap m 0 ≠ .error .undefined := by
    refine printItems_defined (fun d hd f ap r hr => ?_) ap m 0
    obtain ⟨hps, ht⟩ := Directive.conv_letter hr
    rw [Conv.float, Conv.letter, hps, ht]
    rcases hdir d hd with rfl | rfl <;> decide
  obtain ⟨q, hq⟩ := @vsnprintf_defined _ env buf abortMessageBufferSize _ ap m (by decide) (by decide) hdefined
  rw [showItems_assert] at hq
  exact ⟨_, by rw [nlogf, vnlogf, hq]; rfl⟩

def intText (i : Int) : Frag := (if i < 0 then text ['-'] else []) ++ natText i.natAbs

/-- What an assertion says. -/
def message (expr file func : List Byte) (line : Int) : List Byte :=
  text ['A', 's', 's', 'e', 'r', 't', 'i', 'o', 'n', ' ', 'f', 'a', 'i', 'l', 'e', 'd', ':', ' '] ++ (expr ++
    (text [' ', '('] ++ (file ++ (text [':', ' '] ++ (func ++ (text [':', ' '] ++ (intText line ++
      (text [')', '\n'] ++ []))))))))

/-- `s` is the string at `a`. -/
structure IsString (m : Mem) (a : Word) (s : List Byte) : Prop where
  addr : a ≠ 0
  text : (bytesAt m a).slice 0 s.length = s
  nul : bytesAt m a s.length = 0
  ne : ∀ c ∈ s, c ≠ 0

theorem IsString.cstring {m : Mem} {a : Word} {s : List Byte} (h : IsString m a s) {n : Nat} (hn : s.length < n) :
    cstring (bytesAt m a) n = s := by
  obtain ⟨k, rfl⟩ := Nat.exists_eq_add_of_lt hn
  rw [Stdio.cstring, Nat.add_assoc, Block.slice_add, h.text, Nat.add_comm k 1, Block.slice_add,
    List.takeWhile_append_of_pos fun c hc => by simpa using h.ne c hc]
  simp [Block.slice, h.nul]

section

variable {F : Type}

/-- `%s` prints a string. -/
theorem spec_string {m : Mem} {a : Word} {s : List Byte} (h : IsString m a s) (hlen : (s.length : Int) < intMax)
    (env : Env F) (f : LongDouble F) : Conv.spec ⟨{}, 0, -1, false, .bare, ch 's', ⟨a, f⟩⟩ env m = .ok s := by
  have hl : Conv.letter ⟨{}, 0, -1, false, .bare, ch 's', ⟨a, f⟩⟩ = ch 's' := rfl
  have hnul : ¬∀ k ≤ intMax.toNat, bytesAt m a k ≠ 0 := fun hall => hall s.length (by omega) h.nul
  simp +decide only [Conv.spec, hl, if_false, Conv.stringText, h.addr]
  rw [if_neg fun hp => hnul hp.2, if_pos (by decide), h.cstring (by omega)]
  simp [padded, Conv.flags, Flags.noZero]

theorem digitText_one (x : Nat) : digitText 10 dig 1 x = natText x := by
  by_cases h : x = 0
  · rw [h]
    decide
  · have hpos : 0 < (Nat.digits 10 x).length := by
      rw [List.length_pos_iff, ne_eq, Nat.digits_eq_nil_iff_eq_zero]
      exact h
    rw [digitText, natText, if_neg h, show 1 - (Nat.digits 10 x).length = 0 by omega]
    rfl

/-- `%d` prints a number. -/
theorem spec_int (x : Word) (env : Env F) (m : Mem) (f : LongDouble F) :
    Conv.spec ⟨{}, 0, -1, false, .bare, ch 'd', ⟨x, f⟩⟩ env m = .ok (intText x.toInt) := by
  have hl : Conv.letter ⟨{}, 0, -1, false, .bare, ch 'd', ⟨x, f⟩⟩ = ch 'd' := rfl
  have hgap (pre body : Frag) : (0 - (pre.length + body.length : Int)).toNat = 0 := by omega
  simp +decide only [Conv.spec, hl, if_false, if_true, Conv.number, Conv.least, false_and, digitText_one]
  rw [BitVec.msb_eq_toInt]
  simp only [padded, hgap]
  simp +decide [Conv.numberFlags, Conv.flags, intText, sign]

section

variable {env : Env F} {is : List Item} {as : List (Arg F)} {junk : Arg F} {m : Mem} {t : Frag}
  (h : Prints env is ⟨as, junk⟩ m t)
include h

theorem prints_string {a : Word} {s : List Byte} (hs : IsString m a s) (hlen : (s.length : Int) < intMax)
    (f : LongDouble F) : Prints env (.dir (letter 's' .ptr states_s) :: is) ⟨⟨a, f⟩ :: as, junk⟩ m (s ++ t) :=
  h.dir (c := ⟨{}, 0, -1, false, .bare, ch 's', ⟨a, f⟩⟩) rfl (fun hn => absurd hn (by decide : ch 's' ≠ ch 'n')) rfl rfl
    (spec_string hs hlen env f)

theorem prints_int (x : Word) (f : LongDouble F) :
    Prints env (.dir (letter 'd' .int states_d) :: is) ⟨⟨x, f⟩ :: as, junk⟩ m (intText (asInt x) ++ t) := by
  have hint : ((x.setWidth 32).signExtend 64).toInt = asInt x := BitVec.toInt_signExtend_of_le (by decide)
  have hspec := spec_int ((x.setWidth 32).signExtend 64) env m f
  rw [hint] at hspec
  exact h.dir (c := ⟨{}, 0, -1, false, .bare, ch 'd', popArg ⟨x, f⟩ .int⟩) rfl
    (fun hn => absurd hn (by decide : ch 'd' ≠ ch 'n')) rfl rfl hspec

end

/-- The strings of an assertion. -/
structure Site.Strings (e : Site) (m : Mem) (expr file func : List Byte) : Prop where
  expr : IsString m e.expr expr
  file : IsString m e.file file
  func : IsString m e.func func

section

variable {e : Site} {m : Mem} {expr file func : List Byte} (hs : e.Strings m expr file func) (env : Env F) (junk : Arg F)
include hs

theorem prints_assert (h : ((message expr file func (asInt e.line)).length : Int) ≤ intMax) :
    Prints env assertItems ⟨[⟨e.expr, junk.f⟩, ⟨e.file, junk.f⟩, ⟨e.func, junk.f⟩, ⟨e.line, junk.f⟩], junk⟩ m
      (message expr file func (asInt e.line)) := by
  have hlen : expr.length + file.length + func.length < (message expr file func (asInt e.line)).length := by
    simp only [message, List.length_append, text, List.length_map, List.length_cons, List.length_nil]
    omega
  have hline := prints_int ((Prints.nil env ⟨[], junk⟩ m).chars (text [')', '\n'])) e.line junk.f
  have hfunc := prints_string (hline.chars (text [':', ' '])) hs.func (by omega) junk.f
  have hfile := prints_string (hfunc.chars (text [':', ' '])) hs.file (by omega) junk.f
  have hexpr := prints_string (hfile.chars (text [' ', '('])) hs.expr (by omega) junk.f
  exact hexpr.chars _

variable (buf : Block Byte) (x : Console)

/-- **What `__assert_fail` sends**: one hypercall that counts the whole message and has what fits in the buffer of it. -/
theorem assertFail_eq (h : ((message expr file func (asInt e.line)).length : Int) ≤ intMax) :
    assertFail env e junk buf x m = { x with calls := x.calls ++ [⟨(message expr file func (asInt e.line)).length,
      (buf.blit 0 ((message expr file func (asInt e.line)).take 4095 ++ [0])).slice 0
        (message expr file func (asInt e.line)).length⟩] } := by
  have hv := (prints_assert hs env junk h).vsnprintf h buf (n := abortMessageBufferSize) (by decide) (by decide)
  rw [showItems_assert] at hv
  have hargs : e.args junk = ⟨[⟨e.expr, junk.f⟩, ⟨e.file, junk.f⟩, ⟨e.func, junk.f⟩, ⟨e.line, junk.f⟩], junk⟩ := rfl
  simp only [assertFail, nlogf, vnlogf, hargs, hv, Option.map_some, Option.getD_some, consoleIo, Int.toNat_natCast]
  rfl

theorem assertFail_short (h : (message expr file func (asInt e.line)).length ≤ 4095) :
    assertFail env e junk buf x m = { x with calls := x.calls ++
      [⟨(message expr file func (asInt e.line)).length, message expr file func (asInt e.line)⟩] } := by
  have hmax : ((message expr file func (asInt e.line)).length : Int) ≤ intMax := by
    simp only [intMax]
    omega
  rw [assertFail_eq hs env junk buf x hmax, List.take_of_length_le h, slice_text]

end

end

/-! ## The hypercalls of a run -/

/-- The hypercall of a call of `vlogf_write`. -/
def callOf (s : Frag) : Call := ⟨toInt s.length, Block.slice (fun k => s.getD k 0) 0 (toInt s.length).toNat⟩

/-- The hypercalls for a list of fragments, where the buffer holds `held`. -/
def sends : Option Byte → List Frag → List Call
  | _, [] => []
  | held, s :: fs => (if (hand held s).2 = [] then [] else [callOf (hand held s).2]) ++ sends (hand held s).1 fs

section

variable {F : Type} (e : Failing F)

/-- Hypercalls one after the other, up to the first that fails. -/
def tell : List Call → Console → Except Console Console
  | [], x => .ok x
  | c :: cs, x =>
    if x.answer x.calls.length = 0 then tell cs { x with calls := x.calls ++ [c] }
    else .error (assertFail e.env e.site e.junk e.buf { x with calls := x.calls ++ [c] } e.m)

theorem tell_append : ∀ (cs ds : List Call) (x : Console), tell e (cs ++ ds) x = tell e cs x >>= tell e ds
  | [], _, _ => rfl
  | c :: cs, ds, x => by
    rw [List.cons_append, tell, tell]
    split
    · exact tell_append cs ds _
    · rfl

theorem tell_ok : ∀ {cs : List Call} {x : Console}, (∀ k < cs.length, x.answer (x.calls.length + k) = 0) →
    tell e cs x = .ok { x with calls := x.calls ++ cs }
  | [], x, _ => by simp [tell]
  | c :: cs, x, h => by
    rw [tell, if_pos (by exact h 0 (Nat.succ_pos _)), tell_ok fun k hk => ?_]
    · simp
    · have hk' := h (k + 1) (Nat.succ_lt_succ hk)
      rw [List.length_append, List.length_singleton, Nat.add_assoc, Nat.add_comm 1]
      exact hk'

/-- The first failure. -/
theorem tell_error : ∀ {cs : List Call} {x : Console} {k : Nat}, k < cs.length →
    (∀ j < k, x.answer (x.calls.length + j) = 0) → x.answer (x.calls.length + k) ≠ 0 →
    tell e cs x = .error (assertFail e.env e.site e.junk e.buf { x with calls := x.calls ++ cs.take (k + 1) } e.m)
  | [], _, _, hk, _, _ => absurd hk (Nat.not_lt_zero _)
  | c :: cs, x, 0, _, _, hne => by
    rw [tell, if_neg (by exact hne)]
    rfl
  | c :: cs, x, k + 1, hk, h0, hne => by
    have hlen : ({ x with calls := x.calls ++ [c] } : Console).calls.length = x.calls.length + 1 := by simp
    rw [tell, if_pos (by exact h0 0 (Nat.succ_pos _)), tell_error (k := k) (Nat.lt_of_succ_lt_succ hk) ?_ ?_]
    · simp
    · intro j hj
      have hj' := h0 (j + 1) (Nat.succ_lt_succ hj)
      rw [hlen, Nat.add_assoc, Nat.add_comm 1]
      exact hj'
    · rw [hlen, Nat.add_assoc, Nat.add_comm 1]
      exact hne

/-- The stream after hypercalls: it holds `held`, unless one has failed. -/
def Tells (held : Option Byte) (q : Except Console Console) (r : Except Console (FILE Console)) : Prop :=
  match q with
  | .ok x => ∃ f, r = .ok f ∧ Follows f held ∧ f.cookie = x
  | .error x => r = .error x

variable {e} {f : FILE Console} {held : Option Byte}

theorem vlogfWrite_tell (s : Frag) :
    vlogfWrite e f s = (tell e [callOf s] f.cookie).map fun x => ({ f with cookie := x }, s.length) := by
  by_cases h0 : f.cookie.answer f.cookie.calls.length = 0
  · simp only [vlogfWrite, consoleIo, tell, callOf, h0, if_true]
    rfl
  · simp only [vlogfWrite, consoleIo, tell, callOf, h0, if_false]
    rfl

/-- A fragment that is sent at once. -/
theorem direct_tells (h : Holding f held) {s : Frag} (hlong : s.length > f.space) :
    Tells held (tell e [callOf s] f.cookie) ((fwriteOpen (vlogfWrite e) s f).map Prod.fst) := by
  rw [fwriteOpen, if_pos hlong, vlogfWrite_tell]
  cases tell e [callOf s] f.cookie with
  | error x => rfl
  | ok x => exact ⟨_, rfl, .inr (h.cookie x), rfl⟩

/-- A newline when the buffer is empty. -/
theorem newline_tells (h : Holding f none) :
    Tells none (tell e [callOf [ch '\n']] f.cookie) ((fwriteOpen (vlogfWrite e) [ch '\n'] f).map Prod.fst) := by
  have hspace : ¬[ch '\n'].length > f.space := by
    rw [h.space]
    simp
  have hnewline : f.lbf ≥ 0 := by
    rw [h.lbf]
    decide
  have hline : lineEnd [ch '\n'] 1 = 1 := rfl
  rw [fwriteOpen, if_neg hspace]
  simp only [hnewline, if_true, List.length_singleton, hline, Nat.succ_ne_zero, if_false, List.take_succ_cons,
    List.take_zero, List.drop_succ_cons, List.drop_zero, vlogfWrite_tell]
  cases tell e [callOf [ch '\n']] f.cookie with
  | error x => rfl
  | ok x => exact ⟨FILE.store { f with cookie := x } [], rfl, .inr (h.cookie x).storeNil, rfl⟩

/-- One fragment on an open stream. -/
theorem fwriteOpen_tells (h : Holding f held) (s : Frag) :
    Tells (hand held s).1 (tell e (sends held [s]) f.cookie) ((fwriteOpen (vlogfWrite e) s f).map Prod.fst) := by
  have hspace := h.space
  cases s with
  | nil =>
    have hh : hand held [] = (held, []) := by cases held <;> rfl
    rw [sends, hh]
    exact ⟨f.store [], by simp [fwriteOpen, lineEnd, Except.map], .inr h.storeNil, rfl⟩
  | cons b s =>
    cases held with
    | some a => exact direct_tells h (s := b :: s) (by rw [hspace]; simp)
    | none =>
      cases s with
      | cons c s => exact direct_tells h (s := b :: c :: s) (by rw [hspace]; simp)
      | nil =>
        by_cases hb : b = ch '\n'
        · rw [hb]
          exact newline_tells h
        · have hh : hand none [b] = (some b, []) := by rw [hand, if_neg hb]
          rw [sends, hh]
          refine ⟨f.store [b], ?_, .inr (h.storeByte b), rfl⟩
          simp [fwriteOpen, hspace, lineEnd, hb, Except.map]

theorem out_tells (h : Follows f held) (s : Frag) :
    Tells (hand held s).1 (tell e (sends held [s]) f.cookie) (out (vlogfWrite e) f s) := by
  rw [out, if_pos (by simp [h.flags])]
  rcases h with ⟨hf, rfl⟩ | hh
  · obtain ⟨h₁, h₂, h₃⟩ := hf.towrite
    rw [fwritex, if_pos hf.wend, if_neg (by simp [h₁]), ← h₃]
    exact fwriteOpen_tells h₂ s
  · rw [fwritex, if_neg (by simp [hh.wend])]
    exact fwriteOpen_tells hh s

/-- **A run of `out`**, whatever the answers. -/
theorem outs_tells : ∀ (fs : List Frag) {f : FILE Console} {held : Option Byte}, Follows f held →
    Tells (handAll held fs).1 (tell e (sends held fs) f.cookie) (outs (vlogfWrite e) f fs)
  | [], f, held, h => ⟨f, rfl, h, rfl⟩
  | s :: fs, f, held, h => by
    have hsends : sends held (s :: fs) = sends held [s] ++ sends (hand held s).1 fs := by
      simp only [sends, List.append_nil]
    have hout := out_tells (e := e) h s
    rw [hsends, tell_append, outs]
    cases hq : tell e (sends held [s]) f.cookie with
    | error x =>
      rw [hq] at hout
      rw [show out (vlogfWrite e) f s = .error x from hout]
      rfl
    | ok x =>
      rw [hq] at hout
      obtain ⟨f₁, hf₁, h₁, rfl⟩ := hout
      rw [hf₁]
      exact outs_tells fs h₁

/-! ## synthol_vlogf, whatever the answers -/

variable {fmt : List Byte} {ap : VaList F} (buf : Block Byte) (x : Console)

theorem vlogf_tells {r : Printed F} (hp : passes e.env fmt ap e.m = some r) :
    match tell e (sends none r.frags) x with
    | .ok x' => ∃ f, vlogf e fmt ap buf x = r.ret.map (fun k => .ok ((f, k), r.m)) ∧ f.cookie = x'
    | .error x' => vlogf e fmt ap buf x = some (.error x') := by
  have hfol : Follows (vlogfFile buf x) none := vlogfFile_follows
  have houts := outs_tells (e := e) r.frags hfol
  have hcookie : (vlogfFile buf x).cookie = x := rfl
  rw [hcookie] at houts
  cases hq : tell e (sends none r.frags) x with
  | error x' =>
    rw [hq] at houts
    have hout : outs (vlogfWrite e) (vlogfFile buf x) r.frags = .error x' := houts
    simp only [vlogf, vfprintf, hp, vlogfFile_lend, hout]
  | ok x' =>
    rw [hq] at houts
    obtain ⟨f, hf, hfol, hx⟩ := houts
    have hflags : ¬f.flags &&& fErr ≠ 0 := by simp [hfol.flags]
    refine ⟨f, ?_, hx⟩
    rw [vlogf_some hp hf]
    simp only [if_neg hflags]

end

/-- The strings of a program at 0x1000. -/
def wordsMem : Mem := fun a =>
  (text [Char.ofNat 92, '(', '@', 'o', '@', ')', '/'] ++ [0] ++ text ['!', 'e', 'r', 'r'] ++ [0] ++
    text ['l', 'o', 'g', 'g', 'i', 'n', 'g', '.', 'c'] ++ [0] ++
    text ['v', 'l', 'o', 'g', 'f', '_', 'w', 'r', 'i', 't', 'e'] ++ [0]).getD (a - 0x1000).toNat 0

/-- The assertion of `vlogf_write`, in a program that has these strings. -/
def wordsRun : Failing Finite := ⟨smallEnv, ⟨0x1008, 0x100d, 0x1017, 46⟩, word 0, fun _ => 0, wordsMem⟩

theorem wordsRun_strings : wordsRun.site.Strings wordsRun.m (text ['!', 'e', 'r', 'r'])
    (text ['l', 'o', 'g', 'g', 'i', 'n', 'g', '.', 'c'])
    (text ['v', 'l', 'o', 'g', 'f', '_', 'w', 'r', 'i', 't', 'e']) := by
  refine ⟨⟨?_, ?_, ?_, ?_⟩, ⟨?_, ?_, ?_, ?_⟩, ⟨?_, ?_, ?_, ?_⟩⟩ <;> decide +kernel

end Synthol.Logging
