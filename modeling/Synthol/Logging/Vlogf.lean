import Synthol.Logging.Console

/-!
# What synthol_vlogf sends

The stream of `synthol_vlogf` has a buffer of one byte, and `vlogf_write` is not flushing: it sends its argument and
leaves the buffer as it is. So the first fragment that is a single byte, not a newline, goes into the buffer and stays
there, and everything after it goes directly (`hand`).

- the stream does what `hand` says (`out_follows`, `outs_follows`);
- nothing is held back exactly when there is no such fragment (`handAll_complete`);
- what is sent is the text, as long as what is returned, exactly when moreover no conversion counts more than it writes
  (`vlogf_lossless_iff`).
-/

namespace Synthol.Logging

open X86 Stdio

/-! ## A byte held back -/

/-- What becomes of the byte in the buffer, and what is sent, when a fragment is handed over. -/
def hand : Option Byte → Frag → Option Byte × Frag
  | none, [b] => if b = ch '\n' then (none, [b]) else (some b, [])
  | held, s => (held, s)

def handAll : Option Byte → List Frag → Option Byte × List Byte
  | held, [] => (held, [])
  | held, s :: fs => ((handAll (hand held s).1 fs).1, (hand held s).2 ++ (handAll (hand held s).1 fs).2)

/-- A single byte that is not a newline. -/
def Lone (s : Frag) : Prop := ∃ b, s = [b] ∧ b ≠ ch '\n'

instance : DecidablePred Lone
  | [] => .isFalse fun ⟨_, h, _⟩ => by cases h
  | [b] => decidable_of_iff (b ≠ ch '\n') ⟨fun h => ⟨b, rfl, h⟩, fun ⟨_, h, hb⟩ => by cases h; exact hb⟩
  | _ :: _ :: _ => .isFalse fun ⟨_, h, _⟩ => by cases h

theorem hand_some (b : Byte) (s : Frag) : hand (some b) s = (some b, s) := rfl

theorem hand_of_not_lone {s : Frag} (h : ¬Lone s) : hand none s = (none, s) := by
  unfold hand
  split
  · rename_i b _
    rw [if_pos]
    by_contra hb
    exact h ⟨b, rfl, hb⟩
  · rfl

theorem handAll_some (b : Byte) (fs : List Frag) : handAll (some b) fs = (some b, fs.flatten) := by
  induction fs with
  | nil => rfl
  | cons s fs ih => rw [handAll, hand_some, ih, List.flatten_cons]

/-- Everything is sent. -/
theorem handAll_none {fs : List Frag} (h : ∀ s ∈ fs, ¬Lone s) : handAll none fs = (none, fs.flatten) := by
  induction fs with
  | nil => rfl
  | cons s fs ih =>
    rw [handAll, hand_of_not_lone (h s List.mem_cons_self), ih fun s' hs' => h s' (List.mem_cons_of_mem _ hs'),
      List.flatten_cons]

/-- The first lone byte is missing. -/
theorem handAll_lone {fs : List Frag} (h : ∃ s ∈ fs, Lone s) :
    (handAll none fs).2.length + 1 = fs.flatten.length := by
  induction fs with
  | nil =>
    obtain ⟨s, hs, -⟩ := h
    cases hs
  | cons s fs ih =>
    by_cases hs : Lone s
    · obtain ⟨b, rfl, hb⟩ := hs
      have hb' : hand none [b] = (some b, []) := by
        rw [hand, if_neg hb]
      rw [handAll, hb', handAll_some, List.nil_append, List.flatten_cons, List.length_append]
      exact Nat.add_comm _ _
    · have hrest : ∃ s' ∈ fs, Lone s' := by
        obtain ⟨s', hs', hl⟩ := h
        rcases List.mem_cons.mp hs' with rfl | hs'
        · exact absurd hl hs
        · exact ⟨s', hs', hl⟩
      have hlen := ih hrest
      rw [handAll, hand_of_not_lone hs, List.flatten_cons, List.length_append, List.length_append]
      simp only
      omega

/-- **Nothing is held back** exactly when no fragment is a lone byte. -/
theorem handAll_complete (fs : List Frag) : (handAll none fs).2 = fs.flatten ↔ ∀ s ∈ fs, ¬Lone s := by
  constructor
  · intro h s hs hl
    have hlen := handAll_lone ⟨s, hs, hl⟩
    rw [h] at hlen
    omega
  · intro h
    rw [handAll_none h]

/-! ## The stream -/

/-- From `x` to `x'` the hypercalls have sent `t`. -/
structure Said (x x' : Console) (t : List Byte) : Prop where
  answer : x'.answer = x.answer
  calls : ∃ cs : List Call, x'.calls = x.calls ++ cs ∧ cs.flatMap Call.text = t

theorem Said.refl (x : Console) : Said x x [] := ⟨rfl, [], by simp, rfl⟩

theorem Said.trans {x y z : Console} {t t' : List Byte} (h : Said x y t) (h' : Said y z t') : Said x z (t ++ t') := by
  obtain ⟨cs, hcs, rfl⟩ := h.calls
  obtain ⟨cs', hcs', rfl⟩ := h'.calls
  refine ⟨h'.answer.trans h.answer, cs ++ cs', ?_, List.flatMap_append⟩
  rw [hcs', hcs, List.append_assoc]

theorem Said.since {x x' : Console} {t : List Byte} (h : Said x x' t) : x'.since x.calls.length = t := by
  obtain ⟨cs, hcs, rfl⟩ := h.calls
  rw [Console.since, hcs, List.drop_left]

/-- The stream is open, and the buffer holds what `held` says. -/
structure Holding (f : FILE Console) (held : Option Byte) : Prop where
  flags : f.flags = 0
  lbf : f.lbf = 10
  wbase : f.wbase = some 0
  wpos : f.wpos = some held.toList.length
  wend : f.wend = some 1
  pending : f.pending = held.toList

section

variable {F : Type} {e : Failing F} {f : FILE Console} {held : Option Byte}

theorem Holding.space (h : Holding f held) : f.space = 1 - held.toList.length := by
  rw [FILE.space, h.wend, h.wpos]
  rfl

/-- A call of `vlogf_write` sends its argument and leaves the stream as it is. -/
theorem vlogfWrite_eq {s : Frag} (h0 : ∀ k, f.cookie.answer k = 0) (hs : (s.length : Int) ≤ intMax) :
    ∃ x, vlogfWrite e f s = .ok ({ f with cookie := x }, s.length) ∧ Said f.cookie x s := by
  have hcount : (toInt s.length).toNat = s.length := by
    have hlt : s.length < 2 ^ 31 := by
      simp only [intMax] at hs
      omega
    have hnat : (BitVec.ofNat 32 s.length).toNat = s.length := by
      rw [BitVec.toNat_ofNat, Nat.mod_eq_of_lt (by omega)]
    rw [toInt, BitVec.toInt_eq_toNat_of_lt (by omega), Int.toNat_natCast, hnat]
  have htext : Block.slice (fun k => s.getD k 0) 0 s.length = s := by
    have hblit : (fun k => s.getD k 0) = Block.blit (fun _ => (0 : Byte)) 0 s := by
      funext k
      simp only [Block.blit, Nat.zero_le, if_true, Nat.sub_zero]
    rw [hblit, Block.slice_blit]
  refine ⟨{ f.cookie with calls := f.cookie.calls ++ [⟨toInt s.length, s⟩] }, ?_, rfl, _, rfl, ?_⟩
  · simp only [vlogfWrite, consoleIo, h0, if_true, hcount, htext]
  · simp

theorem Holding.cookie (h : Holding f held) (x : Console) : Holding { f with cookie := x } held :=
  ⟨h.flags, h.lbf, h.wbase, h.wpos, h.wend, h.pending⟩

theorem Holding.storeNil (h : Holding f held) : Holding (f.store []) held := by
  refine ⟨h.flags, h.lbf, h.wbase, ?_, h.wend, ?_⟩
  · rw [FILE.store_wpos, h.wpos]
    rfl
  · rw [FILE.pending_store, h.pending, List.append_nil]
    rw [h.wbase]
    exact Nat.zero_le _

theorem Holding.storeByte (h : Holding f none) (b : Byte) : Holding (f.store [b]) (some b) := by
  refine ⟨h.flags, h.lbf, h.wbase, ?_, h.wend, ?_⟩
  · rw [FILE.store_wpos, h.wpos]
    rfl
  · rw [FILE.pending_store, h.pending]
    · rfl
    · rw [h.wbase]
      exact Nat.zero_le _

/-- A single byte when the buffer is empty. -/
theorem single_follows (h0 : ∀ k, f.cookie.answer k = 0) (h : Holding f none) (b : Byte) :
    ∃ f' n, fwriteOpen (vlogfWrite e) [b] f = .ok (f', n) ∧ Holding f' (hand none [b]).1 ∧
      Said f.cookie f'.cookie (hand none [b]).2 := by
  have hspace : ¬[b].length > f.space := by
    rw [h.space]
    simp
  have hnewline : f.lbf ≥ 0 := by
    rw [h.lbf]
    decide
  by_cases hb : b = ch '\n'
  · have hh : hand none [b] = (none, [b]) := by rw [hand, if_pos hb]
    have hline : lineEnd [b] 1 = 1 := by simp [lineEnd, hb]
    obtain ⟨x, hx, hsaid⟩ := vlogfWrite_eq (e := e) (s := [b]) h0 (by simp [intMax])
    rw [hh]
    refine ⟨FILE.store { f with cookie := x } [], 1, ?_, (h.cookie x).storeNil, hsaid⟩
    rw [fwriteOpen, if_neg hspace]
    simp only [hnewline, if_true, List.length_singleton, hline, Nat.succ_ne_zero, if_false, List.take_succ_cons,
      List.take_zero, List.drop_succ_cons, List.drop_zero, hx]
    rfl
  · have hh : hand none [b] = (some b, []) := by rw [hand, if_neg hb]
    rw [hh]
    refine ⟨f.store [b], 1, ?_, h.storeByte b, Said.refl _⟩
    rw [fwriteOpen, if_neg hspace]
    simp [hnewline, lineEnd, hb]

/-- One fragment on an open stream. -/
theorem fwriteOpen_follows (h0 : ∀ k, f.cookie.answer k = 0) (h : Holding f held) {s : Frag}
    (hs : (s.length : Int) ≤ intMax) : ∃ f' n, fwriteOpen (vlogfWrite e) s f = .ok (f', n) ∧
      Holding f' (hand held s).1 ∧ Said f.cookie f'.cookie (hand held s).2 := by
  obtain ⟨x, hx, hsaid⟩ := vlogfWrite_eq (e := e) h0 hs
  have direct (hlong : s.length > f.space) (hh : hand held s = (held, s)) :
      ∃ f' n, fwriteOpen (vlogfWrite e) s f = .ok (f', n) ∧ Holding f' (hand held s).1 ∧
        Said f.cookie f'.cookie (hand held s).2 := by
    rw [fwriteOpen, if_pos hlong, hx, hh]
    exact ⟨_, _, rfl, h.cookie x, hsaid⟩
  rw [h.space] at direct
  have empty (hs : s = []) : ∃ f' n, fwriteOpen (vlogfWrite e) s f = .ok (f', n) ∧ Holding f' (hand held s).1 ∧
      Said f.cookie f'.cookie (hand held s).2 := by
    subst hs
    have hh : hand held [] = (held, []) := by cases held <;> rfl
    rw [hh]
    exact ⟨f.store [], 0, by simp [fwriteOpen, lineEnd], h.storeNil, Said.refl _⟩
  cases s with
  | nil => exact empty rfl
  | cons b s =>
    cases held with
    | some a => exact direct (by simp) rfl
    | none =>
      cases s with
      | cons c s => exact direct (by simp) rfl
      | nil => exact single_follows h0 h b

/-- The stream before the first call of `out`. -/
structure Fresh (f : FILE Console) : Prop where
  flags : f.flags = 0
  lbf : f.lbf = 10
  size : f.bufSize = 1
  wbase : f.wbase = none
  wpos : f.wpos = none
  wend : f.wend = none

/-- The stream at any time. -/
def Follows (f : FILE Console) (held : Option Byte) : Prop := (Fresh f ∧ held = none) ∨ Holding f held

/-- `__towrite` opens the stream. -/
theorem Fresh.towrite (h : Fresh f) :
    (towrite f).1 = 0 ∧ Holding (towrite f).2 none ∧ (towrite f).2.cookie = f.cookie := by
  have heq : Stdio.towrite f =
      (0, { f with mode := f.mode ||| (f.mode - 1), wpos := some 0, wbase := some 0, wend := some 1 }) := by
    simp [Stdio.towrite, h.flags, h.size]
  rw [heq]
  exact ⟨rfl, ⟨h.flags, h.lbf, rfl, rfl, rfl, rfl⟩, rfl⟩

theorem Follows.pending (h : Follows f held) : f.pending = held.toList := by
  rcases h with ⟨hf, rfl⟩ | hh
  · rw [FILE.pending, hf.wbase, hf.wpos]
    rfl
  · exact hh.pending

theorem Follows.flags (h : Follows f held) : f.flags = 0 := by
  rcases h with ⟨hf, -⟩ | hh
  · exact hf.flags
  · exact hh.flags

/-- **One call of `out`.** -/
theorem out_follows (h0 : ∀ k, f.cookie.answer k = 0) (h : Follows f held) {s : Frag}
    (hs : (s.length : Int) ≤ intMax) : ∃ f', out (vlogfWrite e) f s = .ok f' ∧ Follows f' (hand held s).1 ∧
      Said f.cookie f'.cookie (hand held s).2 := by
  rw [out, if_pos (by simp [h.flags])]
  rcases h with ⟨hf, rfl⟩ | hh
  · obtain ⟨h₁, h₂, h₃⟩ := hf.towrite
    obtain ⟨f', n, hw, hh', hsaid⟩ := fwriteOpen_follows (e := e) (by rwa [h₃]) h₂ hs
    rw [h₃] at hsaid
    refine ⟨f', ?_, .inr hh', hsaid⟩
    rw [fwritex, if_pos hf.wend, if_neg (by simp [h₁]), hw]
    rfl
  · obtain ⟨f', n, hw, hh', hsaid⟩ := fwriteOpen_follows (e := e) h0 hh hs
    refine ⟨f', ?_, .inr hh', hsaid⟩
    rw [fwritex, if_neg (by simp [hh.wend]), hw]
    rfl

end

variable {F : Type} {e : Failing F}

/-- **A run of `out`.** -/
theorem outs_follows : ∀ (fs : List Frag) {f : FILE Console} {held : Option Byte}, (∀ k, f.cookie.answer k = 0) →
    Follows f held → (∀ s ∈ fs, (s.length : Int) ≤ intMax) →
    ∃ f', outs (vlogfWrite e) f fs = .ok f' ∧ Follows f' (handAll held fs).1 ∧
      Said f.cookie f'.cookie (handAll held fs).2
  | [], f, held, _, h, _ => ⟨f, rfl, h, Said.refl _⟩
  | s :: fs, f, held, h0, h, hs => by
    obtain ⟨f₁, hf₁, h₁, hsaid₁⟩ := out_follows (e := e) h0 h (hs s List.mem_cons_self)
    have h0' : ∀ k, f₁.cookie.answer k = 0 := by
      rw [hsaid₁.answer]
      exact h0
    obtain ⟨f₂, hf₂, h₂, hsaid₂⟩ := outs_follows fs h0' h₁ fun s' hs' => hs s' (List.mem_cons_of_mem _ hs')
    refine ⟨f₂, ?_, h₂, hsaid₁.trans hsaid₂⟩
    rw [outs, hf₁]
    exact hf₂

/-! ## synthol_vlogf -/

theorem vlogfWrite_returning : Returning (vlogfWrite e) fun x => ∀ k, x.answer k = 0 := by
  intro f s h0
  refine ⟨{ f with cookie := (consoleIo (toInt s.length) (fun k => s.getD k 0) f.cookie).2 }, s.length, ?_, h0⟩
  simp only [vlogfWrite, consoleIo, h0, if_true]

/-- Nothing of the text is lost: it has been sent in order, it is as long as what is returned, and nothing is left in
the buffer of the stream. -/
structure Lossless (x : Console) (f : FILE Console) (r : Int) (frags : List Frag) : Prop where
  sent : f.cookie.since x.calls.length = frags.flatten
  length : (frags.flatten.length : Int) = r
  empty : f.pending = []

section

variable {fmt : List Byte} {ap : VaList F} {buf : Block Byte} {x : Console}

theorem vlogfFile_lend (b : Block Byte) : (vlogfFile buf x).lend b = vlogfFile buf x := by
  simp [FILE.lend, vlogfFile]

theorem vlogfFile_follows : Follows (vlogfFile buf x) none := .inl ⟨⟨rfl, rfl, rfl, rfl, rfl, rfl⟩, rfl⟩

/-- What the passes return and what the stream becomes. -/
theorem vlogf_some {r : Printed F} {f : FILE Console} (hp : passes e.env fmt ap e.m = some r)
    (hf : outs (vlogfWrite e) (vlogfFile buf x) r.frags = .ok f) :
    vlogf e fmt ap buf x = r.ret.map fun k => .ok ((f, if f.flags &&& fErr ≠ 0 then -1 else k), r.m) := by
  have hsize : (vlogfFile buf x).bufSize ≠ 0 := Nat.one_ne_zero
  have hflags : (vlogfFile buf x).flags &&& fErr = 0 := BitVec.zero_and
  have hor : f.flags ||| 0 = f.flags := BitVec.or_zero
  simp only [vlogf, vfprintf, hp, vlogfFile_lend, hf, restore, if_neg hsize, hflags, hor, bind, Except.bind, pure,
    Except.pure]

theorem vlogf_none (hp : passes e.env fmt ap e.m = none) :
    vlogf e fmt ap buf x = some (.ok ((vlogfFile buf x, -1), e.m)) := by
  simp only [vlogf, vfprintf, hp]

variable (buf) in
/-- What is sent and kept of a text that is counted. -/
theorem vlogf_counted {r : Printed F} {k : Int} (h0 : ∀ k, x.answer k = 0) (hp : passes e.env fmt ap e.m = some r)
    (hr : r.ret = some k) (hk : 0 ≤ k) : ∃ f, vlogf e fmt ap buf x = some (.ok ((f, k), r.m)) ∧
      f.cookie.since x.calls.length = (handAll none r.frags).2 ∧ f.pending = (handAll none r.frags).1.toList := by
  obtain ⟨hle, -, hmax⟩ := passes_counts hp hr hk
  have hs : ∀ s ∈ r.frags, (s.length : Int) ≤ intMax := by
    intro s hs
    have h := (List.sublist_flatten_of_mem hs).length_le
    unfold Printed.text at hle
    omega
  obtain ⟨f, hf, hfol, hsaid⟩ := outs_follows (e := e) r.frags (f := vlogfFile buf x) h0 vlogfFile_follows hs
  refine ⟨f, ?_, hsaid.since, hfol.pending⟩
  rw [vlogf_some hp hf, hr, Option.map_some, if_neg (by simp [hfol.flags])]

variable (buf) in
/-- A run in which the hypercalls succeed ends with a length where the format is accepted, and with -1, or nothing that is
known, where it is not. -/
theorem vlogf_ends (h0 : ∀ k, x.answer k = 0) :
    (∃ r k f, passes e.env fmt ap e.m = some r ∧ r.ret = some k ∧ 0 ≤ k ∧
        vlogf e fmt ap buf x = some (.ok ((f, k), r.m))) ∨
      ¬Accepts e.env fmt ap e.m ∧ ∀ q, vlogf e fmt ap buf x = some q → ∃ f m, q = .ok ((f, -1), m) := by
  cases hp : passes e.env fmt ap e.m with
  | none =>
    refine .inr ⟨not_accepts hp, fun q hq => ?_⟩
    cases (vlogf_none hp).symm.trans hq
    exact ⟨_, _, rfl⟩
  | some r =>
    obtain ⟨f, hf, -⟩ := vlogfWrite_returning.outs r.frags (f := vlogfFile buf x) h0
    have hv := vlogf_some hp hf
    rw [accepts_iff hp]
    cases hret : r.ret with
    | none =>
      rw [hret, Option.map_none] at hv
      refine .inr ⟨?_, fun q hq => ?_⟩
      · rintro ⟨k, hk, -⟩
        cases hk
      · cases hv.symm.trans hq
    | some k =>
      by_cases hk : 0 ≤ k
      · obtain ⟨f, hf, -⟩ := vlogf_counted buf h0 hp hret hk
        exact .inl ⟨r, k, f, rfl, hret, hk, hf⟩
      · obtain rfl := secondPass_failed hp hret (Int.not_le.mp hk)
        rw [hret, Option.map_some, ite_self] at hv
        refine .inr ⟨?_, fun q hq => ?_⟩
        · rintro ⟨k, hk', h⟩
          cases hk'
          exact hk h
        · cases hv.symm.trans hq
          exact ⟨_, _, rfl⟩

end

section

variable (junk : Limbs.Cells) (utf8 : Bool) (strerror : Word) (nlArg : Nat → Arg Finite) (internalBuf : Block Byte)
  (site : Site) (arg : Arg Finite) (stack : Block Byte) (m : Mem) (fmt : List Byte) (ap : VaList Finite)
  (buf : Block Byte) {x : Console}

/-- **synthol_vlogf loses nothing** exactly when no fragment is a lone byte and no conversion counts more than it
writes. -/
theorem vlogf_lossless_iff (h0 : ∀ k, x.answer k = 0) :
    let e : Failing Finite := ⟨realEnv junk utf8 strerror nlArg internalBuf, site, arg, stack, m⟩
    (∀ x', vlogf e fmt ap buf x ≠ some (.error x')) ∧
      ((∃ f r m', vlogf e fmt ap buf x = some (.ok ((f, r), m')) ∧ 0 ≤ r) ↔ Accepts e.env fmt ap m) ∧
      ∀ f r m', vlogf e fmt ap buf x = some (.ok ((f, r), m')) → 0 ≤ r →
        (Lossless x f r (fragments e.env fmt ap m) ↔
          (∀ s ∈ fragments e.env fmt ap m, ¬Lone s) ∧ ∀ q ∈ pieces e.env fmt ap m, ¬q.Short) := by
  intro e
  have hm : e.m = m := rfl
  clear_value e
  subst hm
  rcases @vlogf_ends _ e fmt ap buf x h0 with ⟨r, k, f, hp, hret, hk, hf⟩ | ⟨hacc, hneg⟩
  · refine ⟨fun x' h => ?_, iff_of_true ⟨f, k, r.m, hf, hk⟩ ((accepts_iff hp).mpr ⟨k, hret, hk⟩), ?_⟩
    · cases hf.symm.trans h
    intro f' k' m' h _
    obtain ⟨f₁, hf₁, hsent, hpend⟩ := vlogf_counted buf h0 hp hret hk
    obtain ⟨-, hiff, -⟩ := passes_counts hp hret hk
    cases hf₁.symm.trans h
    rw [pieces_eq hp, fragments_eq hp]
    constructor
    · intro h
      exact ⟨(handAll_complete _).mp (hsent.symm.trans h.sent), hiff.mp h.length⟩
    · rintro ⟨hlone, hshort⟩
      refine ⟨hsent.trans ((handAll_complete _).mpr hlone), hiff.mpr hshort, ?_⟩
      rw [hpend, handAll_none hlone]
      rfl
  · have hret : ∀ f r m', vlogf e fmt ap buf x = some (.ok ((f, r), m')) → ¬0 ≤ r := by
      intro f r m' h hr
      obtain ⟨f', m'', hq⟩ := hneg _ h
      cases hq
      exact absurd hr (by decide)
    refine ⟨fun x' h => ?_, iff_of_false (fun ⟨f, r, m', h, hr⟩ => hret f r m' h hr) hacc,
      fun f r m' h hr => absurd hr (hret f r m' h)⟩
    obtain ⟨f', m'', hq⟩ := hneg _ h
    cases hq

end

/-- `"\\(@o@)/"` at 0x1000. -/
def faceMem : Mem := fun a => (text [Char.ofNat 92, '(', '@', 'o', '@', ')', '/']).getD (a - 0x1000).toNat 0

/-- The run of a program that has `m` in memory. -/
def plainRun (m : Mem) : Failing Finite := ⟨smallEnv, ⟨0, 0, 0, 0⟩, word 0, fun _ => 0, m⟩

/-- `"i'm alive %s\n"` -/
def alive : List Byte :=
  text ['i', Char.ofNat 39, 'm', ' ', 'a', 'l', 'i', 'v', 'e', ' ', '%', 's', '\n']

/-- `synthol_logf("i'm alive %s\n", "\\(@o@)/")` loses nothing: its one lone fragment is a newline. -/
theorem vlogf_alive : ∃ f m,
    vlogf (plainRun faceMem) alive (passing [0x1000]) (fun _ => 0) quiet = some (.ok ((f, 18), m)) ∧
    Lossless quiet f 18 (fragments smallEnv alive (passing [0x1000]) faceMem) := by
  obtain ⟨-, -, hiff⟩ := vlogf_lossless_iff (fun _ => 0) false 0 (fun _ => word 0) (fun _ => 0) ⟨0, 0, 0, 0⟩ (word 0)
    (fun _ => 0) faceMem alive (passing [0x1000]) (fun _ => 0) (x := quiet) fun _ => rfl
  exact ⟨_, _, rfl, (hiff _ _ _ rfl (by decide)).mpr ⟨by decide +kernel, by decide +kernel⟩⟩

/-- `synthol_logf("%c", 'a')` makes no hypercall: the byte stays in the buffer. -/
theorem vlogf_keeps_byte : ∃ f m,
    vlogf (plainRun fun _ => 0) (text ['%', 'c']) (passing [0x61]) (fun _ => 0) quiet = some (.ok ((f, 1), m)) ∧
      f.cookie.calls = [] ∧ f.pending = text ['a'] ∧
      ¬Lossless quiet f 1 (fragments smallEnv (text ['%', 'c']) (passing [0x61]) fun _ => 0) := by
  refine ⟨_, _, rfl, by decide +kernel, by decide +kernel, ?_⟩
  intro h
  exact absurd h.empty (by decide +kernel)

end Synthol.Logging
