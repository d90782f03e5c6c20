import Synthol.Stdio.Printf
import Synthol.Stdio.Writer

/-!
# vfprintf and vsnprintf

`vfprintf` makes the two passes and, on a stream without a buffer, lends it one for the time of the call and flushes it
at the end. `vsnprintf` calls it on such a stream, whose `write` function `sn_write` copies to the destination what
fits.

- on a stream without a buffer whose `write` function is flushing, `vfprintf` hands over the text (`vfprintf_flushing`);
- `sn_write` is flushing (`snWrite_flushing`);
- `vsnprintf` leaves the first `n-1` bytes of the text and a NUL, whatever it returns (`vsnprintf_some`).

Where an `int` overflows in `printf_core` there is no result (`none`).
-/

namespace Synthol.Stdio

open X86

variable {F σ ε : Type}

/-! ## vfprintf -/

/-- What `vfprintf` does to the stream before the second pass. -/
def FILE.lend (internalBuf : Block Byte) (f : FILE σ) : FILE σ :=
  let f := { f with flags := if f.mode.toInt < 1 then f.flags &&& ~~~fErr else f.flags }
  if f.bufSize = 0 then
    { f with wpos := some 0, wbase := some 0, buf := internalBuf, bufSize := 80, wend := some 80 }
  else f

/-- `if (saved_buf) { ... }`, where `f₀` is the stream before the call. -/
def restore (write : Write σ ε) (f₀ f : FILE σ) (ret : Int) : Except ε (FILE σ × Int) :=
  if f₀.bufSize = 0 then do
    let (f, _) ← write f []
    let ret := if f.wpos = none then -1 else ret
    pure ({ f with buf := f₀.buf, bufSize := 0, wpos := none, wbase := none, wend := none }, ret)
  else pure (f, ret)

/-- The stream, what is returned, and the memory. -/
def vfprintf (env : Env F) (write : Write σ ε) (f : FILE σ) (fmt : List Byte) (ap : VaList F) (m : Mem) :
    Option (Except ε ((FILE σ × Int) × Mem)) :=
  match passes env fmt ap m with
  | none => some (.ok ((f, -1), m))
  | some r =>
    let olderr := f.flags &&& fErr
    match outs write (f.lend env.internalBuf) r.frags with
    | .error x => some (.error x)
    | .ok g => r.ret.map fun ret => do
      let (g, ret) ← restore write f g ret
      let ret := if g.flags &&& fErr ≠ 0 then -1 else ret
      pure (({ g with flags := g.flags ||| olderr }, ret), r.m)

theorem FILE.lend_eq {f : FILE σ} {internalBuf : Block Byte} (hflags : f.flags = 0) (hbuf : f.bufSize = 0) :
    f.lend internalBuf =
      { f with wpos := some 0, wbase := some 0, buf := internalBuf, bufSize := 80, wend := some 80 } := by
  simp [lend, hflags, hbuf]

theorem FILE.lend_open {f : FILE σ} {internalBuf : Block Byte} (hflags : f.flags = 0) (hbuf : f.bufSize = 0) :
    (f.lend internalBuf).Open := by
  rw [lend_eq hflags hbuf]
  exact ⟨by simp [hflags], by simp, by simp, by simp, by simp, by simp⟩

/-- **The text goes through** a stream without a buffer whose `write` function is flushing. -/
theorem vfprintf_flushing {env : Env F} {write : Write σ ε} {took : σ → List Byte → Prop} (hw : Flushing write took)
    {f : FILE σ} {fmt : List Byte} {ap : VaList F} {m : Mem} {r : Printed F} (hflags : f.flags = 0)
    (hbuf : f.bufSize = 0) (htook : took f.cookie []) (hr : passes env fmt ap m = some r) :
    ∃ g, vfprintf env write f fmt ap m = r.ret.map (fun k => .ok ((g, k), r.m)) ∧ took g.cookie r.text := by
  have hlend : Holds took (f.lend env.internalBuf) [] := by
    refine ⟨FILE.lend_open hflags hbuf, [], ?_, ?_⟩
    · rwa [FILE.lend_eq hflags hbuf]
    · simp [FILE.lend_eq hflags hbuf, FILE.pending]
  obtain ⟨g, hg, hh⟩ := hw.outs r.frags hlend
  obtain ⟨k, hk, ho, ht, -⟩ := hw.drain hh
  have hflag : k.flags &&& fErr = 0 := ho.noErr
  refine ⟨{ k with
    flags := k.flags ||| f.flags &&& fErr, buf := f.buf, bufSize := 0, wpos := none, wbase := none, wend := none },
    ?_, ht⟩
  simp only [vfprintf, hr, hg, restore, hbuf, hk, bind, Except.bind, pure, Except.pure, if_true, if_neg ho.wpos, hflag,
    ne_eq, not_true_eq_false, if_false]

/-! ## vsnprintf -/

structure Cookie where
  dest : Block Byte
  s : Nat
  n : Nat

/-- `k = MIN(c->n, l); if (k) { memcpy(c->s, s, k); c->s += k; c->n -= k; }` -/
def Cookie.put (c : Cookie) (s : Frag) : Cookie :=
  let k := min c.n s.length
  if k ≠ 0 then { dest := c.dest.blit c.s (s.take k), s := c.s + k, n := c.n - k } else c

/-- `*c->s = 0;` -/
def Cookie.nul (c : Cookie) : Cookie := { c with dest := c.dest.blit c.s [0] }

def snWrite : Write Cookie ε := fun f s =>
  .ok ({ f with cookie := ((f.cookie.put f.pending).put s).nul, wpos := some 0, wbase := some 0 }, s.length)

/-- The stream that `vsnprintf` builds. -/
def snFile (c : Cookie) : FILE Cookie :=
  { flags := 0, mode := 0, lbf := eof, buf := fun _ => 0, bufSize := 0, wbase := none, wpos := none, wend := none,
    cookie := c }

/-- What is returned, the destination and the memory. Without room the text goes to a dummy. -/
def vsnprintf (env : Env F) (s : Block Byte) (n : Nat) (fmt : List Byte) (ap : VaList F) (m : Mem) :
    Option ((Int × Block Byte) × Mem) :=
  let c : Cookie := if n ≠ 0 then ⟨s, 0, n - 1⟩ else ⟨fun _ => 0, 0, 0⟩
  if (n : Int) > intMax then some ((-1, s), m)
  else
    match (vfprintf env snWrite (snFile c.nul) fmt ap m : Option (Except Empty _)) with
    | none => none
    | some (.ok ((f, ret), m)) => some ((ret, if n ≠ 0 then f.cookie.dest else s), m)

/-! ## The destination -/

theorem Cookie.put_eq (c : Cookie) (s : Frag) :
    c.put s = { dest := c.dest.blit c.s (s.take c.n), s := c.s + min c.n s.length, n := c.n - min c.n s.length } := by
  have htake : s.take (min c.n s.length) = s.take c.n := by
    rw [← List.take_take, List.take_length]
  simp only [put]
  split
  · rw [htake]
  · rename_i h
    rw [not_not] at h
    rw [← htake, h]
    simp

/-- Two texts in a row are one. -/
theorem Cookie.put_put (c : Cookie) (s t : Frag) : (c.put s).put t = c.put (s ++ t) := by
  have hlen : (s.take c.n).length = min c.n s.length := List.length_take
  rw [put_eq, put_eq, put_eq]
  congr 1
  · simp only
    rw [← hlen, Block.blit_append, hlen, List.take_append]
    congr 3
    omega
  · simp only [List.length_append]
    omega
  · simp only [List.length_append]
    omega

/-- The NUL is overwritten by the next one or by what comes before it. -/
theorem Cookie.nul_put_nul (c : Cookie) (s : Frag) : (c.nul.put s).nul = (c.put s).nul := by
  have hlen : (s.take c.n).length = min c.n s.length := List.length_take
  rw [put_eq, put_eq]
  simp only [nul]
  congr 1
  rw [← hlen, Block.blit_append, Block.blit_append, Block.blit_cover]
  simp

/-- What has been written is what was there with the text put in, and a NUL. -/
theorem snWrite_flushing (c : Cookie) : Flushing (snWrite (ε := ε)) fun c' t => c' = (c.put t).nul := by
  constructor
  intro f d s ho hc
  refine ⟨_, rfl, ⟨ho.noErr, ho.wend, by simp, by simp, by simp, ho.fits⟩, ?_, ?_, ?_⟩
  · simp only
    rw [hc, Cookie.put_put, Cookie.nul_put_nul, Cookie.put_put, List.append_assoc]
  · simp [FILE.pending]
  · simp only [FILE.space, Option.getD_some]
    omega

section

variable {env : Env F} {s : Block Byte} {n : Nat} {fmt : List Byte} {ap : VaList F} {m : Mem} (h₁ : 1 ≤ n)
  (h₂ : (n : Int) ≤ intMax)
include h₁ h₂

/-- A format that the first pass refuses leaves a NUL. -/
theorem vsnprintf_none (hp : passes env fmt ap m = none) :
    vsnprintf env s n fmt ap m = some ((-1, s.blit 0 [0]), m) := by
  simp only [vsnprintf, vfprintf, hp, if_neg (Int.not_lt.mpr h₂), if_pos (show n ≠ 0 by omega)]
  rfl

/-- **vsnprintf** leaves what fits of the text, and a NUL. -/
theorem vsnprintf_some {r : Printed F} (hp : passes env fmt ap m = some r) :
    vsnprintf env s n fmt ap m = r.ret.map fun k => ((k, s.blit 0 (r.text.take (n - 1) ++ [0])), r.m) := by
  have hn : n ≠ 0 := by omega
  have hnil : (⟨s, 0, n - 1⟩ : Cookie).nul = ((⟨s, 0, n - 1⟩ : Cookie).put []).nul := by
    rw [Cookie.put_eq]
    simp
  have hrun : ∃ g, vfprintf env (snWrite : Write Cookie Empty) (snFile (⟨s, 0, n - 1⟩ : Cookie).nul) fmt ap m =
      r.ret.map (fun k => .ok ((g, k), r.m)) ∧ g.cookie = ((⟨s, 0, n - 1⟩ : Cookie).put r.text).nul :=
    vfprintf_flushing (snWrite_flushing ⟨s, 0, n - 1⟩) rfl rfl hnil hp
  obtain ⟨g, hg, hc⟩ := hrun
  simp only [vsnprintf, if_neg (Int.not_lt.mpr h₂), if_pos hn, hg]
  cases r.ret with
  | none => rfl
  | some k =>
    simp only [Option.map_some, hc, Cookie.nul, Cookie.put_eq]
    rw [Nat.zero_add, ← List.length_take, ← Block.blit_append, Nat.zero_add]

end

end Synthol.Stdio
