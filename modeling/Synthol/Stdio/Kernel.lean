import Synthol.Stdio.Writer

/-!
# Files under a stream

What the kernel keeps of an open file, with the system calls that `__stdio_write`, `__stdio_read` and `__stdio_seek`
make. A transfer may be shorter than asked for, or fail; how many bytes each call may move is a parameter (`Fd.answer`).

`__stdio_write` goes on after a short transfer. Whatever the answers, the file has got a prefix of the pending bytes and
the argument, in order and once, and what is returned counts those of the argument (`stdioWrite_wrote`); when no call
fails it is all of them, so that the function is flushing (`stdioWrite_flushing`).
-/

namespace Synthol.Stdio

open X86

/-! ## Contents -/

/-- The bytes of a file. A position past the end reads as 0 once something is written behind it. -/
@[ext]
structure Contents where
  size : Nat
  byte : Block Byte
  zero : ∀ k, size ≤ k → byte k = 0

namespace Contents

def write (x : Contents) (o : Nat) (s : List Byte) : Contents :=
  if s = [] then x
  else
    { size := max x.size (o + s.length)
      byte := x.byte.blit o s
      zero := fun k hk => by
        rw [Block.blit_after _ (by omega)]
        exact x.zero k (by omega) }

/-- The bytes from `o` on, `n` of them if there are as many. -/
def read (x : Contents) (o n : Nat) : List Byte := x.byte.slice o (min n (x.size - o))

variable (x : Contents) (o : Nat)

@[simp] theorem write_nil : x.write o [] = x := if_pos rfl

theorem length_read (n : Nat) : (x.read o n).length = min n (x.size - o) := Block.length_slice _ _ _

/-- Two writes in a row are one. -/
theorem write_append (s t : List Byte) : (x.write o s).write (o + s.length) t = x.write o (s ++ t) := by
  by_cases hs : s = []
  · rw [hs, write_nil, List.length_nil, Nat.add_zero, List.nil_append]
  by_cases ht : t = []
  · rw [ht, write_nil, List.append_nil]
  have hst : s ++ t ≠ [] := fun h => hs (List.append_eq_nil_iff.mp h).1
  simp only [write, if_neg hs, if_neg ht, if_neg hst, Block.blit_append, List.length_append]
  ext1
  · simp only
    omega
  · rfl

/-- Two reads in a row are one. -/
theorem read_add (m n : Nat) (h : (x.read o m).length = m) : x.read o (m + n) = x.read o m ++ x.read (o + m) n := by
  rw [length_read] at h
  rw [read, read, read, h, ← Block.slice_add]
  congr 1
  omega

end Contents

/-! ## System calls -/

/-- An open file. The `n`-th transfer moves at most one byte more than `answer n`, and fails where there is none. -/
structure Fd where
  file : Contents
  off : Nat
  calls : Nat
  answer : Nat → Option Nat

inductive Whence
  | seekSet | seekCur | seekEnd
  deriving DecidableEq

/-- Where an offset counts from. -/
def Whence.start (whence : Whence) (pos size : Nat) : Nat :=
  match whence with
  | .seekSet => 0
  | .seekCur => pos
  | .seekEnd => size

namespace Fd

/-- After a call that has written `s`. -/
def put (x : Fd) (s : List Byte) : Fd :=
  { x with file := x.file.write x.off s, off := x.off + s.length, calls := x.calls + 1 }

/-- `writev`: the number of bytes, `none` for `-1`. -/
def writev (x : Fd) (iov : List (List Byte)) : Option Nat × Fd :=
  match x.answer x.calls with
  | none => (none, x.put [])
  | some k => (some (iov.flatten.take (k + 1)).length, x.put (iov.flatten.take (k + 1)))

/-- `readv` of `n` bytes in all: the bytes, `none` for `-1`. -/
def readv (x : Fd) (n : Nat) : Option (List Byte) × Fd :=
  match x.answer x.calls with
  | none => (none, { x with calls := x.calls + 1 })
  | some k =>
    let t := x.file.read x.off (min n (k + 1))
    (some t, { x with off := x.off + t.length, calls := x.calls + 1 })

def lseek (x : Fd) (off : Int) (whence : Whence) : Int × Fd :=
  let p := off + whence.start x.off x.file.size
  if p < 0 then (-1, x) else (p, { x with off := p.toNat })

theorem lseek_cur {x : Fd} {off : Int} {p : Nat} (h : off + x.off = p) :
    x.lseek off .seekCur = ((p : Int), { x with off := p }) := by
  have hstart : Whence.seekCur.start x.off x.file.size = x.off := rfl
  simp only [lseek, hstart, h]
  rw [if_neg (Int.not_lt.mpr (Int.natCast_nonneg p)), Int.toNat_natCast]

end Fd

/-! ## __stdio_write -/

/-- The loop for `n` rounds, where `rem` bytes are left in `iov`. -/
def writeLoop (f : FILE Fd) (len : Nat) : Nat → Nat → List (List Byte) → FILE Fd × Nat
  | 0, _, _ => (f, 0)
  | n + 1, rem, iov =>
    match f.cookie.writev iov with
    | (none, x) =>
      ({ f with cookie := x, wpos := none, wbase := none, wend := none, flags := f.flags ||| fErr },
        if iov.length = 2 then 0 else len - (iov.headD []).length)
    | (some cnt, x) =>
      if cnt = rem then ({ f with cookie := x, wend := some f.bufSize, wpos := some 0, wbase := some 0 }, len)
      else
        let (iov, cnt') :=
          if cnt > (iov.headD []).length then (iov.tail, cnt - (iov.headD []).length) else (iov, cnt)
        writeLoop { f with cookie := x } len n (rem - cnt) ((iov.headD []).drop cnt' :: iov.tail)

/-- A round takes a byte, so that the rounds are enough. -/
def stdioWrite (f : FILE Fd) (buf : Frag) : FILE Fd × Nat :=
  let rem := f.pending.length + buf.length
  writeLoop f buf.length (rem + 1) rem [f.pending, buf]

/-! ## What has been written -/

/-- From `x` to `x'` the file has got `s` where the offset was. -/
structure Fd.Got (x x' : Fd) (s : List Byte) : Prop where
  file : x'.file = x.file.write x.off s
  off : x'.off = x.off + s.length
  answer : x'.answer = x.answer

theorem Fd.Got.put (x : Fd) (s : List Byte) : Fd.Got x (x.put s) s := ⟨rfl, rfl, rfl⟩

theorem Fd.Got.trans {x y z : Fd} {s t : List Byte} (h : Fd.Got x y s) (h' : Fd.Got y z t) : Fd.Got x z (s ++ t) := by
  refine ⟨?_, ?_, h'.answer.trans h.answer⟩
  · rw [h'.file, h.file, h.off, Contents.write_append]
  · rw [h'.off, h.off, List.length_append, Nat.add_assoc]

/-- How `__stdio_write` ends: the buffer is empty, or there has been an error and the stream is no longer open. -/
def Ended (f : FILE Fd) (all : Bool) (g : FILE Fd) : Prop :=
  match all with
  | true => g = { f with cookie := g.cookie, wend := some f.bufSize, wpos := some 0, wbase := some 0 }
  | false => (∃ k, f.cookie.answer k = none) ∧
    g = { f with cookie := g.cookie, wpos := none, wbase := none, wend := none, flags := f.flags ||| fErr }

/-- Of the bytes `t`, the last `len` of which are the argument, the first `k` have been written. -/
structure Wrote (f : FILE Fd) (t : List Byte) (len : Nat) (r : FILE Fd × Nat) (all : Bool) (k : Nat) : Prop where
  le : k ≤ t.length
  got : f.cookie.Got r.1.cookie (t.take k)
  /-- Those of the argument. -/
  ret : r.2 = len - (t.length - k)
  eq_of_all : all = true → k = t.length
  lt_of_not : all = false → t ≠ [] → k < t.length
  ended : Ended f all r.1

/-- What `iov` points to: something of the buffer and the argument, or something of the argument. -/
def Iov (len : Nat) (iov : List (List Byte)) : Prop :=
  (∃ a b, iov = [a, b] ∧ b.length = len) ∨ ∃ b, iov = [b] ∧ b.length ≤ len

/-- The step to the next round. -/
theorem Iov.step {len cnt : Nat} {iov : List (List Byte)} (h : Iov len iov) (hc : cnt < iov.flatten.length) :
    ∃ iov' cnt', (if cnt > (iov.headD []).length then (iov.tail, cnt - (iov.headD []).length) else (iov, cnt)) =
      (iov', cnt') ∧ Iov len ((iov'.headD []).drop cnt' :: iov'.tail) ∧
        ((iov'.headD []).drop cnt' :: iov'.tail).flatten = iov.flatten.drop cnt := by
  rcases h with ⟨a, b, rfl, hb⟩ | ⟨b, rfl, hb⟩
  · by_cases ha : cnt > a.length
    · refine ⟨[b], cnt - a.length, if_pos ha, .inr ⟨_, rfl, ?_⟩, ?_⟩
      · simp only [List.headD_cons, List.length_drop]
        omega
      · simp [List.drop_append, List.drop_eq_nil_of_le (Nat.le_of_lt ha)]
    · refine ⟨[a, b], cnt, if_neg ha, .inl ⟨_, _, rfl, hb⟩, ?_⟩
      simp [List.drop_append, Nat.sub_eq_zero_of_le (Nat.not_lt.mp ha)]
  · have hlen : ¬cnt > b.length := by
      simp only [List.flatten_cons, List.flatten_nil, List.append_nil] at hc
      omega
    refine ⟨[b], cnt, if_neg hlen, .inr ⟨_, rfl, ?_⟩, by simp⟩
    simp only [List.headD_cons, List.length_drop]
    omega

/-- What a failure returns. -/
theorem Iov.left {len : Nat} {iov : List (List Byte)} (h : Iov len iov) :
    (if iov.length = 2 then 0 else len - (iov.headD []).length) = len - iov.flatten.length := by
  rcases h with ⟨a, b, rfl, hb⟩ | ⟨b, rfl, hb⟩
  · simp only [List.length_cons, List.length_nil, if_true, List.flatten_cons, List.flatten_nil, List.length_append]
    omega
  · simp

/-- **The loop** writes a prefix, in order and once. -/
theorem writeLoop_wrote {len : Nat} : ∀ {n : Nat} {f : FILE Fd} {iov : List (List Byte)}, Iov len iov →
    iov.flatten.length < n → ∃ all k, Wrote f iov.flatten len (writeLoop f len n iov.flatten.length iov) all k
  | 0, _, _, _, hn => absurd hn (Nat.not_lt_zero _)
  | n + 1, f, iov, h, hn => by
    rw [writeLoop, Fd.writev]
    cases ha : f.cookie.answer f.cookie.calls with
    | none =>
      refine ⟨false, 0, Nat.zero_le _, ?_, ?_, fun h => Bool.noConfusion h, fun _ hne => ?_, ⟨⟨_, ha⟩, rfl⟩⟩
      · exact Fd.Got.put _ _
      · exact h.left
      · exact List.length_pos_iff.mpr hne
    | some j =>
      have hgot := Fd.Got.put f.cookie (iov.flatten.take (j + 1))
      by_cases hall : (iov.flatten.take (j + 1)).length = iov.flatten.length
      · have htake : iov.flatten.take iov.flatten.length = iov.flatten.take (j + 1) := by
          rw [List.length_take] at hall
          rw [List.take_length, List.take_of_length_le (by omega)]
        simp only [hall, if_true]
        refine ⟨true, iov.flatten.length, Nat.le_refl _, ?_, by simp, fun _ => rfl, fun h => Bool.noConfusion h, rfl⟩
        rw [htake]
        exact hgot
      · have hlt : (iov.flatten.take (j + 1)).length < iov.flatten.length :=
          Nat.lt_of_le_of_ne (List.length_take_le' _ _) hall
        have hcnt : (iov.flatten.take (j + 1)).length = j + 1 := by
          rw [List.length_take] at hlt ⊢
          omega
        obtain ⟨iov', cnt', hstep, hiov, hflat⟩ := h.step hlt
        have hlen : iov.flatten.length - (iov.flatten.take (j + 1)).length =
            ((iov'.headD []).drop cnt' :: iov'.tail).flatten.length := by
          rw [hflat, List.length_drop]
        simp only [if_neg hall, hstep, hlen]
        obtain ⟨all, k, hw⟩ := writeLoop_wrote (n := n)
          (f := { f with cookie := f.cookie.put (iov.flatten.take (j + 1)) }) hiov (by omega)
        have hk := hw.le
        refine ⟨all, j + 1 + k, by omega, ?_, ?_, fun hall => ?_, fun hall _ => ?_, ?_⟩
        · have htake : iov.flatten.take (j + 1) ++ ((iov'.headD []).drop cnt' :: iov'.tail).flatten.take k =
              iov.flatten.take (j + 1 + k) := by
            rw [hflat, hcnt, ← List.take_add]
          rw [← htake]
          exact hgot.trans hw.got
        · rw [hw.ret]
          omega
        · have heq := hw.eq_of_all hall
          omega
        · have hk' := hw.lt_of_not hall (List.length_pos_iff.mp (by omega))
          omega
        · cases all with
          | true => exact hw.ended
          | false => exact ⟨hw.ended.1, hw.ended.2⟩

/-- **`__stdio_write`**, whatever the answers: the file has got the first of the pending bytes and the argument, as many
of the argument as it returns; unless that is all, there has been an error, and the stream says so. -/
theorem stdioWrite_wrote (f : FILE Fd) (buf : Frag) :
    ∃ all k, Wrote f (f.pending ++ buf) buf.length (stdioWrite f buf) all k := by
  have hflat : [f.pending, buf].flatten = f.pending ++ buf := by simp
  have hlen : f.pending.length + buf.length = [f.pending, buf].flatten.length := by simp
  have h := writeLoop_wrote (f := f) (.inl ⟨f.pending, buf, rfl, rfl⟩) (Nat.lt_succ_self _)
  rw [← hlen, hflat] at h
  exact h

/-! ## Without errors -/

/-- No call fails. -/
def Fd.Healthy (x : Fd) : Prop := ∀ k, x.answer k ≠ none

theorem stdioWrite_all {f : FILE Fd} (h : f.cookie.Healthy) (buf : Frag) :
    f.cookie.Got (stdioWrite f buf).1.cookie (f.pending ++ buf) ∧ (stdioWrite f buf).2 = buf.length ∧
      Ended f true (stdioWrite f buf).1 := by
  obtain ⟨all, k, hw⟩ := stdioWrite_wrote f buf
  cases all with
  | true =>
    have hk := hw.eq_of_all rfl
    have hgot := hw.got
    rw [hk, List.take_length] at hgot
    refine ⟨hgot, ?_, hw.ended⟩
    rw [hw.ret, hk]
    omega
  | false =>
    obtain ⟨⟨j, hj⟩, -⟩ := hw.ended
    exact absurd hj (h j)

/-- Since the offset was `o` the file `x₀` has got `d`. -/
structure Took (x₀ : Contents) (o : Nat) (x : Fd) (d : List Byte) : Prop where
  file : x.file = x₀.write o d
  off : x.off = o + d.length
  healthy : x.Healthy

/-- **`__stdio_write` is flushing** while no call fails. -/
theorem stdioWrite_flushing (x₀ : Contents) (o : Nat) :
    Flushing (fun f s => (.ok (stdioWrite f s) : Except Empty (FILE Fd × Nat))) (Took x₀ o) := by
  constructor
  intro f d s ho ht
  obtain ⟨hgot, hret, hend⟩ := stdioWrite_all ht.healthy s
  have hg : (stdioWrite f s).1 = { f with
    cookie := (stdioWrite f s).1.cookie, wend := some f.bufSize, wpos := some 0, wbase := some 0 } := hend
  have htook : Took x₀ o (stdioWrite f s).1.cookie (d ++ f.pending ++ s) := by
    refine ⟨?_, ?_, fun k => ?_⟩
    · rw [hgot.file, ht.file, ht.off, Contents.write_append, List.append_assoc]
    · rw [hgot.off, ht.off]
      simp only [List.length_append, Nat.add_assoc]
    · rw [hgot.answer]
      exact ht.healthy k
  refine ⟨(stdioWrite f s).1, by rw [← hret], ?_, htook, ?_, ?_⟩
  · rw [hg]
    exact ⟨ho.noErr, Option.some_ne_none _, Option.some_ne_none _, Nat.le_refl _, Nat.zero_le _, Nat.le_refl _⟩
  · rw [hg]
    rfl
  · have hfits := ho.fits
    rw [hg]
    simp only [FILE.space, Option.getD_some]
    omega

end Synthol.Stdio
