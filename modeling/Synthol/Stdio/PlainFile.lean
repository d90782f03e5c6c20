import Synthol.Data.Runs
import Synthol.Stdio.Stream

/-!
# A stream is a file

What a stream is for: a file and a position (`PlainFile`). The buffer, who owns it, how far the kernel's offset is from
the position and how much a system call moves do not show.

Every function of `Stream` returns what the operation on the plain file does, reads the same bytes, and keeps the
relation between the two (`exec_rel`), so that every run does (`run_plain`), as long as no system call fails and output
does not directly follow input that has not met the end of the file, which C does not allow. After a flush the kernel
has what the plain file has.
-/

namespace Synthol.Stdio

open X86

/-! ## The file -/

/-- A file, the position, whether the end has been met, and whether input was the last that was done and did not meet
it. -/
structure PlainFile where
  file : Contents
  pos : Nat
  eof : Bool
  reading : Bool

inductive Op
  | fputc (c : Byte)
  | fwrite (src : Block Byte) (size nmemb : Nat)
  | fgetc
  | fread (size nmemb : Nat)
  | fflush
  | fseek (off : Int) (whence : Whence)
  | ftell

structure Result where
  ret : Int
  bytes : List Byte
  deriving DecidableEq

namespace PlainFile

def put (a : PlainFile) (s : List Byte) : PlainFile :=
  { a with file := a.file.write a.pos s, pos := a.pos + s.length, reading := false }

/-- The end of the file stays met until the position is set. -/
def get (a : PlainFile) (n : Nat) : List Byte × PlainFile :=
  if n = 0 then ([], a)
  else
    let t := if a.eof then [] else a.file.read a.pos n
    (t, { a with pos := a.pos + t.length, eof := decide (t.length < n), reading := decide (t.length = n) })

def seek (a : PlainFile) (off : Int) (whence : Whence) : Int × PlainFile :=
  let p := off + whence.start a.pos a.file.size
  if p < 0 then (-1, a) else (0, { a with pos := p.toNat, eof := false, reading := false })

def exec (a : PlainFile) : Op → Result × PlainFile
  | .fputc c => (⟨c.toNat, []⟩, a.put [c])
  | .fwrite src size nmemb => (⟨if size = 0 then 0 else nmemb, []⟩, a.put (src.slice 0 (size * nmemb)))
  | .fgetc => (⟨((a.get 1).1.head?.map fun c => (c.toNat : Int)).getD (-1), []⟩, (a.get 1).2)
  | .fread size nmemb => (⟨((a.get (size * nmemb)).1.length / size : Nat), (a.get (size * nmemb)).1⟩,
      (a.get (size * nmemb)).2)
  | .fflush => (⟨0, []⟩, { a with reading := false })
  | .fseek off whence => (⟨(a.seek off whence).1, []⟩, (a.seek off whence).2)
  | .ftell => (⟨a.pos, []⟩, a)

/-- Output may not directly follow input that has not met the end. -/
def Allows (a : PlainFile) : Op → Prop
  | .fputc _ | .fwrite _ _ _ => a.reading = false
  | _ => True

theorem length_get (a : PlainFile) (n : Nat) : (a.get n).1.length ≤ n := by
  rw [get]
  split
  · exact Nat.zero_le _
  · simp only
    split
    · exact Nat.zero_le _
    · rw [Contents.length_read]
      exact Nat.min_le_left _ _

/-- Reading in two parts. -/
theorem get_add {a : PlainFile} {k n : Nat} (he : a.eof = false) (hk : 0 < k)
    (hlen : (a.file.read a.pos k).length = k) :
    a.get (k + n) = (a.file.read a.pos k ++ ({ a with pos := a.pos + k, reading := true }.get n).1,
      ({ a with pos := a.pos + k, reading := true }.get n).2) := by
  have hread := a.file.read_add a.pos k n hlen
  rw [get, if_neg (by omega)]
  simp only [he, Bool.false_eq_true, if_false, hread, List.length_append, hlen]
  by_cases hn : n = 0
  · subst hn
    simp [get, Contents.read]
  · rw [get, if_neg hn]
    simp only [Bool.false_eq_true, if_false, Nat.add_assoc, Nat.add_lt_add_iff_left, Nat.add_left_cancel_iff]

end PlainFile

def Stream.exec (x : Stream) : Op → Result × Stream
  | .fputc c => (⟨(x.fputc c).1, []⟩, (x.fputc c).2)
  | .fwrite src size nmemb => (⟨(x.fwrite src size nmemb).1, []⟩, (x.fwrite src size nmemb).2)
  | .fgetc => (⟨x.fgetc.1, []⟩, x.fgetc.2)
  | .fread size nmemb => (⟨(x.fread size nmemb).1.1, (x.fread size nmemb).1.2⟩, (x.fread size nmemb).2)
  | .fflush => (⟨x.fflush.1, []⟩, x.fflush.2)
  | .fseek off whence => (⟨(x.fseek off whence).1, []⟩, (x.fseek off whence).2)
  | .ftell => (⟨x.ftell.1, []⟩, x.ftell.2)

/-! ## The relation -/

/-- The stream is open for writing: what its `write` function has taken and the pending bytes are what the plain file
has got since some time. -/
structure Writing (a : PlainFile) (x : Stream) : Prop where
  rpos : x.rpos = none
  rend : x.rend = none
  holds : ∃ x₀ o t, Holds (Took x₀ o) x.toFILE t ∧ a.file = x₀.write o t ∧ a.pos = o + t.length

/-- It is not: the kernel has the plain file, and is ahead of the position by what has been buffered. -/
structure Reading (a : PlainFile) (x : Stream) : Prop where
  wpos : x.wpos = none
  wbase : x.wbase = none
  wend : x.wend = none
  healthy : x.cookie.Healthy
  le : x.rpos.getD 0 ≤ x.rend.getD 0
  file : x.cookie.file = a.file
  off : x.cookie.off = a.pos + x.ahead
  buffered : x.ahead = 0 ∨ (a.reading = true ∧ a.eof = false ∧ x.cookie.off ≤ a.file.size ∧
    x.buf.slice (x.rpos.getD 0) x.ahead = a.file.byte.slice a.pos x.ahead)

/-- The flags of a stream that is open for reading and writing and has met no error. -/
structure Clean (eof : Bool) (flags : BitVec 32) : Prop where
  err : flags &&& fErr = 0
  rd : flags &&& fNord = 0
  wr : flags &&& fNowr = 0
  eof : (flags &&& fEof ≠ 0) ↔ eof = true

structure Rel (a : PlainFile) (x : Stream) : Prop where
  clean : Clean a.eof x.flags
  side : Writing a x ∨ Reading a x

/-! ## System calls that do not fail -/

theorem Stream.write_flags {x : Stream} (h : x.cookie.Healthy) (s : Frag) : (x.write s).2.flags = x.flags := by
  obtain ⟨-, -, hend⟩ := stdioWrite_all h s
  have hg : (stdioWrite x.toFILE s).1 = { x.toFILE with
    cookie := (stdioWrite x.toFILE s).1.cookie, wend := some x.bufSize, wpos := some 0, wbase := some 0 } := hend
  rw [Stream.write, hg]

/-- The kernel has the plain file, and the position. -/
structure Synced (a : PlainFile) (x y : Stream) : Prop where
  flags : y.flags = x.flags
  rpos : y.rpos = none
  rend : y.rend = none
  wpos : y.wpos ≠ none
  healthy : y.cookie.Healthy
  file : y.cookie.file = a.file
  off : y.cookie.off = a.pos

section

variable {a : PlainFile} {x : Stream}

theorem Reading.not_dirty (h : Reading a x) : ¬x.dirty := by
  rw [Stream.dirty, h.wpos, h.wbase]
  exact Nat.lt_irrefl _

theorem Reading.sync (h : Reading a x) : x.sync = x := if_neg h.not_dirty

/-- **The flush** of a stream that is open for writing. -/
theorem Writing.sync (h : Writing a x) : Synced a x x.sync := by
  obtain ⟨x₀, o, t, hh, hfile, hpos⟩ := h.holds
  obtain ⟨d, hd, ht⟩ := hh.taken
  by_cases hdirty : x.dirty
  · obtain ⟨hgot, -, hend⟩ := stdioWrite_all (f := x.toFILE) hd.healthy []
    have hg : (stdioWrite x.toFILE []).1 = { x.toFILE with
      cookie := (stdioWrite x.toFILE []).1.cookie, wend := some x.bufSize, wpos := some 0, wbase := some 0 } := hend
    rw [List.append_nil] at hgot
    rw [Stream.sync, if_pos hdirty]
    refine ⟨Stream.write_flags hd.healthy [], h.rpos, h.rend, ?_, fun k => ?_, ?_, ?_⟩
    · rw [Stream.write, hg]
      exact Option.some_ne_none _
    · have hk := hd.healthy k
      rwa [← hgot.answer] at hk
    · rw [Stream.write, hgot.file, hd.file, hd.off, Contents.write_append, ht, hfile]
    · rw [Stream.write, hgot.off, hd.off, hpos, ← ht, List.length_append, Nat.add_assoc]
  · have hle : x.wpos.getD 0 ≤ x.wbase.getD 0 := Nat.not_lt.mp hdirty
    have hpend : x.pending = [] := by
      rw [FILE.pending, Nat.sub_eq_zero_of_le hle, Block.slice_zero]
    rw [hpend, List.append_nil] at ht
    rw [Stream.sync, if_neg hdirty]
    exact ⟨rfl, h.rpos, h.rend, hh.isOpen.wpos, hd.healthy, by rw [hd.file, ht, hfile], by rw [hd.off, ht, hpos]⟩

/-- Out of writing, with nothing buffered. -/
theorem Synced.reading {y : Stream} (h : Synced a x y) : Reading a y.leaveWriting := by
  have hahead : y.leaveWriting.ahead = 0 := by
    rw [Stream.ahead, Stream.leaveWriting, h.rpos, h.rend]
    rfl
  refine ⟨rfl, rfl, rfl, h.healthy, ?_, h.file, ?_, .inl hahead⟩
  · rw [Stream.leaveWriting, h.rpos, h.rend]
  · rw [hahead]
    exact h.off

/-- The mode does not matter. -/
theorem Writing.mode (h : Writing a x) (k : BitVec 8) : Writing a { x with mode := k } := by
  obtain ⟨x₀, o, t, ⟨ho, ht⟩, hf, hp⟩ := h.holds
  exact ⟨h.rpos, h.rend, x₀, o, t, ⟨⟨ho.noErr, ho.wend, ho.wpos, ho.base, ho.pos, ho.fits⟩, ht⟩, hf, hp⟩

theorem Reading.mode (h : Reading a x) (k : BitVec 8) : Reading a { x with mode := k } :=
  ⟨h.wpos, h.wbase, h.wend, h.healthy, h.le, h.file, h.off, h.buffered⟩

theorem Rel.mode (h : Rel a x) (k : BitVec 8) : Rel a { x with mode := k } :=
  ⟨h.clean, h.side.imp (fun hw => hw.mode k) fun hr => hr.mode k⟩

/-- Out of writing, what is buffered stays. -/
theorem Rel.leaveWriting (h : Rel a x) :
    Reading a x.sync.leaveWriting ∧ x.sync.leaveWriting.flags = x.flags ∧ x.sync.leaveWriting.ahead = x.ahead := by
  rcases h.side with hw | hr
  · refine ⟨hw.sync.reading, hw.sync.flags, ?_⟩
    rw [Stream.ahead, Stream.ahead, Stream.leaveWriting, hw.sync.rpos, hw.sync.rend, hw.rpos, hw.rend]
  · rw [hr.sync]
    exact ⟨⟨rfl, rfl, rfl, hr.healthy, hr.le, hr.file, hr.off, hr.buffered⟩, rfl, rfl⟩

/-! ## Reading -/

/-- A stream of which nothing is buffered gets ready to read. -/
theorem toread_rel (h : Rel a x) (h0 : x.ahead = 0) : (x.toread).1 = (if a.eof then eof else 0) ∧
    Reading a x.toread.2 ∧ x.toread.2.ahead = 0 ∧ x.toread.2.flags = x.flags := by
  obtain ⟨hr, hflags, hahead⟩ := (h.mode (x.mode ||| (x.mode - 1))).leaveWriting
  have hclean : Clean a.eof (Stream.sync { x with mode := x.mode ||| (x.mode - 1) }).leaveWriting.flags := by
    rw [hflags]
    exact h.clean
  have hrd : ¬(Stream.sync { x with mode := x.mode ||| (x.mode - 1) }).leaveWriting.flags &&& fNord ≠ 0 :=
    not_not.mpr hclean.rd
  simp only [Stream.toread, if_neg hrd]
  refine ⟨?_, ?_, ?_, hflags⟩
  · by_cases he : a.eof = true
    · rw [if_pos (hclean.eof.mpr he), if_pos he]
    · rw [if_neg (mt hclean.eof.mp he), if_neg he]
  · refine ⟨rfl, rfl, rfl, hr.healthy, Nat.le_refl _, hr.file, ?_, .inl (Nat.sub_self _)⟩
    have hoff := hr.off
    rw [hahead] at hoff
    rw [hoff]
    simp only [Stream.ahead, Option.getD_some, Nat.sub_self] at h0 ⊢
    rw [h0]
  · exact Nat.sub_self _

/-- What a call of `__stdio_read` is asked for is there, or some of it, or the file has ended. -/
inductive Gets (a : PlainFile) (x : Stream) (len : Nat) : (Int × List Byte) × Stream → Prop
  | ended {y : Stream} (pos : a.file.size ≤ a.pos) (rel : Reading a y) (ahead : y.ahead = 0)
    (flags : y.flags = x.flags ||| fEof) : Gets a x len ((0, []), y)
  | some {y : Stream} {k : Nat} (pos : 0 < k) (le : k ≤ len) (there : a.pos + k ≤ a.file.size)
    (rel : Reading { a with pos := a.pos + k, reading := true } y) (ahead : k < len → y.ahead = 0)
    (flags : y.flags = x.flags) : Gets a x len ((k, a.file.byte.slice a.pos k), y)

theorem drop_slice (b : Block Byte) (o : Nat) {m n : Nat} (h : m ≤ n) :
    (b.slice o n).drop m = b.slice (o + m) (n - m) := by
  obtain ⟨k, rfl⟩ := Nat.exists_eq_add_of_le h
  rw [Block.slice_add, List.drop_left' (Block.length_slice b o m), Nat.add_sub_cancel_left]

theorem slice_blit_drop (b : Block Byte) (s : List Byte) {k : Nat} (h : k ≤ s.length) :
    (b.blit 0 s).slice k (s.length - k) = s.drop k := by
  have hs := drop_slice (b.blit 0 s) 0 h
  rw [Block.slice_blit, Nat.zero_add] at hs
  exact hs.symm

/-- `iov[0]` gets `n` bytes, and the buffer the others: its first byte is the last for the caller. -/
theorem scattered {b buf : Block Byte} {o n l : Nat} (hn : n < l) :
    (b.slice o l).take n ++ [buf.blit 0 ((b.slice o l).drop n) 0] = b.slice o (n + 1) ∧
      (buf.blit 0 ((b.slice o l).drop n)).slice 1 (l - n - 1) = b.slice (o + (n + 1)) (l - n - 1) := by
  have hdrop := drop_slice b o (Nat.le_of_lt hn)
  constructor
  · have hfirst : buf.blit 0 ((b.slice o l).drop n) 0 = b (o + n) := by
      rw [hdrop, show l - n = 1 + (l - n - 1) by omega, Block.slice_add]
      simp [Block.blit, Block.slice]
    rw [hfirst, Block.slice_succ, Block.take_slice _ _ (Nat.le_of_lt hn)]
  · have hs := slice_blit_drop buf ((b.slice o l).drop n) (k := 1) (by
      rw [List.length_drop, Block.length_slice]
      omega)
    rw [List.length_drop, Block.length_slice] at hs
    rw [hs, hdrop, drop_slice _ _ (by omega), Nat.add_assoc]

/-- **`__stdio_read`** with an empty buffer. -/
theorem read_rel (h : Reading a x) (he : a.eof = false) (h0 : x.ahead = 0) {len : Nat} (hlen : 0 < len) :
    Gets a x len (x.read len) := by
  have hoff : x.cookie.off = a.pos := by
    rw [h.off, h0, Nat.add_zero]
  obtain ⟨j, hj⟩ := Option.ne_none_iff_exists'.mp (h.healthy x.cookie.calls)
  obtain ⟨n, hn⟩ : ∃ n, n = len - (if x.bufSize ≠ 0 then 1 else 0) := ⟨_, rfl⟩
  have hpos : 0 < n + x.bufSize := by
    rw [hn]
    split <;> omega
  obtain ⟨t, ht⟩ : ∃ t, t = a.file.read a.pos (min (n + x.bufSize) (j + 1)) := ⟨_, rfl⟩
  have hlent : t.length = min (min (n + x.bufSize) (j + 1)) (a.file.size - a.pos) := by rw [ht, Contents.length_read]
  have hslice : t = a.file.byte.slice a.pos t.length := by
    rw [hlent, ht]
    rfl
  simp only [Stream.read, Fd.readv, hj, h.file, hoff, ← hn, ← ht]
  by_cases hnil : t = []
  · rw [if_pos hnil]
    rw [hnil, List.length_nil] at hlent
    refine .ended (by omega) ⟨h.wpos, h.wbase, h.wend, h.healthy, h.le, rfl, ?_, .inl h0⟩ h0 rfl
    rw [hnil]
    exact (congrArg (a.pos + ·) h0).symm
  rw [if_neg hnil]
  have hpost : 0 < t.length := List.length_pos_iff.mpr hnil
  by_cases hle : t.length ≤ n
  · rw [if_pos hle, hslice, Block.length_slice]
    refine .some hpost ?_ (by omega) ⟨h.wpos, h.wbase, h.wend, h.healthy, h.le, rfl, ?_, .inl h0⟩ (fun _ => h0) rfl
    · rw [hn] at hle
      exact Nat.le_trans hle (Nat.sub_le _ _)
    · exact (congrArg (a.pos + t.length + ·) h0).symm
  · have hbuf : x.bufSize ≠ 0 := by
      intro h0
      rw [h0] at hlent
      omega
    rw [if_pos hbuf] at hn
    have hlen' : len = n + 1 := by omega
    obtain ⟨hbytes, hbuffered⟩ := @scattered a.file.byte x.buf a.pos n t.length (Nat.not_le.mp hle)
    rw [← hslice] at hbytes hbuffered
    rw [← hlen'] at hbytes hbuffered
    simp only [if_neg hle, if_pos hbuf, hbytes]
    refine .some hlen (Nat.le_refl _) (by omega) ?_ (fun hlt => absurd hlt (Nat.lt_irrefl _)) rfl
    refine ⟨h.wpos, h.wbase, h.wend, h.healthy, ?_, rfl, ?_, .inr ⟨rfl, he, ?_, hbuffered⟩⟩
    · simp only [Option.getD_some]
      omega
    · simp only [Stream.ahead, Option.getD_some]
      omega
    · simp only
      omega

theorem Clean.ended {e : Bool} {flags : BitVec 32} (h : Clean e flags) : Clean true (flags ||| fEof) := by
  refine ⟨?_, ?_, ?_, iff_of_true ?_ rfl⟩
  · rw [BitVec.and_or_distrib_right, h.err]
    rfl
  · rw [BitVec.and_or_distrib_right, h.rd]
    rfl
  · rw [BitVec.and_or_distrib_right, h.wr]
    rfl
  · intro h0
    have hz := congrArg (·.getLsbD 4) h0
    simp [fEof] at hz

/-- The position counts, not how it is written. -/
theorem Reading.at_end (h : Reading a x) (h0 : x.ahead = 0) (e r : Bool) :
    Reading { a with pos := a.pos + ([] : List Byte).length, eof := e, reading := r } x :=
  ⟨h.wpos, h.wbase, h.wend, h.healthy, h.le, h.file, h.off, .inl h0⟩

/-- `__toread` and a `read` of `l` bytes: nothing more is read after the end, or the file ends here, or something is
read. -/
inductive Pulled (a : PlainFile) (x : Stream) (l : Nat) : Prop
  | stuck (r : x.toread.1 ≠ 0) (bytes : (a.get l).1 = []) (rel : Rel (a.get l).2 x.toread.2)
  | ended (r : x.toread.1 = 0) (ret : (x.toread.2.read l).1 = (0, [])) (bytes : (a.get l).1 = [])
    (rel : Rel (a.get l).2 (x.toread.2.read l).2)
  | some (k : Nat) (r : x.toread.1 = 0) (ret : (x.toread.2.read l).1 = ((k : Int), a.file.read a.pos k)) (pos : 0 < k)
    (le : k ≤ l) (noEof : a.eof = false) (full : (a.file.read a.pos k).length = k)
    (rel : Rel { a with pos := a.pos + k, reading := true } (x.toread.2.read l).2)
    (ahead : k < l → (x.toread.2.read l).2.ahead = 0)

theorem pulled (h : Rel a x) (h0 : x.ahead = 0) {l : Nat} (hl : 0 < l) : Pulled a x l := by
  obtain ⟨hret, hr, hahead, hflags⟩ := toread_rel h h0
  have hne : l ≠ 0 := by omega
  by_cases he : a.eof = true
  · have hget : a.get l = ([], { a with pos := a.pos + ([] : List Byte).length, eof := true, reading := false }) := by
      simp [PlainFile.get, hne, he, hl, eq_comm]
    refine .stuck ?_ (by rw [hget]) ?_
    · rw [hret, if_pos he]
      decide
    · rw [hget]
      refine ⟨?_, .inr (hr.at_end hahead true false)⟩
      rw [hflags, ← he]
      exact h.clean
  · rw [if_neg he] at hret
    have he' : a.eof = false := Bool.eq_false_of_not_eq_true he
    have hg := read_rel hr he' hahead hl
    obtain ⟨res, hres⟩ : ∃ res, res = x.toread.2.read l := ⟨_, rfl⟩
    rw [← hres] at hg
    cases hg with
    | @ended y hpos rel ahead flags =>
      have hread : a.file.read a.pos l = [] := by
        rw [← List.length_eq_zero_iff, Contents.length_read]
        omega
      have hget : a.get l = ([], { a with pos := a.pos + ([] : List Byte).length, eof := true, reading := false }) := by
        simp [PlainFile.get, hne, he', hread, hl, eq_comm]
      refine .ended hret (by rw [← hres]) (by rw [hget]) ?_
      rw [hget, ← hres]
      refine ⟨?_, .inr (rel.at_end ahead true false)⟩
      rw [flags, hflags]
      exact h.clean.ended
    | @some y k hk hle there rel ahead flags =>
      have hread : a.file.read a.pos k = a.file.byte.slice a.pos k := by
        rw [Contents.read, Nat.min_eq_left (by omega)]
      refine .some k hret (by rw [← hres, hread]) hk hle he' (by rw [hread, Block.length_slice]) ?_ ?_
      · rw [← hres]
        refine ⟨?_, .inr rel⟩
        rw [flags, hflags]
        exact h.clean
      · rw [← hres]
        exact ahead

end

/-- The items that `fread` returns. -/
theorem items_eq {n size nmemb : Nat} (hn : n ≤ size * nmemb) :
    (if n < size * nmemb then n / size else if size = 0 then 0 else nmemb) = n / size := by
  split
  · rfl
  · obtain rfl : n = size * nmemb := by omega
    by_cases hs : size = 0
    · rw [if_pos hs, hs, Nat.div_zero]
    · rw [if_neg hs, Nat.mul_div_cancel_left _ (Nat.pos_of_ne_zero hs)]

/-- **The loop of `fread`**. -/
theorem readLoop_rel : ∀ {n l : Nat} {a : PlainFile} {x : Stream}, Rel a x → (0 < l → x.ahead = 0) → l ≤ n →
    (Stream.readLoop n l x).1 = (a.get l).1 ∧ Rel (a.get l).2 (Stream.readLoop n l x).2
  | 0, l, a, x, h, _, hl => by
    obtain rfl := Nat.le_zero.mp hl
    exact ⟨rfl, h⟩
  | n + 1, l, a, x, h, h0, hl => by
    rw [Stream.readLoop]
    by_cases hzero : l = 0
    · rw [if_pos hzero, hzero]
      exact ⟨rfl, h⟩
    rw [if_neg hzero]
    have hpos := Nat.pos_of_ne_zero hzero
    cases pulled h (h0 hpos) hpos with
    | stuck r bytes rel =>
      simp only [if_pos r]
      exact ⟨bytes.symm, rel⟩
    | ended r ret bytes rel =>
      simp only [r, ret, ne_eq, not_true_eq_false, if_false, Int.le_refl, if_true]
      exact ⟨bytes.symm, rel⟩
    | some k r ret pos le noEof full rel ahead =>
      have hkpos : ¬(k : Int) ≤ 0 := by omega
      have hget := PlainFile.get_add (n := l - k) noEof pos full
      rw [Nat.add_sub_cancel' le] at hget
      simp only [r, ret, ne_eq, not_true_eq_false, if_false, if_neg hkpos, Int.toNat_natCast]
      rw [hget]
      obtain ⟨hbytes, hy⟩ := readLoop_rel (n := n) (l := l - k) rel (fun hlt => ahead (by omega)) (by omega)
      exact ⟨by rw [hbytes], hy⟩

section

variable {a : PlainFile} {x : Stream} (h : Rel a x)
include h

/-- What has been buffered. -/
theorem Rel.buffered (h0 : 0 < x.ahead) : Reading a x ∧ a.reading = true ∧ a.eof = false ∧
    x.cookie.off ≤ a.file.size ∧ x.buf.slice (x.rpos.getD 0) x.ahead = a.file.byte.slice a.pos x.ahead := by
  rcases h.side with hw | hr
  · rw [Stream.ahead, hw.rend] at h0
    exact absurd h0 (by simp)
  · rcases hr.buffered with hz | hb
    · omega
    · exact ⟨hr, hb⟩

/-- Bytes from the buffer. -/
theorem Rel.advance {k : Nat} (h0 : 0 < x.ahead) (hle : k ≤ x.ahead) :
    Rel { a with pos := a.pos + k, reading := true } { x with rpos := some (x.rpos.getD 0 + k) } ∧
      x.buf.slice (x.rpos.getD 0) k = a.file.read a.pos k ∧ (a.file.read a.pos k).length = k := by
  obtain ⟨hr, -, he, hsize, hbytes⟩ := h.buffered h0
  have hoff := hr.off
  have hread : a.file.read a.pos k = a.file.byte.slice a.pos k := by
    rw [Contents.read, Nat.min_eq_left (by omega)]
  have hahead : Stream.ahead { x with rpos := some (x.rpos.getD 0 + k) } = x.ahead - k := by
    simp only [Stream.ahead, Option.getD_some]
    omega
  refine ⟨⟨h.clean, .inr ⟨hr.wpos, hr.wbase, hr.wend, hr.healthy, ?_, hr.file, ?_, .inr ⟨rfl, he, hsize, ?_⟩⟩⟩, ?_, ?_⟩
  · have hordered := hr.le
    simp only [Option.getD_some]
    unfold Stream.ahead at hle
    omega
  · rw [hahead]
    simp only
    omega
  · have hd := congrArg (List.drop k) hbytes
    rw [drop_slice _ _ hle, drop_slice _ _ hle] at hd
    rw [hahead]
    exact hd
  · have ht := congrArg (List.take k) hbytes
    rw [Block.take_slice _ _ hle, Block.take_slice _ _ hle] at ht
    rw [ht, hread]
  · rw [hread, Block.length_slice]

theorem fgetc_rel : x.fgetc.1 = ((a.get 1).1.head?.map fun c => (c.toNat : Int)).getD (-1) ∧
    Rel (a.get 1).2 x.fgetc.2 := by
  have hone (hf : a.eof = false) (hfull : (a.file.read a.pos 1).length = 1) :
      a.get 1 = (a.file.read a.pos 1, { a with pos := a.pos + 1, reading := true }) := by
    have hget := PlainFile.get_add (n := 0) hf Nat.one_pos hfull
    simpa [PlainFile.get] using hget
  rw [Stream.fgetc]
  by_cases hlt : x.rpos.getD 0 < x.rend.getD 0
  · have hahead : 0 < x.ahead := by
      unfold Stream.ahead
      omega
    obtain ⟨hrel, hbytes, hfull⟩ := h.advance hahead hahead
    obtain ⟨-, -, he, -⟩ := h.buffered hahead
    rw [if_pos hlt, hone he hfull, ← hbytes]
    exact ⟨rfl, hrel⟩
  · have h0 : x.ahead = 0 := by
      unfold Stream.ahead
      omega
    rw [if_neg hlt, Stream.uflow]
    cases pulled h h0 Nat.one_pos with
    | stuck r bytes rel =>
      simp only [if_pos r, bytes]
      exact ⟨rfl, rel⟩
    | ended r ret bytes rel =>
      have hne : ¬(0 : Int) = 1 := by decide
      simp only [r, ret, ne_eq, not_true_eq_false, if_false, bytes, if_neg hne]
      exact ⟨rfl, rel⟩
    | some k r ret pos le noEof full rel ahead =>
      obtain rfl : k = 1 := by omega
      rw [hone noEof full]
      simp only [r, ret, ne_eq, not_true_eq_false, if_false, Nat.cast_one, if_true]
      refine ⟨?_, rel⟩
      obtain ⟨c, hc⟩ := List.length_eq_one_iff.mp full
      rw [hc]
      rfl

theorem fread_rel (size nmemb : Nat) :
    (x.fread size nmemb).1 = ((a.get (size * nmemb)).1.length / size, (a.get (size * nmemb)).1) ∧
      Rel (a.get (size * nmemb)).2 (x.fread size nmemb).2 := by
  have hret := items_eq (a.length_get (size * nmemb))
  have hm := h.mode (x.mode ||| (x.mode - 1))
  simp only [Stream.fread]
  by_cases hb : 0 < x.ahead
  · obtain ⟨k, hk⟩ : ∃ k, k = min x.ahead (size * nmemb) := ⟨_, rfl⟩
    have hb' : Stream.ahead { x with mode := x.mode ||| (x.mode - 1) } > 0 := hb
    have hk' : k = min (Stream.ahead { x with mode := x.mode ||| (x.mode - 1) }) (size * nmemb) := hk
    obtain ⟨hrel, hbytes, hfull⟩ := hm.advance (k := k) hb' (by omega)
    obtain ⟨-, hreading, he, -⟩ := h.buffered hb
    have hget : a.get (size * nmemb) =
        (a.file.read a.pos k ++ ({ a with pos := a.pos + k, reading := true }.get (size * nmemb - k)).1,
          ({ a with pos := a.pos + k, reading := true }.get (size * nmemb - k)).2) := by
      by_cases hzero : k = 0
      · have hn : size * nmemb = 0 := by omega
        rw [hn, hzero, ← hreading]
        rfl
      · have hadd := PlainFile.get_add (n := size * nmemb - k) he (Nat.pos_of_ne_zero hzero) hfull
        rwa [show k + (size * nmemb - k) = size * nmemb by omega] at hadd
    have hahead (hlt : 0 < size * nmemb - k) :
        Stream.ahead { x with mode := x.mode ||| (x.mode - 1), rpos := some (x.rpos.getD 0 + k) } = 0 := by
      have hka : k = x.ahead := by omega
      rw [hka]
      simp only [Stream.ahead, Option.getD_some]
      omega
    obtain ⟨hu, hy⟩ := readLoop_rel (n := size * nmemb - k) hrel hahead (Nat.le_refl _)
    have hfst : a.file.read a.pos k ++ ({ a with pos := a.pos + k, reading := true }.get (size * nmemb - k)).1 =
        (a.get (size * nmemb)).1 := by rw [hget]
    rw [← hk', if_pos hb', hbytes, hu, hfst, hret]
    exact ⟨rfl, by rw [hget]; exact hy⟩
  · have h0 : x.ahead = 0 := by omega
    have h0' : Stream.ahead { x with mode := x.mode ||| (x.mode - 1) } = 0 := h0
    obtain ⟨hu, hy⟩ := readLoop_rel (n := size * nmemb) hm (fun _ => h0') (Nat.le_refl _)
    simp only [h0', Nat.zero_min, Block.slice_zero, List.nil_append, Nat.sub_zero, gt_iff_lt, Nat.lt_irrefl, if_false]
    rw [hu, hret]
    exact ⟨rfl, hy⟩

end

/-! ## Writing -/

/-- `__stdio_write` as the `write` function of a stream. -/
abbrev writer : Write Fd Empty := fun f s => .ok (stdioWrite f s)

theorem fwriteOpen_flags {f f' : FILE Fd} {n : Nat} {s : Frag} (hh : f.cookie.Healthy)
    (h : Stdio.fwriteOpen writer s f = .ok (f', n)) : f'.flags = f.flags := by
  have hw (t : Frag) : (stdioWrite f t).1.flags = f.flags :=
    Stream.write_flags (x := { toFILE := f, rpos := none, rend := none }) hh t
  unfold Stdio.fwriteOpen at h
  split at h
  · rw [← hw s]
    exact (congrArg (fun r => r.1.flags) (Except.ok.inj h)).symm
  · generalize (if f.lbf ≥ 0 then lineEnd s s.length else 0) = i at h
    simp only at h
    split at h
    · cases h
      rfl
    · simp only [bind, Except.bind, pure, Except.pure] at h
      rw [← hw (s.take i)]
      split at h
      · exact (congrArg (fun r => r.1.flags) (Except.ok.inj h)).symm
      · exact (congrArg (fun r => r.1.flags) (Except.ok.inj h)).symm

section

variable {a : PlainFile} {x : Stream}

/-- A stream of which nothing is buffered opens for writing. -/
theorem towrite_rel (h : Rel a x) (hr : Reading a x) (h0 : x.ahead = 0) : x.towrite.1 = 0 ∧ Writing a x.towrite.2 ∧
    x.towrite.2.flags = x.flags := by
  have hoff := hr.off
  rw [h0, Nat.add_zero] at hoff
  have htowrite : x.towrite = (0, { x with
      mode := x.mode ||| (x.mode - 1), wpos := some 0, wbase := some 0, wend := some x.bufSize, rpos := none,
      rend := none }) := by
    simp [Stream.towrite, Stdio.towrite, h.clean.wr]
  rw [htowrite]
  refine ⟨rfl, ⟨rfl, rfl, a.file, a.pos, [], ⟨?_, [], ⟨?_, hoff, hr.healthy⟩, rfl⟩, ?_, rfl⟩, rfl⟩
  · exact ⟨h.clean.err, Option.some_ne_none _, Option.some_ne_none _, Nat.le_refl _, Nat.zero_le _, Nat.le_refl _⟩
  · rw [Contents.write_nil]
    exact hr.file
  · rw [Contents.write_nil]

/-- What is held is what the plain file gets. -/
theorem Writing.put (h : Writing a x) {y : Stream} {s : Frag} (hr : y.rpos = x.rpos) (he : y.rend = x.rend)
    (hy : ∀ x₀ o t, Holds (Took x₀ o) x.toFILE t → Holds (Took x₀ o) y.toFILE (t ++ s)) : Writing (a.put s) y := by
  obtain ⟨x₀, o, t, hh, hfile, hpos⟩ := h.holds
  refine ⟨hr.trans h.rpos, he.trans h.rend, x₀, o, t ++ s, hy x₀ o t hh, ?_, ?_⟩
  · rw [PlainFile.put, hfile, hpos, Contents.write_append]
  · rw [PlainFile.put, hpos, List.length_append, Nat.add_assoc]

theorem fwriteOpen_rel (h : Writing a x) (s : Frag) : (Stream.fwriteOpen s x).1 = s.length ∧
    Writing (a.put s) (Stream.fwriteOpen s x).2 ∧ (Stream.fwriteOpen s x).2.flags = x.flags := by
  obtain ⟨x₀, o, t, hh, -, -⟩ := h.holds
  obtain ⟨d, hd, -⟩ := hh.taken
  obtain ⟨f, hf, -⟩ := (stdioWrite_flushing x₀ o).fwriteOpen hh s
  have heq : Stream.fwriteOpen s x = (s.length, { x with toFILE := f }) := by
    rw [Stream.fwriteOpen, hf]
  rw [heq]
  refine ⟨rfl, h.put rfl rfl fun x₁ o₁ t₁ hh₁ => ?_, fwriteOpen_flags hd.healthy hf⟩
  obtain ⟨f', hf', hh'⟩ := (stdioWrite_flushing x₁ o₁).fwriteOpen hh₁ s
  rw [hf] at hf'
  cases hf'
  exact hh'

/-- Nothing is buffered where output is allowed. -/
theorem Reading.nothing (hr : Reading a x) (hn : a.reading = false) : x.ahead = 0 := by
  rcases hr.buffered with h0 | ⟨ht, -⟩
  · exact h0
  · rw [hn] at ht
    cases ht

/-- **`__fwritex`**. -/
theorem fwritex_rel (h : Rel a x) (hn : a.reading = false) (s : Frag) :
    (Stream.fwritex s x).1 = s.length ∧ Rel (a.put s) (Stream.fwritex s x).2 := by
  rcases h.side with hw | hr
  · obtain ⟨x₀, o, t, hh, -, -⟩ := hw.holds
    obtain ⟨hret, hput, hflags⟩ := fwriteOpen_rel hw s
    rw [Stream.fwritex, if_neg hh.isOpen.wend]
    exact ⟨hret, by rw [hflags]; exact h.clean, .inl hput⟩
  · obtain ⟨hret, hw, hflags⟩ := towrite_rel h hr (hr.nothing hn)
    obtain ⟨hret', hput, hflags'⟩ := fwriteOpen_rel hw s
    rw [Stream.fwritex, if_pos hr.wend]
    simp only [hret, ne_eq, not_true_eq_false, if_false]
    exact ⟨hret', by rw [hflags', hflags]; exact h.clean, .inl hput⟩

theorem fwrite_rel (h : Rel a x) (hn : a.reading = false) (src : Block Byte) (size nmemb : Nat) :
    (x.fwrite src size nmemb).1 = (if size = 0 then 0 else nmemb) ∧
      Rel (a.put (src.slice 0 (size * nmemb))) (x.fwrite src size nmemb).2 := by
  obtain ⟨hret, hrel⟩ := fwritex_rel h hn (src.slice 0 (size * nmemb))
  rw [Block.length_slice] at hret
  simp only [Stream.fwrite, hret, if_true]
  exact ⟨trivial, hrel⟩

/-- `putc_unlocked` and `__overflow` on a stream that is open for writing. -/
theorem putByte_rel (h : Rel a x) (hw : Writing a x) (c : Byte) {y : Stream}
    (hy : (x.wpos.getD 0 < x.wend.getD 0 ∧ y = { x with toFILE := x.toFILE.store [c] }) ∨ y = (x.write [c]).2) :
    Rel (a.put [c]) y := by
  obtain ⟨x₀, o, t, hh, -, -⟩ := hw.holds
  obtain ⟨d, hd, -⟩ := hh.taken
  rcases hy with ⟨hlt, rfl⟩ | rfl
  · have hspace : [c].length ≤ x.toFILE.space := by
      rw [FILE.space, List.length_singleton]
      omega
    exact ⟨h.clean, .inl (hw.put rfl rfl fun _ _ _ hh => hh.store hspace)⟩
  · refine ⟨?_, .inl (hw.put rfl rfl fun x₁ o₁ t₁ hh₁ => ?_)⟩
    · rw [Stream.write_flags hd.healthy]
      exact h.clean
    · obtain ⟨f', hf', hh', -⟩ := (stdioWrite_flushing x₁ o₁).direct hh₁ [c]
      have heq : (stdioWrite x.toFILE [c]).1 = f' := congrArg Prod.fst (Except.ok.inj hf')
      rw [Stream.write, heq]
      exact hh'

theorem overflowOpen_rel (h : Rel a x) (hw : Writing a x) (c : Byte) :
    (x.overflowOpen c).1 = c.toNat ∧ Rel (a.put [c]) (x.overflowOpen c).2 := by
  obtain ⟨x₀, o, t, hh, -, -⟩ := hw.holds
  obtain ⟨d, hd, -⟩ := hh.taken
  obtain ⟨-, hret, -⟩ := stdioWrite_all hd.healthy (f := x.toFILE) [c]
  rw [Stream.overflowOpen]
  split
  · rename_i hlt
    exact ⟨rfl, putByte_rel h hw c (.inl ⟨hlt.1, rfl⟩)⟩
  · have hone : (x.write [c]).1 = 1 := hret
    simp only [hone, ne_eq, not_true_eq_false, if_false]
    exact ⟨trivial, putByte_rel h hw c (.inr rfl)⟩

theorem overflow_rel (h : Rel a x) (hr : Reading a x) (h0 : x.ahead = 0) (c : Byte) :
    (x.overflow c).1 = c.toNat ∧ Rel (a.put [c]) (x.overflow c).2 := by
  obtain ⟨hret, hw, hflags⟩ := towrite_rel h hr h0
  have hrel : Rel a x.towrite.2 := ⟨by rw [hflags]; exact h.clean, .inl hw⟩
  rw [Stream.overflow, if_pos hr.wend]
  simp only [hret, ne_eq, not_true_eq_false, if_false]
  exact overflowOpen_rel hrel hw c

theorem fputc_rel (h : Rel a x) (hn : a.reading = false) (c : Byte) :
    (x.fputc c).1 = c.toNat ∧ Rel (a.put [c]) (x.fputc c).2 := by
  rw [Stream.fputc]
  rcases h.side with hw | hr
  · obtain ⟨x₀, o, t, hh, -, -⟩ := hw.holds
    split
    · rename_i hlt
      exact ⟨rfl, putByte_rel h hw c (.inl ⟨hlt.2, rfl⟩)⟩
    · rw [Stream.overflow, if_neg hh.isOpen.wend]
      exact overflowOpen_rel h hw c
  · have hfull : ¬((c.toNat : Int) ≠ x.lbf ∧ x.wpos.getD 0 < x.wend.getD 0) := by
      rw [hr.wpos, hr.wend]
      exact fun h => Nat.lt_irrefl _ h.2
    rw [if_neg hfull]
    exact overflow_rel h hr (hr.nothing hn) c

/-! ## The position -/

/-- The flush never fails. -/
theorem Rel.sync_ok (h : Rel a x) : ¬(x.dirty ∧ x.sync.wpos = none) := by
  rcases h.side with hw | hr
  · exact fun hd => hw.sync.wpos hd.2
  · exact fun hd => hr.not_dirty hd.1

/-- Nothing open, nothing buffered. -/
theorem reading_idle {y : Stream} (h : y.cookie.Healthy) (hf : y.cookie.file = a.file) (ho : y.cookie.off = a.pos) :
    Reading a { y.leaveWriting with rpos := none, rend := none } :=
  ⟨rfl, rfl, rfl, h, Nat.le_refl _, hf, ho, .inl rfl⟩

/-- **`fflush`**: the kernel has the file, and the position. -/
theorem fflush_rel (h : Rel a x) : x.fflush.1 = 0 ∧ Rel { a with reading := false } x.fflush.2 ∧
    x.fflush.2.cookie.file = a.file ∧ x.fflush.2.cookie.off = a.pos := by
  obtain ⟨hr, hflags, hahead⟩ := h.leaveWriting
  have hoff : x.sync.cookie.off = a.pos + x.ahead := by
    rw [← hahead]
    exact hr.off
  have hah : x.sync.ahead = x.ahead := hahead
  have hclean : Clean a.eof x.sync.flags := by
    have hfl : x.sync.flags = x.flags := hflags
    rw [hfl]
    exact h.clean
  simp only [Stream.fflush, if_neg h.sync_ok]
  refine ⟨trivial, ?_⟩
  by_cases hlt : x.sync.rpos.getD 0 < x.sync.rend.getD 0
  · have hp : -(x.sync.ahead : Int) + x.sync.cookie.off = a.pos := by omega
    rw [if_pos hlt, Stream.seek, Fd.lseek_cur hp]
    exact ⟨⟨hclean, .inr (reading_idle hr.healthy hr.file rfl)⟩, hr.file, rfl⟩
  · have h0 : x.sync.ahead = 0 := Nat.sub_eq_zero_of_le (Nat.not_lt.mp hlt)
    have hpos : x.sync.cookie.off = a.pos := by
      rw [hoff, ← hah, h0, Nat.add_zero]
    rw [if_neg hlt]
    exact ⟨⟨hclean, .inr (reading_idle hr.healthy hr.file hpos)⟩, hr.file, hpos⟩

theorem Clean.cleared {e : Bool} {flags : BitVec 32} (h : Clean e flags) : Clean false (flags &&& ~~~fEof) := by
  refine ⟨?_, ?_, ?_, iff_of_false (not_not.mpr ?_) Bool.false_ne_true⟩
  · rw [BitVec.and_assoc, BitVec.and_comm (~~~fEof), ← BitVec.and_assoc, h.err]
    exact BitVec.zero_and
  · rw [BitVec.and_assoc, BitVec.and_comm (~~~fEof), ← BitVec.and_assoc, h.rd]
    exact BitVec.zero_and
  · rw [BitVec.and_assoc, BitVec.and_comm (~~~fEof), ← BitVec.and_assoc, h.wr]
    exact BitVec.zero_and
  · rw [BitVec.and_assoc]
    exact BitVec.and_zero

theorem fseek_rel (h : Rel a x) (off : Int) (whence : Whence) :
    (x.fseek off whence).1 = (a.seek off whence).1 ∧ Rel (a.seek off whence).2 (x.fseek off whence).2 := by
  obtain ⟨hr, hflags, hahead⟩ := h.leaveWriting
  have hclean : Clean a.eof x.sync.leaveWriting.flags := by
    rw [hflags]
    exact h.clean
  have hoff : x.sync.leaveWriting.cookie.off = a.pos + x.ahead := by
    rw [← hahead]
    exact hr.off
  -- what the buffer is ahead is taken off again
  have hp : (if whence = .seekCur then off - x.ahead else off) +
      whence.start x.sync.leaveWriting.cookie.off x.sync.leaveWriting.cookie.file.size =
        off + whence.start a.pos a.file.size := by
    rw [hoff, hr.file]
    cases whence with
    | seekCur =>
      simp only [if_true, Whence.start]
      omega
    | seekSet => rfl
    | seekEnd => rfl
  have hneg : (-1 : Int) < 0 := by omega
  simp only [Stream.fseek, if_neg h.sync_ok, Stream.seek, Fd.lseek, PlainFile.seek, hp]
  generalize off + (whence.start a.pos a.file.size : Int) = p
  by_cases hlt : p < 0
  · simp only [if_pos hlt, if_pos hneg]
    exact ⟨trivial, hclean, .inr hr⟩
  · simp only [if_neg hlt]
    refine ⟨trivial, hclean.cleared, .inr ?_⟩
    exact ⟨hr.wpos, hr.wbase, hr.wend, hr.healthy, Nat.le_refl _, hr.file, rfl, .inl rfl⟩

theorem ftell_rel (h : Rel a x) : x.ftell.1 = a.pos ∧ Rel a x.ftell.2 := by
  have hseek : x.seek 0 .seekCur = ((x.cookie.off : Int), x) := by
    rw [Stream.seek, Fd.lseek_cur (Int.zero_add _)]
  have hpos : ¬(x.cookie.off : Int) < 0 := by omega
  simp only [Stream.ftell, hseek, if_neg hpos]
  refine ⟨?_, h⟩
  rcases h.side with hw | hr
  · obtain ⟨x₀, o, t, hh, -, hp⟩ := hw.holds
    obtain ⟨d, hd, ht⟩ := hh.taken
    have hlen : t.length = d.length + (x.wpos.getD 0 - x.wbase.getD 0) := by
      rw [← ht, List.length_append, FILE.pending, Block.length_slice]
    have hahead : x.ahead = 0 := by
      rw [Stream.ahead, hw.rpos, hw.rend]
      rfl
    rw [hahead, hd.off, hp, hlen]
    omega
  · rw [hr.wpos, hr.wbase, hr.off]
    simp only [Option.getD_none]
    omega

end

/-! ## Runs -/

/-- **Every operation** does on the stream what it does on the plain file. -/
theorem exec_rel : Simulates PlainFile.Allows PlainFile.exec Stream.exec Rel := by
  constructor
  intro a x o h ha
  cases o with
  | fputc c =>
    obtain ⟨hret, hrel⟩ := fputc_rel h ha c
    exact ⟨by rw [Stream.exec, PlainFile.exec, hret], hrel⟩
  | fwrite src size nmemb =>
    obtain ⟨hret, hrel⟩ := fwrite_rel h ha src size nmemb
    refine ⟨?_, hrel⟩
    rw [Stream.exec, PlainFile.exec, hret, Nat.cast_ite, Nat.cast_zero]
  | fgetc =>
    obtain ⟨hret, hrel⟩ := fgetc_rel h
    exact ⟨by rw [Stream.exec, PlainFile.exec, hret], hrel⟩
  | fread size nmemb =>
    obtain ⟨hret, hrel⟩ := fread_rel h size nmemb
    exact ⟨by rw [Stream.exec, PlainFile.exec, hret], hrel⟩
  | fflush =>
    obtain ⟨hret, hrel, -⟩ := fflush_rel h
    exact ⟨by rw [Stream.exec, PlainFile.exec, hret], hrel⟩
  | fseek off whence =>
    obtain ⟨hret, hrel⟩ := fseek_rel h off whence
    exact ⟨by rw [Stream.exec, PlainFile.exec, hret], hrel⟩
  | ftell =>
    obtain ⟨hret, hrel⟩ := ftell_rel h
    exact ⟨by rw [Stream.exec, PlainFile.exec, hret], hrel⟩

/-- The plain file that an open file is. -/
def PlainFile.ofFd (x : Fd) : PlainFile := { file := x.file, pos := x.off, eof := false, reading := false }

theorem opened_rel {x : Fd} (h : x.Healthy) (lbf : Int) (buf : Block Byte) (bufSize : Nat) :
    Rel (.ofFd x) (.opened x lbf buf bufSize) := by
  have h0 (k : BitVec 32) : (Stream.opened x lbf buf bufSize).flags &&& k = 0 := BitVec.zero_and
  refine ⟨⟨h0 _, h0 _, h0 _, iff_of_false (not_not.mpr (h0 _)) Bool.false_ne_true⟩, .inr ?_⟩
  exact ⟨rfl, rfl, rfl, h, Nat.le_refl _, rfl, rfl, .inl rfl⟩

/-- **A run** of operations on a stream that has been opened returns what it does on the plain file, whatever the
buffer and however much a system call moves, and reads the same bytes. A flush behind it leaves the plain file to the
kernel. -/
theorem run_plain {x : Fd} (hx : x.Healthy) (lbf : Int) (buf : Block Byte) (bufSize : Nat) {os : List Op}
    (hl : Legal PlainFile.exec PlainFile.Allows (.ofFd x) os) :
    (runs Stream.exec (.opened x lbf buf bufSize) os).1 = (runs PlainFile.exec (.ofFd x) os).1 ∧
      (runs Stream.exec (.opened x lbf buf bufSize) os).2.fflush.1 = 0 ∧
      (runs Stream.exec (.opened x lbf buf bufSize) os).2.fflush.2.cookie.file =
        (runs PlainFile.exec (.ofFd x) os).2.file ∧
      (runs Stream.exec (.opened x lbf buf bufSize) os).2.fflush.2.cookie.off =
        (runs PlainFile.exec (.ofFd x) os).2.pos := by
  obtain ⟨hret, hrel⟩ := exec_rel.runs (opened_rel hx lbf buf bufSize) hl
  obtain ⟨hfl, -, hfile, hoff⟩ := fflush_rel hrel
  exact ⟨hret, hfl, hfile, hoff⟩

/-- A file of one byte, of which each system call moves one. -/
def oneByOne : Fd where
  file := { size := 1, byte := Block.blit (fun _ => 0) 0 [ch 'a'], zero := fun _ h => Block.blit_after _ h }
  off := 0
  calls := 0
  answer _ := some 0

theorem run_plain_oneByOne :
    (runs Stream.exec (.opened oneByOne eof (fun _ => 0) 2)
      [.fgetc, .fseek 1 .seekCur, .fputc (ch 'x'), .fputc (ch 'y'), .fputc (ch 'z'), .ftell, .fseek (-4) .seekEnd,
        .fread 2 3]).1 =
      [⟨97, []⟩, ⟨0, []⟩, ⟨120, []⟩, ⟨121, []⟩, ⟨122, []⟩, ⟨5, []⟩, ⟨0, []⟩, ⟨2, [0, ch 'x', ch 'y', ch 'z']⟩] := by
  have hx : oneByOne.Healthy := fun _ => Option.some_ne_none 0
  have hl : Legal PlainFile.exec PlainFile.Allows (.ofFd oneByOne)
      [.fgetc, .fseek 1 .seekCur, .fputc (ch 'x'), .fputc (ch 'y'), .fputc (ch 'z'), .ftell, .fseek (-4) .seekEnd,
        .fread 2 3] := ⟨trivial, trivial, rfl, rfl, rfl, trivial, trivial, trivial, trivial⟩
  rw [(run_plain hx eof (fun _ => 0) 2 hl).1]
  decide

end Synthol.Stdio
