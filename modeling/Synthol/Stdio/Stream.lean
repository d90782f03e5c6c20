import Synthol.Stdio.Kernel

/-!
# Reading and writing

The functions of `src/musl/src/stdio` on a stream that `__stdio_read`, `__stdio_write` and `__stdio_seek` serve, with
both sides of its buffer: `fputc`, `fwrite`, `fgetc`, `fread`, `fflush`, `fseek`, `ftell`. A stream is taken by one
thread, so that its lock is free, and is not in append mode.
-/

namespace Synthol.Stdio

open X86

def fNord : BitVec 32 := 4
def fEof : BitVec 32 := 16

/-- A stream with its reading side. -/
structure Stream extends FILE Fd where
  rpos : Option Nat
  rend : Option Nat

namespace Stream

/-- What `__fdopen` makes for a mode with `+`, with the buffer that it allocates or that `setvbuf` sets. -/
def opened (x : Fd) (lbf : Int) (buf : Block Byte) (bufSize : Nat) : Stream :=
  { flags := 0, mode := 0, lbf, buf, bufSize, wbase := none, wpos := none, wend := none, cookie := x, rpos := none,
    rend := none }

/-- With the flags of another mode, as `F_NORD` for output alone. -/
def openedAs (flags : BitVec 32) (x : Fd) (lbf : Int) (buf : Block Byte) (bufSize : Nat) : Stream :=
  { opened x lbf buf bufSize with flags }

/-- `f->write` -/
def write (x : Stream) (s : Frag) : Nat × Stream :=
  ((stdioWrite x.toFILE s).2, { x with toFILE := (stdioWrite x.toFILE s).1 })

/-- `f->rend - f->rpos` -/
def ahead (x : Stream) : Nat := x.rend.getD 0 - x.rpos.getD 0

/-- `f->wpos > f->wbase` -/
def dirty (x : Stream) : Prop := x.wpos.getD 0 > x.wbase.getD 0

instance (x : Stream) : Decidable x.dirty := inferInstanceAs (Decidable (_ > _))

/-- `if (f->wpos > f->wbase) f->write(f, 0, 0);` -/
def sync (x : Stream) : Stream := if x.dirty then (x.write []).2 else x

/-- `f->wpos = f->wbase = f->wend = 0;` -/
def leaveWriting (x : Stream) : Stream := { x with wpos := none, wbase := none, wend := none }

/-! ## Reading -/

def toread (x : Stream) : Int × Stream :=
  let x := { x with mode := x.mode ||| (x.mode - 1) }
  let x := x.sync.leaveWriting
  if x.flags &&& fNord ≠ 0 then (eof, { x with flags := x.flags ||| fErr })
  else (if x.flags &&& fEof ≠ 0 then eof else 0, { x with rpos := some x.bufSize, rend := some x.bufSize })

/-- `__stdio_read`: what is returned, the bytes that `buf` gets, and the stream. -/
def read (x : Stream) (len : Nat) : (Int × List Byte) × Stream :=
  let n := len - if x.bufSize ≠ 0 then 1 else 0
  match x.cookie.readv (n + x.bufSize) with
  | (none, k) => ((-1, []), { x with cookie := k, flags := x.flags ||| fErr })
  | (some t, k) =>
    let x := { x with cookie := k }
    if t = [] then ((0, []), { x with flags := x.flags ||| fEof })
    else if t.length ≤ n then ((t.length, t), x)
    else
      let x := { x with buf := x.buf.blit 0 (t.drop n), rpos := some 0, rend := some (t.length - n) }
      if x.bufSize ≠ 0 then ((len, t.take n ++ [x.buf 0]), { x with rpos := some 1 }) else ((len, t.take n), x)

def uflow (x : Stream) : Int × Stream :=
  let (r, x) := x.toread
  if r ≠ 0 then (eof, x)
  else
    let ((k, t), x) := x.read 1
    if k = 1 then ((t.headD 0).toNat, x) else (eof, x)

def fgetc (x : Stream) : Int × Stream :=
  if x.rpos.getD 0 < x.rend.getD 0 then
    ((x.buf (x.rpos.getD 0)).toNat, { x with rpos := some (x.rpos.getD 0 + 1) })
  else x.uflow

/-- `for (; l; l-=k, dest+=k) { ... }` for `n` rounds: the bytes, and the stream. -/
def readLoop : Nat → Nat → Stream → List Byte × Stream
  | 0, _, x => ([], x)
  | n + 1, l, x =>
    if l = 0 then ([], x)
    else
      let (r, x) := x.toread
      if r ≠ 0 then ([], x)
      else
        let ((k, t), x) := x.read l
        if k ≤ 0 then ([], x)
        else
          let (u, x) := readLoop n (l - k.toNat) x
          (t ++ u, x)

/-- What is returned, and the bytes that `destv` gets. A round takes a byte, so that the rounds are enough. The product of
`size` and `nmemb` fits in a `size_t`, as it does for the elements of an array. -/
def fread (size nmemb : Nat) (x : Stream) : (Nat × List Byte) × Stream :=
  let len := size * nmemb
  let x := { x with mode := x.mode ||| (x.mode - 1) }
  let k := min x.ahead len
  let t := x.buf.slice (x.rpos.getD 0) k
  let x := if x.ahead > 0 then { x with rpos := some (x.rpos.getD 0 + k) } else x
  let (u, x) := readLoop (len - k) (len - k) x
  ((if (t ++ u).length < len then (t ++ u).length / size else if size = 0 then 0 else nmemb, t ++ u), x)

/-! ## Writing -/

def towrite (x : Stream) : Int × Stream :=
  let (r, f) := Stdio.towrite x.toFILE
  (r, if r = 0 then { toFILE := f, rpos := none, rend := none } else { x with toFILE := f })

/-- `__overflow` once the stream is open for writing. -/
def overflowOpen (x : Stream) (c : Byte) : Int × Stream :=
  if x.wpos.getD 0 < x.wend.getD 0 ∧ (c.toNat : Int) ≠ x.lbf then
    (c.toNat, { x with toFILE := x.toFILE.store [c] })
  else
    let (n, x) := x.write [c]
    (if n ≠ 1 then eof else c.toNat, x)

/-- `__overflow` -/
def overflow (x : Stream) (c : Byte) : Int × Stream :=
  if x.wend = none then
    let (r, x) := x.towrite
    if r ≠ 0 then (eof, x) else x.overflowOpen c
  else x.overflowOpen c

def fputc (c : Byte) (x : Stream) : Int × Stream :=
  if (c.toNat : Int) ≠ x.lbf ∧ x.wpos.getD 0 < x.wend.getD 0 then
    (c.toNat, { x with toFILE := x.toFILE.store [c] })
  else x.overflow c

/-- `__fwritex` once the stream is open for writing. -/
def fwriteOpen (s : Frag) (x : Stream) : Nat × Stream :=
  match (Stdio.fwriteOpen (fun f s => (.ok (stdioWrite f s) : Except Empty _)) s x.toFILE) with
  | .ok (f, n) => (n, { x with toFILE := f })

def fwritex (s : Frag) (x : Stream) : Nat × Stream :=
  if x.wend = none then
    let (r, x) := x.towrite
    if r ≠ 0 then (0, x) else fwriteOpen s x
  else fwriteOpen s x

/-- `fwrite` of the first `size * nmemb` bytes of `src`, a product that fits in a `size_t`. -/
def fwrite (src : Block Byte) (size nmemb : Nat) (x : Stream) : Nat × Stream :=
  let l := size * nmemb
  let (k, x) := x.fwritex (src.slice 0 l)
  (if k = l then if size = 0 then 0 else nmemb else k / size, x)

/-! ## The position -/

/-- `f->seek` -/
def seek (x : Stream) (off : Int) (whence : Whence) : Int × Stream :=
  ((x.cookie.lseek off whence).1, { x with cookie := (x.cookie.lseek off whence).2 })

def fflush (x : Stream) : Int × Stream :=
  let x' := x.sync
  if x.dirty ∧ x'.wpos = none then (eof, x')
  else
    let x' := if x'.rpos.getD 0 < x'.rend.getD 0 then (x'.seek (-(x'.ahead : Int)) .seekCur).2 else x'
    (0, { x'.leaveWriting with rpos := none, rend := none })

def fseek (off : Int) (whence : Whence) (x : Stream) : Int × Stream :=
  let off := if whence = .seekCur then off - x.ahead else off
  let x' := x.sync
  if x.dirty ∧ x'.wpos = none then (-1, x')
  else
    let (r, x') := x'.leaveWriting.seek off whence
    if r < 0 then (-1, x') else (0, { x' with rpos := none, rend := none, flags := x'.flags &&& ~~~fEof })

def ftell (x : Stream) : Int × Stream :=
  let (pos, x) := x.seek 0 .seekCur
  (if pos < 0 then pos else pos - x.ahead + (x.wpos.getD 0 - x.wbase.getD 0 : Nat), x)

end Stream

end Synthol.Stdio
