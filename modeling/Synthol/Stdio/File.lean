import Synthol.Data.Block
import Synthol.X86.Mem

/-!
# Streams

What `__towrite`, `__fwritex` and `out` of `src/musl/src/stdio` use of a `FILE`: its flags, its buffer, the three
pointers into the buffer and the cookie of its `write` function. A pointer is an offset into the buffer, `none` for
`NULL`. The `write` function itself is a parameter of the operations; it may end the program (`Except.error`).

The fields of the reading side, of the locks and of the list of open files are left out: `__towrite` clears `rpos` and
`rend`, and nothing here reads them; `lock` is `-1` in the streams of this program, so that nothing is locked.
-/

namespace Synthol.Stdio

open X86

/-- A piece of text that is handed on in one call. -/
abbrev Frag := List Byte

/-- The byte of a character. -/
def ch (c : Char) : Byte := BitVec.ofNat 8 c.toNat

def fNowr : BitVec 32 := 8
def fErr : BitVec 32 := 32
def eof : Int := -1

structure FILE (σ : Type) where
  flags : BitVec 32
  mode : BitVec 8
  lbf : Int
  buf : Block Byte
  bufSize : Nat
  wbase : Option Nat
  wpos : Option Nat
  wend : Option Nat
  cookie : σ

/-- A `write` function: the new stream and the number of bytes it says it has written. -/
abbrev Write (σ ε : Type) := FILE σ → Frag → Except ε (FILE σ × Nat)

variable {σ ε : Type}

/-- `f->wend - f->wpos` -/
def FILE.space (f : FILE σ) : Nat := f.wend.getD 0 - f.wpos.getD 0

/-- The bytes from `wbase` to `wpos`. -/
def FILE.pending (f : FILE σ) : List Byte := f.buf.slice (f.wbase.getD 0) (f.wpos.getD 0 - f.wbase.getD 0)

/-- `memcpy(f->wpos, s, l); f->wpos += l;` -/
def FILE.store (f : FILE σ) (s : Frag) : FILE σ :=
  { f with buf := f.buf.blit (f.wpos.getD 0) s, wpos := some (f.wpos.getD 0 + s.length) }

def towrite (f : FILE σ) : Int × FILE σ :=
  let f := { f with mode := f.mode ||| (f.mode - 1) }
  if f.flags &&& fNowr ≠ 0 then (eof, { f with flags := f.flags ||| fErr })
  else (0, { f with wpos := some 0, wbase := some 0, wend := some f.bufSize })

/-- `for (i=l; i && s[i-1] != '\n'; i--);` from `i` on. -/
def lineEnd (s : Frag) : Nat → Nat
  | 0 => 0
  | i + 1 => if s.getD i 0 = ch '\n' then i + 1 else lineEnd s i

/-- `__fwritex` once the stream is open for writing. -/
def fwriteOpen (write : Write σ ε) (s : Frag) (f : FILE σ) : Except ε (FILE σ × Nat) :=
  if s.length > f.space then write f s
  else
    let i := if f.lbf ≥ 0 then lineEnd s s.length else 0
    if i = 0 then .ok (f.store s, s.length)
    else do
      let (f, n) ← write f (s.take i)
      if n < i then pure (f, n) else pure (f.store (s.drop i), s.length)

def fwritex (write : Write σ ε) (s : Frag) (f : FILE σ) : Except ε (FILE σ × Nat) :=
  if f.wend = none then
    if (towrite f).1 ≠ 0 then .ok ((towrite f).2, 0) else fwriteOpen write s (towrite f).2
  else fwriteOpen write s f

def out (write : Write σ ε) (f : FILE σ) (s : Frag) : Except ε (FILE σ) :=
  if f.flags &&& fErr = 0 then (fwritex write s f).map Prod.fst else .ok f

/-- The calls of `out` in a row. -/
def outs (write : Write σ ε) : FILE σ → List Frag → Except ε (FILE σ)
  | f, [] => .ok f
  | f, s :: fs => out write f s >>= fun f => outs write f fs

/-! ## Lines -/

theorem lineEnd_le (s : Frag) : ∀ i, lineEnd s i ≤ i
  | 0 => Nat.le_refl 0
  | i + 1 => by
    rw [lineEnd]
    split
    · exact Nat.le_refl _
    · exact Nat.le_succ_of_le (lineEnd_le s i)

/-! ## The buffer -/

@[simp] theorem FILE.store_cookie (f : FILE σ) (s : Frag) : (f.store s).cookie = f.cookie := rfl
@[simp] theorem FILE.store_flags (f : FILE σ) (s : Frag) : (f.store s).flags = f.flags := rfl
@[simp] theorem FILE.store_wbase (f : FILE σ) (s : Frag) : (f.store s).wbase = f.wbase := rfl
@[simp] theorem FILE.store_wpos (f : FILE σ) (s : Frag) : (f.store s).wpos = some (f.wpos.getD 0 + s.length) := rfl
@[simp] theorem FILE.store_wend (f : FILE σ) (s : Frag) : (f.store s).wend = f.wend := rfl

/-- What is stored is pending behind what was. -/
theorem FILE.pending_store {f : FILE σ} (s : Frag) (h : f.wbase.getD 0 ≤ f.wpos.getD 0) :
    (f.store s).pending = f.pending ++ s := by
  obtain ⟨n, hn⟩ := Nat.exists_eq_add_of_le h
  have hlen : f.wbase.getD 0 + n + s.length - f.wbase.getD 0 = n + s.length := by omega
  simp only [pending, store, Option.getD_some, hn, hlen, Nat.add_sub_cancel_left, Block.slice_add, Block.slice_blit]
  rw [Block.slice_blit_before _ _ (Nat.le_refl _)]

end Synthol.Stdio
