import Synthol.Stdio.FloatCount
import Synthol.Stdio.Vfprintf

/-!
# The log

`src/src/logging.c` and `assert.c` over the console of the hypervisor: `synthol_vnlogf` formats into an array and makes
one hypercall, `synthol_vlogf` formats to a stream whose `write` function makes a hypercall at each call.

A console is the list of the hypercalls so far, all of them `CONSOLEIO_write`, and what the hypervisor will answer to
each. `__assert_fail` does not return: it is the error that `vlogf_write` ends with, and carries the console it leaves.
As in `vfprintf`, there is no result where an `int` overflows.
-/

namespace Synthol.Logging

open X86 Stdio

variable {F : Type}

/-! ## The console -/

/-- One `CONSOLEIO_write`: the count, and the bytes that it covers. -/
structure Call where
  count : Int
  text : List Byte
  deriving DecidableEq

structure Console where
  calls : List Call
  answer : Nat → Int

/-- `HYPERCALL_console_io(CONSOLEIO_write, count, buffer)` -/
def consoleIo (count : Int) (buffer : Block Byte) (x : Console) : Int × Console :=
  (x.answer x.calls.length, { x with calls := x.calls ++ [⟨count, buffer.slice 0 count.toNat⟩] })

/-- The bytes of the calls from the `k`-th on. -/
def Console.since (x : Console) (k : Nat) : List Byte := (x.calls.drop k).flatMap Call.text

/-! ## One hypercall -/

/-- What is returned, the console and the memory. `buf` is the stack from the array on, as it is on entry. -/
def vnlogf (env : Env F) (n : Nat) (fmt : List Byte) (ap : VaList F) (buf : Block Byte) (x : Console) (m : Mem) :
    Option ((Int × Console) × Mem) :=
  (vsnprintf env buf n fmt ap m).map fun r => (consoleIo r.1.1 r.1.2 x, r.2)

def nlogf (env : Env F) (n : Nat) (fmt : List Byte) (ap : VaList F) (buf : Block Byte) (x : Console) (m : Mem) :
    Option ((Int × Console) × Mem) :=
  vnlogf env n fmt ap buf x m

def abortMessageBufferSize : Nat := 4096

/-- `"Assertion failed: %s (%s: %s: %d)\n"` -/
def assertFormat : List Byte :=
  text ['A', 's', 's', 'e', 'r', 't', 'i', 'o', 'n', ' ', 'f', 'a', 'i', 'l', 'e', 'd', ':', ' ', '%', 's', ' ', '(',
    '%', 's', ':', ' ', '%', 's', ':', ' ', '%', 'd', ')', '\n']

/-- Where an assertion stands: the addresses of `#x`, `__FILE__` and `__func__`, and `__LINE__`. -/
structure Site where
  expr : Word
  file : Word
  func : Word
  line : Word

/-- The arguments of the message. -/
def Site.args (at_ : Site) (junk : Arg F) : VaList F :=
  let arg (i : Word) : Arg F := { junk with i := i }
  ⟨[arg at_.expr, arg at_.file, arg at_.func, arg at_.line], junk⟩

/-- `__assert_fail`: the console when it calls `abort`. The message always has a result (`nlogf_assert`). -/
def assertFail (env : Env F) (at_ : Site) (junk : Arg F) (buf : Block Byte) (x : Console) (m : Mem) : Console :=
  ((nlogf env abortMessageBufferSize assertFormat (at_.args junk) buf x m).map fun r => r.1.2).getD x

/-! ## One hypercall after the other -/

/-- What `vlogf_write` needs where its assertion fails. -/
structure Failing (F : Type) where
  env : Env F
  site : Site
  junk : Arg F
  buf : Block Byte
  m : Mem

/-- A `size_t` as an `int`. -/
def toInt (l : Nat) : Int := (BitVec.ofNat 32 l).toInt

def vlogfWrite (e : Failing F) : Write Console Console := fun f s =>
  let (err, x) := consoleIo (toInt s.length) (fun k => s.getD k 0) f.cookie
  if err = 0 then .ok ({ f with cookie := x }, s.length)
  else .error (assertFail e.env e.site e.junk e.buf x e.m)

/-- The stream that `synthol_vlogf` builds, with what is in `buf`. -/
def vlogfFile (buf : Block Byte) (x : Console) : FILE Console :=
  { flags := 0, mode := 0, lbf := 10, buf := buf, bufSize := 1, wbase := none, wpos := none, wend := none, cookie := x }

/-- The stream at the end, what is returned, and the memory; or the console when an assertion has failed. -/
def vlogf (e : Failing F) (fmt : List Byte) (ap : VaList F) (buf : Block Byte) (x : Console) :
    Option (Except Console ((FILE Console × Int) × Mem)) :=
  vfprintf e.env (vlogfWrite e) (vlogfFile buf x) fmt ap e.m

def logf (e : Failing F) (fmt : List Byte) (ap : VaList F) (buf : Block Byte) (x : Console) :
    Option (Except Console ((FILE Console × Int) × Mem)) :=
  vlogf e fmt ap buf x

/-! ## A small program -/

/-- A console that takes everything. -/
def quiet : Console := ⟨[], fun _ => 0⟩

/-- A word as an argument. -/
def word (i : Word) : Arg Finite := ⟨i, ⟨false, .nan⟩⟩

/-- The arguments of a call that passes words. -/
def passing (ws : List Word) : VaList Finite := ⟨ws.map word, word 0⟩

/-- The locale `C`, and nothing in the locals. -/
def smallEnv : Env Finite := realEnv (fun _ => 0) false 0 (fun _ => word 0) fun _ => 0

end Synthol.Logging
