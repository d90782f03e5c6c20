import Synthol.Stdio.Convert

/-!
# Padding

The three calls of `pad` around a field, as text: the field is moved to one side of its width, or the zeros go between
its prefix and its digits.
-/

namespace Synthol.Stdio

open X86

/-- A field of the width `w`: `pre` stays in front of the zeros. -/
def padded (w : Int) (fl : Flags) (pre body : Frag) : Frag :=
  let gap := (w - (pre.length + body.length)).toNat
  if fl.leftAdj then pre ++ body ++ List.replicate gap (ch ' ')
  else if fl.zeroPad then pre ++ List.replicate gap (ch '0') ++ body
  else List.replicate gap (ch ' ') ++ pre ++ body

theorem length_padded (w : Int) (fl : Flags) (pre body : Frag) :
    ((padded w fl pre body).length : Int) = max w (pre.length + body.length) := by
  unfold padded
  simp only
  split
  · simp only [List.length_append, List.length_replicate]
    omega
  · split
    · simp only [List.length_append, List.length_replicate]
      omega
    · simp only [List.length_append, List.length_replicate]
      omega

theorem sign_length_le (neg : Bool) (fl : Flags) : (sign neg fl).length ≤ 1 := by
  unfold sign
  split
  · exact Nat.le_refl 1
  · split
    · exact Nat.le_refl 1
    · split
      · exact Nat.le_refl 1
      · exact Nat.zero_le 1

/-- The blocks of 256 bytes make one run. -/
theorem pad_flatten (c : Byte) (w l : Int) (fl : Flags) :
    (pad c w l fl).flatten = if fl.leftAdj || fl.zeroPad then [] else List.replicate (w - l).toNat c := by
  unfold pad
  by_cases hf : (fl.leftAdj || fl.zeroPad) = true
  · simp only [hf, Bool.true_or, if_true, List.flatten_nil]
  · rw [if_neg hf, Bool.eq_false_of_not_eq_true hf, Bool.false_or]
    by_cases hl : l ≥ w
    · have h0 : (w - l).toNat = 0 := by omega
      rw [if_pos (decide_eq_true hl), h0]
      rfl
    · have hdm := Nat.div_add_mod' (w - l).toNat 256
      rw [if_neg (by simpa using hl)]
      simp only [List.flatten_append, List.flatten_singleton, List.flatten_replicate_replicate,
        List.replicate_append_replicate, hdm]

theorem Flags.proper_none : ({} : Flags).Proper := fun h => absurd h.1 Bool.false_ne_true

/-- No flags. -/
theorem zeros_flatten (c : Byte) (w l : Int) : (pad c w l {}).flatten = List.replicate (w - l).toNat c :=
  pad_flatten c w l {}

/-- The pads around a prefix and a body that is counted by its length. -/
theorem pads_flatten {fl : Flags} (hfl : fl.Proper) (w : Int) (pre body : Frag) :
    (pad (ch ' ') w (pre.length + body.length) fl).flatten ++ pre ++
      (pad (ch '0') w (pre.length + body.length) fl.flipZero).flatten ++ body ++
      (pad (ch ' ') w (pre.length + body.length) fl.flipLeft).flatten = padded w fl pre body := by
  simp only [pad_flatten, Flags.flipZero, Flags.flipLeft, padded]
  cases hl : fl.leftAdj <;> cases hz : fl.zeroPad <;> simp
  exact absurd ⟨hl, hz⟩ hfl

end Synthol.Stdio
