import Mathlib.Data.List.GetD

/-!
# Blocks

A block is an array seen from its first cell on. `slice` reads a run of cells, `blit` overwrites one.

- a slice of what was just written is what was written (`slice_blit`), a slice before it is as it was
  (`slice_blit_before`);
- two writes in a row are one (`blit_append`), and the later of two in one place is the one that counts (`blit_cover`).
-/

namespace Synthol

/-- The cells of an array, by their distance from the first. -/
abbrev Block (α : Type) := Nat → α

namespace Block

variable {α : Type}

/-- The `n` cells from `o` on. -/
def slice (b : Block α) (o n : Nat) : List α := (List.range n).map fun k => b (o + k)

/-- `s` written from `o` on. -/
def blit (b : Block α) (o : Nat) (s : List α) : Block α := fun k => if o ≤ k then s.getD (k - o) (b k) else b k

@[simp] theorem length_slice (b : Block α) (o n : Nat) : (b.slice o n).length = n := by
  simp [slice]

@[simp] theorem slice_zero (b : Block α) (o : Nat) : b.slice o 0 = [] := rfl

theorem slice_congr {b b' : Block α} {o n : Nat} (h : ∀ k < n, b' (o + k) = b (o + k)) :
    b'.slice o n = b.slice o n := by
  apply List.map_congr_left
  intro k hk
  exact h k (List.mem_range.mp hk)

theorem slice_add (b : Block α) (o m n : Nat) : b.slice o (m + n) = b.slice o m ++ b.slice (o + m) n := by
  rw [slice, slice, slice, List.range_add, List.map_append, List.map_map]
  congr 1
  apply List.map_congr_left
  intro k _
  simp only [Function.comp_apply, Nat.add_assoc]

theorem slice_succ (b : Block α) (o n : Nat) : b.slice o (n + 1) = b.slice o n ++ [b (o + n)] := slice_add b o n 1

theorem take_slice (b : Block α) (o : Nat) {m n : Nat} (h : m ≤ n) : (b.slice o n).take m = b.slice o m := by
  obtain ⟨k, rfl⟩ := Nat.exists_eq_add_of_le h
  rw [slice_add, List.take_append_of_le_length (by simp), List.take_of_length_le (by simp)]

@[simp] theorem blit_nil (b : Block α) (o : Nat) : b.blit o [] = b := by
  funext k
  simp [blit]

theorem blit_before (b : Block α) {o k : Nat} (s : List α) (h : k < o) : b.blit o s k = b k :=
  if_neg (Nat.not_le.mpr h)

theorem blit_after (b : Block α) {o k : Nat} {s : List α} (h : o + s.length ≤ k) : b.blit o s k = b k := by
  rw [blit, if_pos (by omega), List.getD_eq_default _ _ (by omega)]

/-- Two writes in a row are one. -/
theorem blit_append (b : Block α) (o : Nat) (s t : List α) :
    (b.blit o s).blit (o + s.length) t = b.blit o (s ++ t) := by
  funext k
  by_cases hs : o + s.length ≤ k
  · rw [blit, if_pos hs, blit_after b hs, blit, if_pos (by omega), List.getD_append_right _ _ _ _ (by omega)]
    congr 1
    omega
  · rw [blit_before _ _ (by omega), blit, blit]
    split
    · rw [List.getD_append _ _ _ _ (by omega)]
    · rfl

/-- A write covers one that is not longer. -/
theorem blit_cover (b : Block α) (o : Nat) {s t : List α} (h : s.length ≤ t.length) :
    (b.blit o s).blit o t = b.blit o t := by
  funext k
  by_cases ht : k - o < t.length
  · simp only [blit, List.getD_eq_getElem _ _ ht]
    split <;> rfl
  · have hs : s.length ≤ k - o := by omega
    simp only [blit, List.getD_eq_default _ _ (Nat.not_lt.mp ht), List.getD_eq_default _ _ hs, ite_self]

theorem slice_blit_before (b : Block α) {o o' n : Nat} (s : List α) (h : o' + n ≤ o) :
    (b.blit o s).slice o' n = b.slice o' n :=
  slice_congr fun _ hk => blit_before b s (by omega)

/-- A slice of what was just written. -/
theorem slice_blit (b : Block α) (o : Nat) (s : List α) : (b.blit o s).slice o s.length = s := by
  apply List.ext_getElem
  · simp
  · intro k _ hk
    simp [slice, blit, hk]

end Block

end Synthol
