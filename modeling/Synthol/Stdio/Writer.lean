import Synthol.Stdio.File

/-!
# Streams as texts

A stream stands for the text it has accepted: what its `write` function has taken, then what is pending in the buffer
(`Holds`). A `write` function is `Flushing` when it takes the pending bytes before its argument and leaves an
empty buffer. On such a stream

- `__fwritex` appends its argument, whichever way it goes (`Flushing.fwriteOpen`);
- a run of `out` appends the fragments in order (`Flushing.outs`);
- a `write` of nothing leaves nothing pending (`Flushing.drain`).

Apart from that, a run of `out` ends when each call of `write` does (`Returning.outs`).
-/

namespace Synthol.Stdio

open X86

variable {σ ε : Type}

/-- Open for writing without an error, the pointers in order. -/
structure FILE.Open (f : FILE σ) : Prop where
  noErr : f.flags &&& fErr = 0
  wend : f.wend ≠ none
  wpos : f.wpos ≠ none
  base : f.wbase.getD 0 ≤ f.wpos.getD 0
  pos : f.wpos.getD 0 ≤ f.wend.getD 0
  fits : f.wend.getD 0 ≤ f.bufSize

/-- Storing what there is space for. -/
theorem FILE.Open.store {f : FILE σ} (h : f.Open) {s : Frag} (hs : s.length ≤ f.space) : (f.store s).Open := by
  have hpos := h.pos
  have hbase := h.base
  unfold FILE.space at hs
  refine ⟨h.noErr, h.wend, Option.some_ne_none _, ?_, ?_, h.fits⟩
  · simp only [FILE.store_wbase, FILE.store_wpos, Option.getD_some]
    omega
  · simp only [FILE.store_wpos, FILE.store_wend, Option.getD_some]
    omega

/-- A stream whose `write` function has taken `d` (`took cookie d`) holds `d` and the pending bytes. -/
structure Holds (took : σ → List Byte → Prop) (f : FILE σ) (t : List Byte) : Prop where
  isOpen : f.Open
  taken : ∃ d, took f.cookie d ∧ d ++ f.pending = t

theorem Holds.store {took : σ → List Byte → Prop} {f : FILE σ} {t : List Byte} (h : Holds took f t) {s : Frag}
    (hs : s.length ≤ f.space) : Holds took (f.store s) (t ++ s) := by
  obtain ⟨d, hd, rfl⟩ := h.taken
  refine ⟨h.isOpen.store hs, d, hd, ?_⟩
  rw [FILE.pending_store s h.isOpen.base, List.append_assoc]

/-- The pending bytes are taken first, then the argument, all of it; the buffer is empty afterwards. -/
structure Flushing (write : Write σ ε) (took : σ → List Byte → Prop) : Prop where
  flush : ∀ (f : FILE σ) (d : List Byte) (s : Frag), f.Open → took f.cookie d →
    ∃ f', write f s = .ok (f', s.length) ∧ f'.Open ∧ took f'.cookie (d ++ f.pending ++ s) ∧ f'.pending = [] ∧
      f.space ≤ f'.space

namespace Flushing

section

variable {write : Write σ ε} {took : σ → List Byte → Prop} (hw : Flushing write took) {f : FILE σ} {t : List Byte}
  (h : Holds took f t)
include hw h

/-- A call of `write` appends its argument. -/
theorem direct (s : Frag) : ∃ f', write f s = .ok (f', s.length) ∧ Holds took f' (t ++ s) ∧ f.space ≤ f'.space := by
  obtain ⟨d, hd, rfl⟩ := h.taken
  obtain ⟨f', hf, ho, ht, hp, hsp⟩ := hw.flush f d s h.isOpen hd
  exact ⟨f', hf, ⟨ho, _, ht, by rw [hp, List.append_nil]⟩, hsp⟩

/-- A `write` of nothing leaves nothing pending. -/
theorem drain : ∃ f', write f [] = .ok (f', 0) ∧ f'.Open ∧ took f'.cookie t ∧ f'.pending = [] := by
  obtain ⟨d, hd, rfl⟩ := h.taken
  obtain ⟨f', hf, ho, ht, hp, -⟩ := hw.flush f d [] h.isOpen hd
  rw [List.append_nil] at ht
  exact ⟨f', hf, ho, ht, hp⟩

theorem fwriteOpen (s : Frag) : ∃ f', fwriteOpen write s f = .ok (f', s.length) ∧ Holds took f' (t ++ s) := by
  unfold Stdio.fwriteOpen
  split
  · obtain ⟨f', hf, hh, -⟩ := hw.direct h s
    exact ⟨f', hf, hh⟩
  · rename_i hs
    -- up to the last newline at once, the rest through the buffer
    have hi : (if f.lbf ≥ 0 then lineEnd s s.length else 0) ≤ s.length := by
      split
      · exact lineEnd_le s _
      · exact Nat.zero_le _
    generalize (if f.lbf ≥ 0 then lineEnd s s.length else 0) = i at hi
    by_cases hi0 : i = 0
    · simp only [hi0, if_true]
      exact ⟨f.store s, rfl, h.store (by omega)⟩
    · have hlen : (s.take i).length = i := by rw [List.length_take, Nat.min_eq_left hi]
      obtain ⟨f', hf, hh, hsp⟩ := hw.direct h (s.take i)
      have hrest : (s.drop i).length ≤ f'.space := by
        rw [List.length_drop]
        omega
      refine ⟨f'.store (s.drop i), ?_, ?_⟩
      · simp only [hi0, if_false, hf, hlen]
        simp [bind, Except.bind, pure, Except.pure]
      · have hst := hh.store hrest
        rwa [List.append_assoc, List.take_append_drop] at hst

theorem out (s : Frag) : ∃ f', out write f s = .ok f' ∧ Holds took f' (t ++ s) := by
  obtain ⟨f', hf, hh⟩ := hw.fwriteOpen h s
  refine ⟨f', ?_, hh⟩
  rw [Stdio.out, if_pos h.isOpen.noErr, fwritex, if_neg h.isOpen.wend, hf]
  rfl

end

/-- **A run of `out`** appends the fragments in order. -/
theorem outs {write : Write σ ε} {took : σ → List Byte → Prop} (hw : Flushing write took) :
    ∀ (fs : List Frag) {f : FILE σ} {t : List Byte}, Holds took f t →
      ∃ f', outs write f fs = .ok f' ∧ Holds took f' (t ++ fs.flatten)
  | [], f, t, h => ⟨f, rfl, by rwa [List.flatten_nil, List.append_nil]⟩
  | s :: fs, f, t, h => by
    obtain ⟨f₁, hf₁, h₁⟩ := hw.out h s
    obtain ⟨f₂, hf₂, h₂⟩ := outs hw fs h₁
    refine ⟨f₂, ?_, ?_⟩
    · rw [Stdio.outs, hf₁]
      exact hf₂
    · rwa [List.flatten_cons, ← List.append_assoc]

end Flushing

/-! ## Calls that return -/

/-- On cookies with the property `ok`, `write` returns and keeps the property. -/
def Returning (write : Write σ ε) (ok : σ → Prop) : Prop :=
  ∀ (f : FILE σ) (s : Frag), ok f.cookie → ∃ f' n, write f s = .ok (f', n) ∧ ok f'.cookie

namespace Returning

variable {write : Write σ ε} {ok : σ → Prop} (hw : Returning write ok)
include hw

theorem fwriteOpen {f : FILE σ} (h : ok f.cookie) (s : Frag) :
    ∃ f' n, fwriteOpen write s f = .ok (f', n) ∧ ok f'.cookie := by
  unfold Stdio.fwriteOpen
  split
  · exact hw f s h
  · generalize (if f.lbf ≥ 0 then lineEnd s s.length else 0) = i
    by_cases hi : i = 0
    · simp only [hi, if_true]
      exact ⟨_, _, rfl, h⟩
    · obtain ⟨f', n, hf, hok⟩ := hw f (s.take i) h
      simp only [hi, if_false, hf, bind, Except.bind, pure, Except.pure]
      split
      · exact ⟨_, _, rfl, hok⟩
      · exact ⟨_, _, rfl, hok⟩

theorem out {f : FILE σ} (h : ok f.cookie) (s : Frag) : ∃ f', out write f s = .ok f' ∧ ok f'.cookie := by
  have hto : ok (towrite f).2.cookie := by
    unfold towrite
    simp only
    split <;> exact h
  unfold Stdio.out
  split
  · unfold fwritex
    split
    · split
      · exact ⟨_, rfl, hto⟩
      · obtain ⟨f', n, hf, hok⟩ := hw.fwriteOpen hto s
        exact ⟨f', by rw [hf]; rfl, hok⟩
    · obtain ⟨f', n, hf, hok⟩ := hw.fwriteOpen h s
      exact ⟨f', by rw [hf]; rfl, hok⟩
  · exact ⟨f, rfl, h⟩

theorem outs : ∀ (fs : List Frag) {f : FILE σ}, ok f.cookie → ∃ f', outs write f fs = .ok f' ∧ ok f'.cookie
  | [], f, h => ⟨f, rfl, h⟩
  | s :: fs, f, h => by
    obtain ⟨f₁, hf₁, h₁⟩ := hw.out h s
    obtain ⟨f₂, hf₂, h₂⟩ := outs fs h₁
    refine ⟨f₂, ?_, h₂⟩
    rw [Stdio.outs, hf₁]
    exact hf₂

end Returning

end Synthol.Stdio
