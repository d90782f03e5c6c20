import Synthol.Stdio.PlainFile

/-!
# Streams whose system calls fail

Written to a file, whatever the system calls answer. When a call fails, `__stdio_write` drops what is pending and sets
`F_ERR`; what comes later opens the stream for writing again. So bytes may be lost, but

- what the file has got is part of the text, in order and each byte once;
- no byte is lost unless `F_ERR` is set, and then it stays set;
- a function that does not return what it returns on a plain file has set `F_ERR`

(`run_noticed`).
-/

namespace Synthol.Stdio

open X86

/-! ## The invariant -/

/-- Of the text `t` the file, which was `x₀` when the offset was `o`, has got a part and another one is pending; that is
all of it while there has been no error. The pointers are in order. -/
structure Handed (x₀ : Contents) (o : Nat) (t : List Byte) (f : FILE Fd) : Prop where
  base : f.wbase.getD 0 ≤ f.wpos.getD 0
  pos : f.wpos.getD 0 ≤ f.wend.getD 0
  fits : f.wend.getD 0 ≤ f.bufSize
  wrote : ∃ d, f.cookie.file = x₀.write o d ∧ f.cookie.off = o + d.length ∧ (d ++ f.pending).Sublist t ∧
    (f.flags &&& fErr = 0 → d ++ f.pending = t)

/-- `F_ERR` is set afterwards, or there has been no error and `r` is returned. -/
def Noticed (flags : BitVec 32) {α : Type} (r : α) (flags' : BitVec 32) (r' : α) : Prop :=
  flags' &&& fErr = 0 → flags &&& fErr = 0 ∧ r' = r

theorem or_fErr (flags : BitVec 32) : (flags ||| fErr) &&& fErr ≠ 0 := by
  intro h0
  have hz := congrArg (·.getLsbD 5) h0
  simp [fErr] at hz

namespace Handed

variable {x₀ : Contents} {o : Nat} {t : List Byte} {f : FILE Fd} (h : Handed x₀ o t f)
include h

/-- After an error, text may be lost. -/
theorem lost (he : f.flags &&& fErr ≠ 0) (s : List Byte) : Handed x₀ o (t ++ s) f := by
  obtain ⟨d, hfile, hoff, hsub, -⟩ := h.wrote
  exact ⟨h.base, h.pos, h.fits, d, hfile, hoff, hsub.trans (List.sublist_append_left t s), fun h0 => absurd h0 he⟩

theorem store {s : Frag} (hs : s.length ≤ f.space) : Handed x₀ o (t ++ s) (f.store s) := by
  obtain ⟨d, hfile, hoff, hsub, hall⟩ := h.wrote
  have hbase := h.base
  have hpos := h.pos
  unfold FILE.space at hs
  have hpend : d ++ (f.store s).pending = (d ++ f.pending) ++ s := by
    rw [FILE.pending_store s h.base, List.append_assoc]
  refine ⟨?_, ?_, h.fits, d, hfile, hoff, ?_, fun h0 => ?_⟩
  · simp only [FILE.store_wbase, FILE.store_wpos, Option.getD_some]
    omega
  · simp only [FILE.store_wpos, FILE.store_wend, Option.getD_some]
    omega
  · rw [hpend]
    exact hsub.append (List.Sublist.refl s)
  · rw [hpend, hall h0]

/-- **`__stdio_write`**: all has been written, or there is an error. -/
theorem write (s : Frag) : Handed x₀ o (t ++ s) (stdioWrite f s).1 ∧ (stdioWrite f s).1.pending = [] ∧
    (((stdioWrite f s).2 = s.length ∧ (stdioWrite f s).1.flags = f.flags ∧ (stdioWrite f s).1.wpos ≠ none ∧
        (stdioWrite f s).1.space = f.bufSize) ∨
      ((s ≠ [] → (stdioWrite f s).2 < s.length) ∧ (stdioWrite f s).1.flags = f.flags ||| fErr)) := by
  obtain ⟨d, hfile, hoff, hsub, hall⟩ := h.wrote
  obtain ⟨all, k, hw⟩ := stdioWrite_wrote f s
  generalize stdioWrite f s = r at hw
  have hfile' : r.1.cookie.file = x₀.write o (d ++ (f.pending ++ s).take k) := by
    rw [hw.got.file, hfile, hoff, Contents.write_append]
  have hoff' : r.1.cookie.off = o + (d ++ (f.pending ++ s).take k).length := by
    rw [hw.got.off, hoff, List.length_append, Nat.add_assoc]
  cases all with
  | true =>
    have hend : r.1 = { f with
      cookie := r.1.cookie, wend := some f.bufSize, wpos := some 0, wbase := some 0 } := hw.ended
    obtain rfl := hw.eq_of_all rfl
    have hflags : r.1.flags = f.flags := by rw [hend]
    have hpend : r.1.pending = [] := by
      rw [hend]
      rfl
    have htext : d ++ (f.pending ++ s).take (f.pending ++ s).length ++ r.1.pending = (d ++ f.pending) ++ s := by
      rw [hpend, List.take_length, List.append_nil, List.append_assoc]
    refine ⟨⟨?_, ?_, ?_, _, hfile', hoff', ?_, fun h0 => ?_⟩, hpend, .inl ⟨?_, hflags, ?_, ?_⟩⟩
    · rw [hend]
    · rw [hend]
      exact Nat.zero_le _
    · rw [hend]
      exact Nat.le_refl _
    · rw [htext]
      exact hsub.append (List.Sublist.refl s)
    · rw [htext, hall (by rwa [← hflags])]
    · rw [hw.ret]
      omega
    · rw [hend]
      exact Option.some_ne_none _
    · rw [hend]
      rfl
  | false =>
    obtain ⟨-, hend⟩ := hw.ended
    have hflags : r.1.flags = f.flags ||| fErr := by rw [hend]
    have hpend : r.1.pending = [] := by
      rw [hend]
      rfl
    refine ⟨⟨?_, ?_, ?_, _, hfile', hoff', ?_, fun h0 => ?_⟩, hpend, .inr ⟨fun hs => ?_, hflags⟩⟩
    · rw [hend]
    · rw [hend]
    · rw [hend]
      exact Nat.zero_le _
    · rw [hpend, List.append_nil]
      have htake := (List.take_sublist k (f.pending ++ s)).append_left d
      rw [← List.append_assoc] at htake
      exact htake.trans (hsub.append (List.Sublist.refl s))
    · rw [hflags] at h0
      exact absurd h0 (or_fErr _)
    · have hlt := hw.lt_of_not rfl (by simp [hs])
      have hpos := List.length_pos_iff.mpr hs
      rw [hw.ret]
      omega

/-- The write function, as `__overflow` and `__fwritex` use it. -/
theorem write_noticed (s : Frag) : Noticed f.flags s.length (stdioWrite f s).1.flags (stdioWrite f s).2 := by
  obtain ⟨-, -, ⟨hret, hflags, -, -⟩ | ⟨-, hflags⟩⟩ := h.write s
  · intro h0
    rw [hflags] at h0
    exact ⟨h0, hret⟩
  · intro h0
    rw [hflags] at h0
    exact absurd h0 (or_fErr _)

theorem fwriteOpen (s : Frag) : ∃ f' n, Stdio.fwriteOpen writer s f = .ok (f', n) ∧ Handed x₀ o (t ++ s) f' ∧
    Noticed f.flags s.length f'.flags n := by
  unfold Stdio.fwriteOpen
  split
  · exact ⟨_, _, rfl, (h.write s).1, h.write_noticed s⟩
  · rename_i hs
    have hi : (if f.lbf ≥ 0 then lineEnd s s.length else 0) ≤ s.length := by
      split
      · exact lineEnd_le s _
      · exact Nat.zero_le _
    generalize (if f.lbf ≥ 0 then lineEnd s s.length else 0) = i at hi
    by_cases hi0 : i = 0
    · simp only [hi0, if_true]
      exact ⟨f.store s, s.length, rfl, h.store (by omega), fun h0 => ⟨h0, rfl⟩⟩
    · have hlen : (s.take i).length = i := by rw [List.length_take, Nat.min_eq_left hi]
      have hne : s.take i ≠ [] := List.length_pos_iff.mp (by omega)
      obtain ⟨hk, -, ⟨hret, hflags, -, hspace⟩ | ⟨hret, hflags⟩⟩ := h.write (s.take i)
      · rw [hlen] at hret
        refine ⟨(stdioWrite f (s.take i)).1.store (s.drop i), s.length, ?_, ?_, fun h0 => ?_⟩
        · simp only [hi0, if_false, bind, Except.bind, pure, Except.pure, hret, Nat.lt_irrefl]
        · have hfits := h.fits
          have hst := hk.store (s := s.drop i) (by
            rw [hspace, List.length_drop]
            unfold FILE.space at hs
            omega)
          rwa [List.append_assoc, List.take_append_drop] at hst
        · rw [FILE.store_flags, hflags] at h0
          exact ⟨h0, rfl⟩
      · have hlt : (stdioWrite f (s.take i)).2 < i := by
          have hr := hret hne
          omega
        have herr : (stdioWrite f (s.take i)).1.flags &&& fErr ≠ 0 := by
          rw [hflags]
          exact or_fErr _
        refine ⟨_, _, by simp only [hi0, if_false, bind, Except.bind, pure, Except.pure, if_pos hlt]; rfl, ?_,
          fun h0 => absurd h0 herr⟩
        have hl := hk.lost herr (s.drop i)
        rwa [List.append_assoc, List.take_append_drop] at hl

theorem pending_closed (hend : f.wend = none) : f.pending = [] := by
  have hpos := h.pos
  rw [hend, Option.getD_none] at hpos
  rw [FILE.pending, Nat.eq_zero_of_le_zero hpos, Nat.zero_sub, Block.slice_zero]

theorem towrite (hend : f.wend = none) : Handed x₀ o t (Stdio.towrite f).2 ∧
    Noticed f.flags 0 (Stdio.towrite f).2.flags (Stdio.towrite f).1 := by
  have hpend := h.pending_closed hend
  obtain ⟨d, hfile, hoff, hsub, hall⟩ := h.wrote
  rw [hpend, List.append_nil] at hsub hall
  unfold Stdio.towrite
  simp only
  split
  · have herr := or_fErr f.flags
    refine ⟨⟨h.base, h.pos, h.fits, d, hfile, hoff, ?_, fun h0 => absurd h0 herr⟩, fun h0 => absurd h0 herr⟩
    have hsame : FILE.pending { f with mode := f.mode ||| (f.mode - 1), flags := f.flags ||| fErr } = f.pending := rfl
    rw [hsame, hpend, List.append_nil]
    exact hsub
  · refine ⟨⟨Nat.le_refl _, Nat.zero_le _, Nat.le_refl _, d, hfile, hoff, ?_, fun h0 => ?_⟩, fun h0 => ⟨h0, rfl⟩⟩
    · rw [FILE.pending, Nat.sub_self, Block.slice_zero, List.append_nil]
      exact hsub
    · rw [FILE.pending, Nat.sub_self, Block.slice_zero, List.append_nil]
      exact hall h0

end Handed

/-! ## The functions -/

/-- The stream has not been read. -/
structure Written (x₀ : Contents) (o : Nat) (t : List Byte) (x : Stream) : Prop where
  rpos : x.rpos = none
  rend : x.rend = none
  kept : Handed x₀ o t x.toFILE

theorem Noticed.trans {α β : Type} {k k' k'' : BitVec 32} {r r' : α} {s s' : β} (h : Noticed k r k' r')
    (h' : Noticed k' s k'' s') : Noticed k s k'' s' :=
  fun h0 => ⟨(h (h' h0).1).1, (h' h0).2⟩

/-- A function that failed at opening the stream. -/
theorem Noticed.failed {k k' : BitVec 32} {r : Int} (h : Noticed k 0 k' r) (hr : r ≠ 0) :
    k' &&& fErr ≠ 0 :=
  fun h0 => hr (h h0).2

namespace Written

variable {x₀ : Contents} {o : Nat} {t : List Byte} {x : Stream} (h : Written x₀ o t x)
include h

theorem towrite (hend : x.wend = none) :
    Written x₀ o t x.towrite.2 ∧ Noticed x.flags 0 x.towrite.2.flags x.towrite.1 := by
  obtain ⟨hk, hn⟩ := h.kept.towrite hend
  simp only [Stream.towrite]
  split
  · exact ⟨⟨rfl, rfl, hk⟩, hn⟩
  · exact ⟨⟨h.rpos, h.rend, hk⟩, hn⟩

theorem lost (he : x.flags &&& fErr ≠ 0) (s : List Byte) : Written x₀ o (t ++ s) x :=
  ⟨h.rpos, h.rend, h.kept.lost he s⟩

theorem fwriteOpen (s : Frag) : Written x₀ o (t ++ s) (Stream.fwriteOpen s x).2 ∧
    Noticed x.flags s.length (Stream.fwriteOpen s x).2.flags (Stream.fwriteOpen s x).1 := by
  obtain ⟨f', n, hf, hk, hn⟩ := h.kept.fwriteOpen s
  have heq : Stream.fwriteOpen s x = (n, { x with toFILE := f' }) := by
    rw [Stream.fwriteOpen, hf]
  rw [heq]
  exact ⟨⟨h.rpos, h.rend, hk⟩, hn⟩

theorem fwritex (s : Frag) : Written x₀ o (t ++ s) (Stream.fwritex s x).2 ∧
    Noticed x.flags s.length (Stream.fwritex s x).2.flags (Stream.fwritex s x).1 := by
  rw [Stream.fwritex]
  split
  · rename_i hend
    obtain ⟨ho, hn⟩ := h.towrite hend
    simp only
    split
    · rename_i hr
      have herr := hn.failed hr
      exact ⟨ho.lost herr s, fun h0 => absurd h0 herr⟩
    · obtain ⟨ho', hn'⟩ := ho.fwriteOpen s
      exact ⟨ho', hn.trans hn'⟩
  · exact h.fwriteOpen s

theorem fwrite (src : Block Byte) (size nmemb : Nat) : Written x₀ o (t ++ src.slice 0 (size * nmemb))
    (x.fwrite src size nmemb).2 ∧ Noticed x.flags (if size = 0 then 0 else nmemb) (x.fwrite src size nmemb).2.flags
      (x.fwrite src size nmemb).1 := by
  obtain ⟨ho, hn⟩ := h.fwritex (src.slice 0 (size * nmemb))
  rw [Block.length_slice] at hn
  refine ⟨ho, fun h0 => ⟨(hn h0).1, ?_⟩⟩
  simp only [Stream.fwrite]
  exact if_pos (hn h0).2

theorem store {c : Byte} (hlt : x.wpos.getD 0 < x.wend.getD 0) :
    Written x₀ o (t ++ [c]) { x with toFILE := x.toFILE.store [c] } :=
  ⟨h.rpos, h.rend, h.kept.store (by rw [FILE.space, List.length_singleton]; omega)⟩

theorem overflowOpen (c : Byte) : Written x₀ o (t ++ [c]) (x.overflowOpen c).2 ∧
    Noticed x.flags (c.toNat : Int) (x.overflowOpen c).2.flags (x.overflowOpen c).1 := by
  rw [Stream.overflowOpen]
  split
  · rename_i hlt
    exact ⟨h.store hlt.1, fun h0 => ⟨h0, rfl⟩⟩
  · have hw := h.kept.write_noticed [c]
    refine ⟨⟨h.rpos, h.rend, (h.kept.write [c]).1⟩, fun h0 => ⟨(hw h0).1, ?_⟩⟩
    exact if_neg (not_not.mpr (hw h0).2)

theorem overflow (c : Byte) : Written x₀ o (t ++ [c]) (x.overflow c).2 ∧
    Noticed x.flags (c.toNat : Int) (x.overflow c).2.flags (x.overflow c).1 := by
  rw [Stream.overflow]
  split
  · rename_i hend
    obtain ⟨ho, hn⟩ := h.towrite hend
    simp only
    split
    · rename_i hr
      have herr := hn.failed hr
      exact ⟨ho.lost herr [c], fun h0 => absurd h0 herr⟩
    · obtain ⟨ho', hn'⟩ := ho.overflowOpen c
      exact ⟨ho', hn.trans hn'⟩
  · exact h.overflowOpen c

theorem fputc (c : Byte) : Written x₀ o (t ++ [c]) (x.fputc c).2 ∧
    Noticed x.flags (c.toNat : Int) (x.fputc c).2.flags (x.fputc c).1 := by
  rw [Stream.fputc]
  split
  · rename_i hlt
    exact ⟨h.store hlt.2, fun h0 => ⟨h0, rfl⟩⟩
  · exact h.overflow c

/-- The write of nothing, where something is pending. -/
theorem sync : Written x₀ o t x.sync ∧ x.sync.pending = [] ∧ Noticed x.flags False x.sync.flags
    (x.dirty ∧ x.sync.wpos = none) := by
  rw [Stream.sync]
  split
  · obtain ⟨hk, hpend, hcase⟩ := h.kept.write []
    rw [List.append_nil] at hk
    refine ⟨⟨h.rpos, h.rend, hk⟩, hpend, fun h0 => ?_⟩
    have hflags : (x.write []).2.flags = (stdioWrite x.toFILE []).1.flags := rfl
    rw [hflags] at h0
    rcases hcase with ⟨-, hsame, hwpos, -⟩ | ⟨-, herr⟩
    · rw [hsame] at h0
      exact ⟨h0, eq_false fun hd => hwpos hd.2⟩
    · rw [herr] at h0
      exact absurd h0 (or_fErr _)
  · rename_i hdirty
    refine ⟨h, ?_, fun h0 => ⟨h0, eq_false fun hd => hdirty hd.1⟩⟩
    rw [FILE.pending, Nat.sub_eq_zero_of_le (Nat.not_lt.mp hdirty), Block.slice_zero]

/-- **`fflush`**: nothing is pending any more. -/
theorem fflush : Written x₀ o t x.fflush.2 ∧ x.fflush.2.pending = [] ∧
    Noticed x.flags (0 : Int) x.fflush.2.flags x.fflush.1 := by
  obtain ⟨ho, hpend, hn⟩ := h.sync
  rw [Stream.fflush]
  by_cases hfail : x.dirty ∧ x.sync.wpos = none
  · simp only [if_pos hfail]
    exact ⟨ho, hpend, fun h0 => (Eq.mp (hn h0).2 hfail).elim⟩
  · have hempty : ¬x.sync.rpos.getD 0 < x.sync.rend.getD 0 := by
      rw [ho.rpos, ho.rend]
      exact Nat.lt_irrefl _
    obtain ⟨d, hfile, hoff, hsub, hall⟩ := ho.kept.wrote
    rw [hpend] at hsub hall
    simp only [if_neg hfail, if_neg hempty]
    refine ⟨⟨rfl, rfl, Nat.le_refl _, Nat.le_refl _, Nat.zero_le _, d, hfile, hoff, hsub, hall⟩, rfl, fun h0 => ?_⟩
    exact ⟨(hn h0).1, rfl⟩

end Written

/-! ## Runs -/

/-- Written. -/
def Op.Writes : Op → Prop
  | .fputc _ | .fwrite _ _ _ | .fflush => True
  | _ => False

/-- The bytes that an operation puts out. -/
def Op.text : Op → List Byte
  | .fputc c => [c]
  | .fwrite src size nmemb => src.slice 0 (size * nmemb)
  | _ => []

section

variable {x₀ : Contents} {o : Nat}

theorem exec_written {t : List Byte} {x : Stream} {op : Op} (h : Written x₀ o t x) (hw : op.Writes) (a : PlainFile) :
    Written x₀ o (t ++ op.text) (x.exec op).2 ∧ Noticed x.flags (a.exec op).1 (x.exec op).2.flags (x.exec op).1 := by
  cases op with
  | fputc c =>
    obtain ⟨ho, hn⟩ := h.fputc c
    refine ⟨ho, fun h0 => ⟨(hn h0).1, ?_⟩⟩
    rw [Stream.exec, PlainFile.exec, (hn h0).2]
  | fwrite src size nmemb =>
    obtain ⟨ho, hn⟩ := h.fwrite src size nmemb
    refine ⟨ho, fun h0 => ⟨(hn h0).1, ?_⟩⟩
    rw [Stream.exec, PlainFile.exec, (hn h0).2, Nat.cast_ite, Nat.cast_zero]
  | fflush =>
    obtain ⟨ho, -, hn⟩ := h.fflush
    have htext : t ++ Op.fflush.text = t := List.append_nil t
    refine ⟨by rwa [htext], fun h0 => ⟨(hn h0).1, ?_⟩⟩
    rw [Stream.exec, PlainFile.exec, (hn h0).2]
  | fgetc => exact hw.elim
  | fread size nmemb => exact hw.elim
  | fseek off whence => exact hw.elim
  | ftell => exact hw.elim

theorem runs_written : ∀ {os : List Op} {t : List Byte} {x : Stream} (a : PlainFile), Written x₀ o t x →
    (∀ op ∈ os, op.Writes) → Written x₀ o (t ++ os.flatMap Op.text) (runs Stream.exec x os).2 ∧
      Noticed x.flags (runs PlainFile.exec a os).1 (runs Stream.exec x os).2.flags (runs Stream.exec x os).1
  | [], t, x, _, h, _ => ⟨by rwa [List.flatMap_nil, List.append_nil], fun h0 => ⟨h0, rfl⟩⟩
  | op :: os, t, x, a, h, hw => by
    obtain ⟨ho, hn⟩ := exec_written h (hw op (List.mem_cons_self ..)) a
    obtain ⟨hos, hns⟩ := runs_written (a.exec op).2 ho fun op' hop => hw op' (List.mem_cons_of_mem _ hop)
    rw [List.append_assoc] at hos
    refine ⟨by rwa [List.flatMap_cons], fun h0 => ?_⟩
    obtain ⟨h1, hrets⟩ := hns h0
    obtain ⟨h2, hret⟩ := hn h1
    exact ⟨h2, by rw [runs, runs, hret, hrets]⟩

/-- **No byte is lost unnoticed**, whatever the system calls answer and the stream is open for. After output and a flush
the file has got a part of the text, in order; unless `F_ERR` is set that is all of it, and every function has returned
what it does on a plain file. -/
theorem run_noticed (flags : BitVec 32) (x : Fd) (lbf : Int) (buf : Block Byte) (bufSize : Nat) {os : List Op}
    (hos : ∀ op ∈ os, op.Writes) :
    let y := (runs Stream.exec (.openedAs flags x lbf buf bufSize) os).2.fflush.2
    ∃ d, y.cookie.file = x.file.write x.off d ∧ d.Sublist (os.flatMap Op.text) ∧
      (y.flags &&& fErr = 0 → d = os.flatMap Op.text ∧
        (runs Stream.exec (.openedAs flags x lbf buf bufSize) os).1 = (runs PlainFile.exec (.ofFd x) os).1) := by
  have h : Written x.file x.off [] (.openedAs flags x lbf buf bufSize) := by
    refine ⟨rfl, rfl, Nat.le_refl _, Nat.le_refl _, Nat.zero_le _, [], ?_, rfl, List.Sublist.refl _, fun _ => rfl⟩
    rw [Contents.write_nil]
    rfl
  obtain ⟨ho, hn⟩ := runs_written (.ofFd x) h hos
  obtain ⟨hfl, hpend, hn'⟩ := ho.fflush
  obtain ⟨d, hfile, -, hsub, hall⟩ := hfl.kept.wrote
  rw [hpend, List.append_nil, List.nil_append] at hsub hall
  exact ⟨d, hfile, hsub, fun h0 => ⟨hall h0, (hn (hn' h0).1).2⟩⟩

end

/-- A file whose second transfer fails. -/
def oneFailure : Fd := { oneByOne with answer := fun n => if n = 1 then none else some 0 }

theorem run_noticed_oneFailure :
    let y := (runs Stream.exec (.openedAs fNord oneFailure eof (fun _ => 0) 2)
      [.fputc (ch 'x'), .fputc (ch 'y'), .fputc (ch 'z'), .fputc (ch 'u')]).2.fflush.2
    y.flags &&& fErr ≠ 0 ∧ ∃ d, y.cookie.file = oneFailure.file.write 0 d ∧
      d.Sublist [ch 'x', ch 'y', ch 'z', ch 'u'] := by
  have hos : ∀ op ∈ [Op.fputc (ch 'x'), .fputc (ch 'y'), .fputc (ch 'z'), .fputc (ch 'u')], op.Writes := by
    simp [Op.Writes]
  obtain ⟨d, hfile, hsub, -⟩ := run_noticed fNord oneFailure eof (fun _ => 0) 2 hos
  exact ⟨by decide, d, hfile, hsub⟩

end Synthol.Stdio
