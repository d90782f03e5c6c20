import Synthol.X86.SymExec

/-!
# Annotated programs

An annotated program carries a symbolic state at some positions, at least wherever control joins, and one at each
label defined elsewhere that it goes to. The states in between are computed (`Annotated.row`), and `Annotated.check`
executes every instruction once and compares.

- `Annotated.step`: in a checked program, one instruction leads from a described state to a described state;
- `Annotated.ret`: so does the return of a function that was called and obeys the System V ABI.
-/

namespace Synthol.X86

structure Annotated (G L S : Type) where
  prog : Program G L
  scope : Scope G S
  annot : Nat → Option (SState S)
  out : L → Option (SState S)

namespace Annotated

variable {G L S : Type} [DecidableEq L] [DecidableEq S] (A : Annotated G L S)

/-- The state in which control falls through from position `i`. -/
def fall (i : Nat) (a : SState S) (ins : Instr G L) : Option (SState S) :=
  match effect A.scope A.prog i a ins with
  | some b =>
    match exits A.prog i b ins with
    | some l => if l.contains (.goto (i + 1)) then some (b.trim A.scope) else none
    | none => none
  | none => none

/-- The states at positions `i`, `i + 1`, ..., when `cur` is what falls through to `i`. -/
def rowsFrom : Nat → Option (SState S) → List (Instr G L) → List (Option (SState S))
  | _, _, [] => []
  | i, cur, ins :: rest =>
    let a := (A.annot i).or cur
    a :: rowsFrom (i + 1) (a.bind fun b => A.fall i b ins) rest

def rows : List (Option (SState S)) := A.rowsFrom 0 none A.prog.code

/-- The state at a position; none for dead code. -/
def row (i : Nat) : Option (SState S) := A.rows[i]?.join

/-- The state `b` is what is annotated at the exit. -/
def covered (b : SState S) : Exit L → Bool
  | .goto j =>
    match A.row j with
    | some c => b.le c
    | none => false
  | .out l =>
    match A.out l with
    | some c => b.le c && c.ok A.scope
    | none => false

/-- A call of a function defined elsewhere comes back to what is annotated after it. -/
def returns (i : Nat) : Instr G L → Bool
  | .call l =>
    match A.prog.pos l, A.out l, A.row (i + 1) with
    | none, some c, some d =>
      (c.afterReturn A.scope).ok A.scope && (c.afterReturn A.scope).le d &&
        c.sp.any fun p => c.slot p == .text (i + 1)
    | none, _, _ => false
    | some _, _, _ => true
  | _ => true

def checkAt (i : Nat) (ins : Instr G L) (a : SState S) : Bool :=
  a.ok A.scope && A.returns i ins &&
    match ins with
    | .iretq => true
    | _ =>
      match effect A.scope A.prog i a ins with
      | some b =>
        match exits A.prog i b ins with
        | some l => l.all fun x => A.covered (b.trim A.scope) x
        | none => false
      | none => false

/-- Every position with a state passes `checkAt`. -/
def check : Bool :=
  (List.range A.prog.code.length).all fun i =>
    match A.prog.code[i]?, A.row i with
    | some ins, some a => A.checkAt i ins a
    | _, _ => true

/-- Where control may go from a position. -/
def succs (i : Nat) : List (Exit L) :=
  match A.row i, A.prog.code[i]? with
  | some a, some ins =>
    match effect A.scope A.prog i a ins with
    | some b => (exits A.prog i b ins).getD []
    | none => []
  | _, _ => []

/-! ## Soundness -/

/-- The machine is at position `i`, in a state described there. -/
structure At (E : Placed A.prog) (ρ : Valuation S) (s : State) (i : Nat) (a : SState S) : Prop where
  rip : s.cpu.rip = E.text i
  row : A.row i = some a
  meets : a.Meets E.text ρ s.cpu s.mem

/-- The machine is at a label defined elsewhere, in the state annotated there. -/
structure AtOut (E : Placed A.prog) (ρ : Valuation S) (s : State) (l : L) (c : SState S) : Prop where
  rip : s.cpu.rip = E.label l
  out : A.out l = some c
  ok : c.ok A.scope = true
  meets : c.Meets E.text ρ s.cpu s.mem

variable {A} {E : Placed A.prog} {ρ : Valuation S} {s : State} {i : Nat} {ins : Instr G L} {a : SState S} {lo hi : Nat}

theorem length_rowsFrom : ∀ (code : List (Instr G L)) (i : Nat) (cur : Option (SState S)),
    (A.rowsFrom i cur code).length = code.length
  | [], _, _ => rfl
  | _ :: rest, _, _ => congrArg (· + 1) (length_rowsFrom rest _ _)

theorem rowsFrom_annot {a : SState S} : ∀ (code : List (Instr G L)) (i : Nat) (cur : Option (SState S)) (k : Nat),
    k < code.length → A.annot (i + k) = some a → (A.rowsFrom i cur code)[k]? = some (some a)
  | [], _, _, _, hk, _ => by simp at hk
  | _ :: _, i, cur, 0, _, ha => by
    simp only [Nat.add_zero] at ha
    simp [rowsFrom, ha]
  | _ :: rest, i, cur, k + 1, hk, ha =>
    rowsFrom_annot rest (i + 1) _ k (Nat.lt_of_succ_lt_succ hk) (by rw [← ha]; congr 1; omega)

/-- An annotation is the state at its position. -/
theorem row_of_annot (hlt : i < A.prog.code.length) (ha : A.annot i = some a) : A.row i = some a := by
  rw [row, rows, rowsFrom_annot A.prog.code 0 none i hlt (by rw [Nat.zero_add]; exact ha)]
  rfl

/-- There is an instruction where the machine is. -/
theorem At.fetch (h : A.At E ρ s i a) : ∃ ins, A.prog.code[i]? = some ins := by
  have hr := h.row
  have hlt := (List.getElem?_eq_some_iff.mp (Option.join_eq_some_iff.mp hr)).1
  rw [rows, length_rowsFrom] at hlt
  exact ⟨_, List.getElem?_eq_getElem hlt⟩

/-- The machine is at that position and no other. -/
theorem At.pos_eq (h : A.At E ρ s i a) {j : Nat} (hf : Fetch E s.cpu j ins) : j = i := by
  obtain ⟨ins', hi⟩ := h.fetch
  exact (Fetch.unique hf ⟨h.rip, hi⟩).1

theorem checkAt_of_check (hc : A.check = true) (hi : A.prog.code[i]? = some ins) (ha : A.row i = some a) :
    A.checkAt i ins a = true := by
  have hlt := (List.getElem?_eq_some_iff.mp hi).1
  have h := List.all_eq_true.mp hc i (List.mem_range.mpr hlt)
  rw [hi, ha] at h
  exact h

theorem ok_of_check (hc : A.check = true) (hi : A.prog.code[i]? = some ins) (ha : A.row i = some a) :
    a.ok A.scope = true := by
  have h := checkAt_of_check hc hi ha
  simp only [checkAt, Bool.and_eq_true] at h
  exact h.1.1

/-- What the check of an instruction that is not `iretq` computed. -/
theorem effect_of_check (hc : A.check = true) (hi : A.prog.code[i]? = some ins) (ha : A.row i = some a)
    (hne : ins ≠ .iretq) : ∃ b l, effect A.scope A.prog i a ins = some b ∧ exits A.prog i b ins = some l ∧
      ∀ x ∈ l, A.covered (b.trim A.scope) x = true := by
  have h := checkAt_of_check hc hi ha
  unfold checkAt at h
  rw [Bool.and_eq_true] at h
  replace h := h.2
  split at h
  · exact absurd rfl hne
  · split at h
    · rename_i b hb
      split at h
      · rename_i l hl
        exact ⟨b, l, hb, hl, List.all_eq_true.mp h⟩
      · cases h
    · cases h

/-- The machine has taken an exit. -/
def Reached (A : Annotated G L S) (E : Placed A.prog) (ρ : Valuation S) (s : State) : Exit L → Prop
  | .goto j => ∃ c, A.At E ρ s j c
  | .out l => ∃ c, A.AtOut E ρ s l c

/-- **One instruction** of a checked program. -/
theorem step (hc : A.check = true) (hf : A.scope.Fits ρ lo hi) (hcl : A.scope.Clear E.toLink ρ lo hi)
    (hg : A.scope.Reads E ρ s.mem) (h : A.At E ρ s i a) (hins : A.prog.code[i]? = some ins) (hne : ins ≠ .iretq)
    (st : Word) : ∃ x ∈ A.succs i, A.Reached E ρ (exec E.toLink (E.text (i + 1)) st s ins) x := by
  obtain ⟨b, l, hb, hl, hall⟩ := effect_of_check hc hins h.row hne
  have hm := (effect_sound h.meets hf hcl hg (ok_of_check hc hins h.row) st hb).trim A.scope
  obtain ⟨x, hx, hrip⟩ := exits_sound h.meets st hb hl
  have hxs : x ∈ A.succs i := by
    simp only [succs, h.row, hins, hb, hl, Option.getD_some]
    exact hx
  refine ⟨x, hxs, ?_⟩
  have hcov := hall x hx
  cases x with
  | goto j =>
    simp only [covered] at hcov
    split at hcov
    · rename_i c hj
      exact ⟨c, hrip, hj, hm.mono hcov⟩
    · cases hcov
  | out k =>
    simp only [covered] at hcov
    split at hcov
    · rename_i c hk
      rw [Bool.and_eq_true] at hcov
      exact ⟨c, hrip, hk, hcov.2, hm.mono hcov.1⟩
    · cases hcov

/-- Named data is left alone by an instruction of a checked program. -/
theorem reads (hc : A.check = true) (hf : A.scope.Fits ρ lo hi) (hcl : A.scope.Clear E.toLink ρ lo hi)
    (hg : A.scope.Reads E ρ s.mem) (h : A.At E ρ s i a) (hins : A.prog.code[i]? = some ins) (hne : ins ≠ .iretq)
    (next st : Word) : A.scope.Reads E ρ (exec E.toLink next st s ins).mem := by
  obtain ⟨b, -, hb, -⟩ := effect_of_check hc hins h.row hne
  exact hg.exec h.meets hf hcl next st hb

/-- So is memory outside the window, but for the bytes a byte store may go to. -/
theorem frame (hc : A.check = true) (hf : A.scope.Fits ρ lo hi) (h : A.At E ρ s i a)
    (hins : A.prog.code[i]? = some ins) (hne : ins ≠ .iretq) (next st : Word) {x : Word} (hx : A.scope.Outside ρ x)
    (hb : ∀ n e, ins = .movbIM n e → ∀ f ∈ A.scope.free, x ≠ ρ.sym f.1 + f.2) :
    (exec E.toLink next st s ins).mem x = s.mem x := by
  obtain ⟨b, -, he, -⟩ := effect_of_check hc hins h.row hne
  exact exec_frame h.meets hf next st he hx hb

/-- **The return** of a function defined elsewhere that position `i` called. -/
theorem ret (hc : A.check = true) (hf : A.scope.Fits ρ lo hi) {l : L} {b c : SState S} {e : State}
    (hins : A.prog.code[i]? = some (.call l)) (ha : A.row i = some b) (hl : A.prog.pos l = none)
    (h : A.AtOut E ρ e l c) (hs : SysVReturn hi e s) : ∃ d, A.At E ρ s (i + 1) d := by
  have hk := checkAt_of_check hc hins ha
  simp only [checkAt, Bool.and_eq_true] at hk
  replace hk := hk.1.2
  simp only [returns, hl, h.out] at hk
  cases hd : A.row (i + 1) with
  | none => rw [hd] at hk; cases hk
  | some d =>
    rw [hd] at hk
    simp only [Bool.and_eq_true, Option.any_eq_true, beq_iff_eq] at hk
    obtain ⟨⟨hok, hle⟩, p, hp, hslot⟩ := hk
    refine ⟨d, ?_, hd, (h.meets.afterReturn hf h.ok hs hok).mono hle⟩
    have hv := h.meets.slot p
    rw [hslot] at hv
    rw [hs.rip, h.meets.rsp hp]
    exact hv

end Annotated

end Synthol.X86
