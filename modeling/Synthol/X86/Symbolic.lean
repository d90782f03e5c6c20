import Synthol.X86.Machine

/-!
# Symbolic states over one stack frame

Straight code that saves and restores registers in a frame is followed with symbolic states: each register and each
known stack slot holds a `Val`, that is a symbol, an offset from the frame's base, or the address of an instruction.
A `Valuation` says what the symbols and the base stand for, and `SState.Meets` what it means for a machine state to
be described.

- every update of a machine state has its update of descriptions (`Meets.set`, `Meets.store`, `Meets.status`, ...);
- a weaker description still holds (`Meets.mono`);
- a description only depends on memory from `rsp` on, so whatever runs below `rsp` keeps it (`Meets.frame`);
- a function that obeys the System V ABI takes a description at its entry to `afterReturn` (`Meets.afterReturn`).

The window is the bytes from `below` under the base to `above` over it. Slots are keyed by their offset.
-/

namespace Synthol.X86

/-! ## Values -/

/-- What is known of a word. -/
inductive Val (S : Type)
  | any
  /-- The symbol's value, except perhaps in the bits of `k`. -/
  | sym (s : S) (k : Word)
  | base (off : Word)
  | text (i : Nat)
  deriving DecidableEq

structure Valuation (S : Type) where
  sym : S → Word
  base : Word

section Values

variable {S : Type} (text : Nat → Word) (ρ : Valuation S)

def Val.Holds : Val S → Word → Prop
  | .any, _ => True
  | .sym s k, w => w ||| k = ρ.sym s ||| k
  | .base o, w => w = ρ.base + o
  | .text i, w => w = text i

/-- `v` says at least as much as the second value. -/
def Val.le [DecidableEq S] : Val S → Val S → Bool
  | _, .any => true
  | .sym s k, .sym t l => s == t && k ||| l == l
  | a, b => a == b

theorem Val.Holds.mono [DecidableEq S] {a b : Val S} {w : Word} (h : a.Holds text ρ w) (hl : a.le b = true) :
    b.Holds text ρ w := by
  cases b with
  | any => trivial
  | sym t l =>
    cases a with
    | sym s k =>
      simp only [Val.le, Bool.and_eq_true, beq_iff_eq] at hl
      obtain ⟨rfl, hk⟩ := hl
      simp only [Val.Holds] at h ⊢
      rw [← hk, ← BitVec.or_assoc, ← BitVec.or_assoc, h]
    | _ => simp [Val.le] at hl
  | base o =>
    cases a with
    | base o' => simp only [Val.le, beq_iff_eq, Val.base.injEq] at hl; subst hl; exact h
    | _ => simp [Val.le] at hl
  | text i =>
    cases a with
    | text j => simp only [Val.le, beq_iff_eq, Val.text.injEq] at hl; subst hl; exact h
    | _ => simp [Val.le] at hl

/-- An exactly known symbol. -/
theorem Val.Holds.exact {s : S} {w : Word} (h : (Val.sym s 0).Holds text ρ w) : w = ρ.sym s := by
  simpa [Val.Holds] using h

/-- Adding a constant. -/
def Val.add (v : Val S) (d : Word) : Val S :=
  match v with
  | .base o => .base (o + d)
  | _ => .any

theorem Val.Holds.add {v : Val S} {w : Word} (d : Word) (h : v.Holds text ρ w) : (v.add d).Holds text ρ (w + d) := by
  cases v with
  | base o => simp only [Val.Holds, Val.add] at h ⊢; rw [h, BitVec.add_assoc]
  | _ => trivial

/-- Forgetting the bits of `k`. -/
def Val.blur (v : Val S) (k : Word) : Val S :=
  match v with
  | .sym s l => .sym s (l ||| k)
  | _ => .any

theorem Val.Holds.blur {v : Val S} {w w' k : Word} (h : v.Holds text ρ w) (hw : w' ||| k = w ||| k) :
    (v.blur k).Holds text ρ w' := by
  cases v with
  | sym s l =>
    simp only [Val.Holds, Val.blur] at h ⊢
    calc w' ||| (l ||| k) = (w' ||| k) ||| l := by rw [BitVec.or_comm l, BitVec.or_assoc]
      _ = (w ||| l) ||| k := by rw [hw, BitVec.or_assoc, BitVec.or_comm k, ← BitVec.or_assoc]
      _ = ρ.sym s ||| (l ||| k) := by rw [h, BitVec.or_assoc]
  | _ => trivial

end Values

/-! ## States -/

structure SState (S : Type) where
  reg : Reg → Val S
  slots : List (Word × Val S)
  zf : Option Bool

/-- What the analysis of a program may assume: the window, what named data holds, and where outside the window byte
stores may go (as a symbol and a displacement). -/
structure Scope (G S : Type) where
  below : Nat
  above : Nat
  content : G → Val S
  free : List (S × Word)

namespace Scope

variable {G S : Type} (Sc : Scope G S)

/-- The distance of an offset from the lower end of the window. -/
def key (o : Word) : Nat := (o + BitVec.ofNat 64 Sc.below).toNat

/-- The `n` bytes at the offset are in the window. -/
def inside (o : Word) (n : Nat) : Bool := Sc.key o + n ≤ Sc.below + Sc.above

theorem inside_iff {o : Word} {n : Nat} : Sc.inside o n = true ↔ Sc.key o + n ≤ Sc.below + Sc.above := by
  simp [inside]

end Scope

namespace SState

variable {G S : Type} (Sc : Scope G S) (a : SState S)

/-- The offset `rsp` is at. -/
def sp : Option Word :=
  match a.reg .rsp with
  | .base o => some o
  | _ => none

/-- What the slot at an offset holds. -/
def slot (o : Word) : Val S :=
  match a.slots.find? (fun s => s.1 == o) with
  | some s => s.2
  | none => .any

def set (r : Reg) (v : Val S) : SState S := { a with reg := Function.update a.reg r v }

/-- The slot at `o` now holds `v`; slots that overlap it are forgotten. -/
def put (o : Word) (v : Val S) : SState S :=
  { a with slots := (o, v) :: a.slots.filter fun s => 8 ≤ (s.1 - o).toNat && 8 ≤ (o - s.1).toNat }

/-- Slots under `rsp` are forgotten. -/
def trim : SState S :=
  match a.sp with
  | some p => { a with slots := a.slots.filter fun s => Sc.key p ≤ Sc.key s.1 }
  | none => a

/-- `rsp` is in the window and every slot lies between it and the upper end. -/
def ok : Bool :=
  match a.sp with
  | some p => Sc.inside p 0 && a.slots.all fun s => Sc.key p ≤ Sc.key s.1 && Sc.inside s.1 8
  | none => false

/-- The machine state is as described. -/
structure Meets (text : Nat → Word) (ρ : Valuation S) (c : Cpu) (m : Mem) : Prop where
  reg : ∀ r, (a.reg r).Holds text ρ (c.gpr r)
  slots : ∀ s ∈ a.slots, s.2.Holds text ρ (m.read64 (ρ.base + s.1))
  zf : ∀ b, a.zf = some b → c.zf = b

/-- `a` says at least as much as `b`. -/
def le [DecidableEq S] (b : SState S) : Bool :=
  Reg.all.all (fun r => (a.reg r).le (b.reg r)) &&
    b.slots.all (fun s => a.slots.any fun t => t.1 == s.1 && t.2.le s.2) && (b.zf == none || a.zf == b.zf)

end SState

/-! ## The window in memory -/

/-- The window lies in the stack segment `[lo, hi)`, and its base is not the null address. -/
structure Scope.Fits {G S : Type} (Sc : Scope G S) (ρ : Valuation S) (lo hi : Nat) : Prop where
  lo_le : lo + Sc.below ≤ ρ.base.toNat
  le_hi : ρ.base.toNat + Sc.above ≤ hi
  hi_lt : hi + 8 < 2 ^ 64
  base_ne : ρ.base ≠ 0

section Window

variable {G S : Type} {Sc : Scope G S} {ρ : Valuation S} {lo hi : Nat} (hf : Sc.Fits ρ lo hi)
include hf

/-- An address in the window, as a number. -/
theorem Scope.Fits.toNat_add {o : Word} (h : Sc.inside o 0 = true) :
    (ρ.base + o).toNat + Sc.below = ρ.base.toNat + Sc.key o := by
  have h1 := hf.lo_le
  have h2 := hf.le_hi
  have h3 := hf.hi_lt
  have hlt := ρ.base.isLt
  have hk := Sc.inside_iff.mp h
  have hb : (BitVec.ofNat 64 Sc.below).toNat = Sc.below := by
    rw [BitVec.toNat_ofNat, Nat.mod_eq_of_lt (by omega)]
  unfold Scope.key at hk ⊢
  simp only [BitVec.toNat_add, hb] at hk ⊢
  omega

/-- The bytes of a slot, as numbers. -/
theorem Scope.Fits.within {o x : Word} {n : Nat} (h : Sc.inside o n = true) (hx : Within (ρ.base + o) n x) :
    (ρ.base + o).toNat ≤ x.toNat ∧ x.toNat < (ρ.base + o).toNat + n ∧
      (ρ.base + o).toNat + n ≤ ρ.base.toNat + Sc.above := by
  rw [Sc.inside_iff] at h
  have ha := hf.toNat_add (o := o) (Sc.inside_iff.mpr (by omega))
  have h1 := hf.lo_le
  have h2 := hf.le_hi
  have h3 := hf.hi_lt
  unfold Within at hx
  generalize ρ.base + o = p at *
  have hp : p.toNat + n ≤ ρ.base.toNat + Sc.above := by omega
  have := x.isLt
  have := p.isLt
  rw [BitVec.toNat_sub] at hx
  omega

end Window


/-! ## Updates -/

section Updates

variable {G S : Type} {Sc : Scope G S} {text : Nat → Word} {ρ : Valuation S} {a : SState S} {c : Cpu} {m : Mem}

theorem SState.Meets.slot (h : a.Meets text ρ c m) (o : Word) : (a.slot o).Holds text ρ (m.read64 (ρ.base + o)) := by
  unfold SState.slot
  split
  · rename_i s hs
    have hk := List.find?_some hs
    simp only [beq_iff_eq] at hk
    rw [← hk]
    exact h.slots s (List.mem_of_find?_eq_some hs)
  · trivial

theorem SState.Meets.goto (h : a.Meets text ρ c m) (p : Word) : a.Meets text ρ (c.goto p) m :=
  ⟨h.reg, h.slots, h.zf⟩

theorem SState.Meets.set (h : a.Meets text ρ c m) {r : Reg} {v : Val S} {w : Word} (hv : v.Holds text ρ w) :
    (a.set r v).Meets text ρ (c.set r w) m := by
  refine ⟨fun q => ?_, h.slots, h.zf⟩
  by_cases hq : q = r
  · subst hq
    simpa [SState.set] using hv
  · rw [Cpu.set_other _ _ _ hq]
    simpa [SState.set, Function.update_of_ne hq] using h.reg q

/-- An arithmetic result sets ZF; what the description says of it has to be known. -/
theorem SState.Meets.status (h : a.Meets text ρ c m) {z : Bool} {o : Option Bool} (ho : ∀ b, o = some b → z = b)
    (st : Word) : SState.Meets { a with zf := o } text ρ (c.status z st) m :=
  ⟨h.reg, h.slots, fun b hb => by rw [Cpu.status_zf]; exact ho b hb⟩

/-- A store of at most a word at offset `o`. -/
theorem SState.Meets.store (h : a.Meets text ρ c m) {o : Word} {v : Val S} {n x : Nat} (hn : n ≤ 8)
    (hv : v.Holds text ρ ((m.store (ρ.base + o) n x).read64 (ρ.base + o))) :
    (a.put o v).Meets text ρ c (m.store (ρ.base + o) n x) := by
  refine ⟨h.reg, fun s hs => ?_, h.zf⟩
  simp only [SState.put, List.mem_cons, List.mem_filter, Bool.and_eq_true, decide_eq_true_eq] at hs
  rcases hs with rfl | ⟨hs, h1, h2⟩
  · exact hv
  · have hd1 : ρ.base + o - (ρ.base + s.1) = o - s.1 := by bv_omega
    have hd2 : ρ.base + s.1 - (ρ.base + o) = s.1 - o := by bv_omega
    have hap : Apart (ρ.base + s.1) 8 (ρ.base + o) n :=
      apart_of_sub (by rw [hd1]; exact h2) (by rw [hd2]; omega)
    rw [Mem.read64_store_apart x hap]
    exact h.slots s hs

theorem SState.Meets.trim (h : a.Meets text ρ c m) (Sc : Scope G S) : (a.trim Sc).Meets text ρ c m := by
  unfold SState.trim
  split
  · exact ⟨h.reg, fun s hs => h.slots s (List.mem_filter.mp hs).1, h.zf⟩
  · exact h

theorem SState.Meets.mono [DecidableEq S] {b : SState S} (h : a.Meets text ρ c m) (hl : a.le b = true) :
    b.Meets text ρ c m := by
  simp only [SState.le, Bool.and_eq_true, List.all_eq_true, List.any_eq_true, beq_iff_eq, Bool.or_eq_true] at hl
  obtain ⟨⟨hr, hs⟩, hz⟩ := hl
  refine ⟨fun r => (h.reg r).mono text ρ (hr r (Reg.mem_all r)), fun s hsb => ?_, fun z hz' => ?_⟩
  · obtain ⟨t, ht, hk, hv⟩ := hs s hsb
    rw [← hk]
    exact (h.slots t ht).mono text ρ hv
  · rcases hz with hn | he
    · rw [hn] at hz'; cases hz'
    · exact h.zf z (he.trans hz')

theorem SState.sp_eq {p : Word} (h : a.sp = some p) : a.reg .rsp = .base p := by
  unfold SState.sp at h
  split at h
  · rename_i o ho
    rw [ho, Option.some.inj h]
  · cases h

theorem SState.ok_sp (h : a.ok Sc = true) : ∃ p, a.sp = some p ∧ Sc.inside p 0 = true ∧
    ∀ s ∈ a.slots, Sc.key p ≤ Sc.key s.1 ∧ Sc.inside s.1 8 = true := by
  unfold SState.ok at h
  split at h
  · rename_i p hp
    simp only [Bool.and_eq_true, List.all_eq_true, decide_eq_true_eq] at h
    exact ⟨p, hp, h.1, h.2⟩
  · cases h

theorem SState.Meets.rsp (h : a.Meets text ρ c m) {p : Word} (hp : a.sp = some p) : c.gpr .rsp = ρ.base + p := by
  have hr := h.reg .rsp
  rw [SState.sp_eq hp] at hr
  exact hr

/-- The bytes of a slot lie between `rsp` and the end of the segment. -/
theorem SState.Meets.slot_above {lo hi : Nat} (h : a.Meets text ρ c m) (hf : Sc.Fits ρ lo hi) (hok : a.ok Sc = true)
    {s : Word × Val S} (hs : s ∈ a.slots) {x : Word} (hx : Within (ρ.base + s.1) 8 x) :
    (c.gpr .rsp).toNat ≤ x.toNat ∧ x.toNat < hi := by
  obtain ⟨p, hp, hin, hall⟩ := SState.ok_sp hok
  obtain ⟨hk, hsi⟩ := hall s hs
  have h1 := hf.within hsi hx
  have h2 := hf.toNat_add hin
  have h3 := hf.toNat_add (o := s.1) (Sc.inside_iff.mpr (by rw [Sc.inside_iff] at hsi; omega))
  have h4 := hf.le_hi
  rw [h.rsp hp]
  omega

/-- Memory changes under `rsp` keep a description. -/
theorem SState.Meets.frame {lo hi : Nat} {m' : Mem} (h : a.Meets text ρ c m) (hf : Sc.Fits ρ lo hi)
    (hok : a.ok Sc = true) (hm : ∀ x : Word, (c.gpr .rsp).toNat ≤ x.toNat → x.toNat < hi → m' x = m x) :
    a.Meets text ρ c m' := by
  refine ⟨h.reg, fun s hs => ?_, h.zf⟩
  rw [Mem.read64_congr fun x hx => ?_]
  · exact h.slots s hs
  · obtain ⟨h1, h2⟩ := h.slot_above hf hok hs hx
    exact hm x h1 h2

/-- A description says nothing about `rip`, cs, ss and the flags other than ZF. -/
theorem SState.Meets.congr {c' : Cpu} (h : a.Meets text ρ c m) (hg : c'.gpr = c.gpr) (hz : c'.zf = c.zf) :
    a.Meets text ρ c' m :=
  ⟨fun r => by rw [hg]; exact h.reg r, h.slots, fun b hb => by rw [hz]; exact h.zf b hb⟩

end Updates

/-! ## Calls to other code -/

section Calls

variable {G S : Type} (Sc : Scope G S)

/-- What is left of a description when a function called there has returned. -/
def SState.afterReturn (a : SState S) : SState S :=
  match a.sp with
  | some p =>
    { reg := fun r => if r = .rsp then .base (p + 8) else if r.calleeSaved then a.reg r else .any
      slots := a.slots.filter fun s => Sc.key (p + 8) ≤ Sc.key s.1
      zf := none }
  | none => a

/-- Register file and memory after a function called at `e` has returned by the System V ABI: it gives back the
callee-saved registers, pops its return address, and has written nothing in its caller's part of the stack. -/
structure SysVReturn (hi : Nat) (e s : State) : Prop where
  saved : ∀ r, r.calleeSaved = true → s.cpu.gpr r = e.cpu.gpr r
  rsp : s.cpu.gpr .rsp = e.cpu.gpr .rsp + 8
  rip : s.cpu.rip = e.mem.read64 (e.cpu.gpr .rsp)
  mem : ∀ x : Word, (e.cpu.gpr .rsp).toNat + 8 ≤ x.toNat → x.toNat < hi → s.mem x = e.mem x

variable {Sc} {text : Nat → Word} {ρ : Valuation S} {a : SState S} {e s : State} {lo hi : Nat}

theorem SState.Meets.afterReturn (h : a.Meets text ρ e.cpu e.mem) (hf : Sc.Fits ρ lo hi) (hok : a.ok Sc = true)
    (hs : SysVReturn hi e s) (hr : (a.afterReturn Sc).ok Sc = true) :
    (a.afterReturn Sc).Meets text ρ s.cpu s.mem := by
  obtain ⟨p, hp, hin, hall⟩ := SState.ok_sp hok
  have hrsp := h.rsp hp
  obtain ⟨q, hq, hqin, hqall⟩ := SState.ok_sp hr
  simp only [SState.afterReturn, hp] at hq hqall ⊢
  have hqp : q = p + 8 := by simpa [SState.sp] using hq.symm
  subst hqp
  have hp0 := hf.toNat_add hin
  have hin' := Sc.inside_iff.mp hin
  have h3 := hf.lo_le
  have h4 := hf.le_hi
  have h5 := hf.hi_lt
  have h8 : (ρ.base + (p + 8)).toNat = (e.cpu.gpr .rsp).toNat + 8 := by
    rw [hrsp, ← BitVec.add_assoc]
    generalize ρ.base + p = w at *
    bv_omega
  refine ⟨fun r => ?_, fun t ht => ?_, fun b hb => by cases hb⟩
  · by_cases hrr : r = .rsp
    · subst hrr
      simp only [if_true]
      rw [hs.rsp, hrsp, BitVec.add_assoc]
      rfl
    · simp only [hrr, if_false]
      split
      · rename_i hc
        rw [hs.saved r hc]
        exact h.reg r
      · trivial
  · rw [List.mem_filter] at ht
    obtain ⟨hk, hti⟩ := hqall t (List.mem_filter.mpr ht)
    have h1 := hf.toNat_add hqin
    have h2 := hf.toNat_add (o := t.1) (Sc.inside_iff.mpr (by rw [Sc.inside_iff] at hti; omega))
    rw [Mem.read64_congr fun x hx => ?_]
    · exact h.slots t ht.1
    · have hw := hf.within hti hx
      exact hs.mem x (by omega) (by omega)

end Calls

end Synthol.X86
