import Synthol.X86.Symbolic

/-!
# Symbolic execution

`effect` gives the symbolic state after an instruction and `exits` where control may go from there; `none` means that
the instruction does something the analysis does not follow (a store it cannot place, a jump through an unknown
register).

- `effect_sound`: the machine's next state is described by `effect`;
- `exits_sound`: it is at one of the `exits`;
- `exec_frame`: outside the window, memory changes only under a byte store, and only where `Scope.free` allows.
-/

namespace Synthol.X86

/-- Where control goes: to a position of the program, or to a label defined elsewhere. -/
inductive Exit (L : Type)
  | goto (i : Nat)
  | out (l : L)
  deriving DecidableEq

/-- A test of the position that control goes to, if it stays in the program. -/
def Exit.within {L : Type} (p : Nat → Bool) : Exit L → Bool
  | .goto i => p i
  | .out _ => true

section Defs

variable {G L S : Type} [DecidableEq S] (Sc : Scope G S) (P : Program G L)

/-- The offset of a memory operand in the window. -/
def SState.offset (a : SState S) : Ea G → Option Word
  | .base d r =>
    match a.reg r with
    | .base o => some (o + d)
    | _ => none
  | .glob _ => none

/-- What the word at a memory operand holds. -/
def SState.load (a : SState S) (e : Ea G) : Val S :=
  match e with
  | .glob g => Sc.content g
  | .base .. =>
    match a.offset e with
    | some o => a.slot o
    | none => .any

/-- A store into the window at offset `o`. -/
def SState.storeAt (a : SState S) (o : Word) (v : Val S) : Option (SState S) :=
  if Sc.inside o 8 then some (a.put o v) else none

/-- Adding to a register: the sum is known to be nonzero when it is the base. -/
def SState.adjust (a : SState S) (r : Reg) (d : Word) : SState S :=
  let v := (a.reg r).add d
  { a.set r v with zf := if v = .base 0 then some false else none }

/-- A byte may be stored there: outside the window, at an exactly known address. -/
def SState.mayStoreByte (a : SState S) : Ea G → Bool
  | .base d r =>
    match a.reg r with
    | .sym s k => k == 0 && Sc.free.contains (s, d)
    | _ => false
  | .glob _ => false

def SState.push (a : SState S) (v : Val S) : Option (SState S) :=
  match a.sp with
  | some p => (a.set .rsp (.base (p - 8))).storeAt Sc (p - 8) v
  | none => none

/-- The state after the instruction at position `i`. -/
def effect (i : Nat) (a : SState S) : Instr G L → Option (SState S)
  | .movRR s d => some (a.set d (a.reg s))
  | .movMR e d => some (a.set d (a.load Sc e))
  | .movRM s e => (a.offset e).bind fun o => a.storeAt Sc o (a.reg s)
  | .movIM _ e => (a.offset e).bind fun o => a.storeAt Sc o .any
  | .movlMR _ d => some (a.set d .any)
  | .movbIM _ e => if a.mayStoreByte Sc e then some a else none
  | .cmovz s d =>
    match a.zf with
    | some true => some (a.set d (a.reg s))
    | some false => some a
    | none => some (a.set d .any)
  | .lea l d =>
    match P.pos l with
    | some j => some (a.set d (.text j))
    | none => some (a.set d .any)
  | .addIR n d => some (a.adjust d n)
  | .subIR n d => some (a.adjust d (-n))
  | .shrlIR _ d | .andbMR _ d | .andbIR _ d => some { a.set d .any with zf := none }
  | .andlIM n e =>
    (a.offset e).bind fun o => { a with zf := none }.storeAt Sc o ((a.slot o).blur ((~~~n).setWidth 64))
  | .orbIM n e => (a.offset e).bind fun o => { a with zf := none }.storeAt Sc o ((a.slot o).blur (n.setWidth 64))
  | .testbIM .. | .testlIM .. => some { a with zf := none }
  | .pushR s => a.push Sc (a.reg s)
  | .pushI _ => a.push Sc .any
  | .popR d =>
    match a.sp with
    | some p => some ((a.set .rsp (.base (p + 8))).set d (a.slot p))
    | none => none
  | .call _ => a.push Sc (.text (i + 1))
  | .callR _ => a.push Sc (.text (i + 1))
  | .cld | .jmp _ | .jnz _ => some a
  | .iretq => none

/-- Where a label is. -/
def Program.dest (l : L) : Exit L :=
  match P.pos l with
  | some j => .goto j
  | none => .out l

/-- Where control may go from the instruction at position `i`, in the state `a` after it. -/
def exits (i : Nat) (a : SState S) : Instr G L → Option (List (Exit L))
  | .jmp l | .call l => some [P.dest l]
  | .jnz l => some [.goto (i + 1), P.dest l]
  | .callR r =>
    match a.reg r with
    | .text j => some [.goto j]
    | _ => none
  | .iretq => none
  | _ => some [.goto (i + 1)]

end Defs

/-- The address of an exit. -/
def Exit.addr {G L : Type} {P : Program G L} (E : Placed P) : Exit L → Word
  | .goto j => E.text j
  | .out l => E.label l

/-! ## Soundness -/

/-- Named data and the bytes that may be stored outside the window are apart from the stack segment `[lo, hi)`, and
from each other. -/
structure Scope.Clear {G L S : Type} (Sc : Scope G S) (E : Link G L) (ρ : Valuation S) (lo hi : Nat) : Prop where
  glob_stack : ∀ g, Sc.content g ≠ .any → ∀ x, Within (E.glob g) 8 x → ¬(lo ≤ x.toNat ∧ x.toNat < hi)
  free_stack : ∀ f ∈ Sc.free, ¬(lo ≤ (ρ.sym f.1 + f.2).toNat ∧ (ρ.sym f.1 + f.2).toNat < hi)
  free_glob : ∀ g, Sc.content g ≠ .any → ∀ f ∈ Sc.free, ¬Within (E.glob g) 8 (ρ.sym f.1 + f.2)

section Sound

variable {G L S : Type} [DecidableEq S] {Sc : Scope G S} {P : Program G L} {E : Placed P} {ρ : Valuation S}
  {a b : SState S} {s : State} {lo hi : Nat}

/-- Named data holds what the scope says. -/
def Scope.Reads (Sc : Scope G S) (E : Placed P) (ρ : Valuation S) (m : Mem) : Prop :=
  ∀ g, (Sc.content g).Holds E.text ρ (m.read64 (E.glob g))

omit [DecidableEq S] in
theorem SState.Meets.offset (h : a.Meets E.text ρ s.cpu s.mem) {e : Ea G} {o : Word} (ho : a.offset e = some o) :
    e.addr E.toLink s.cpu = ρ.base + o := by
  cases e with
  | base d r =>
    simp only [SState.offset] at ho
    split at ho
    · rename_i o' hr
      have hv := h.reg r
      rw [hr] at hv
      rw [← Option.some.inj ho, Ea.addr, hv, BitVec.add_assoc]
    · cases ho
  | glob g => cases ho

omit [DecidableEq S] in
theorem SState.Meets.load (h : a.Meets E.text ρ s.cpu s.mem) (hg : Sc.Reads E ρ s.mem) (e : Ea G) :
    (a.load Sc e).Holds E.text ρ (s.mem.read64 (e.addr E.toLink s.cpu)) := by
  cases e with
  | base d r =>
    simp only [SState.load]
    split
    · rename_i o ho
      rw [h.offset ho]
      exact h.slot o
    · trivial
  | glob g => exact hg g

omit [DecidableEq S] in
theorem SState.Meets.storeAt {c : Cpu} {m : Mem} (h : a.Meets E.text ρ c m) {o : Word} {v : Val S} {n x : Nat}
    (hn : n ≤ 8) (hb : a.storeAt Sc o v = some b)
    (hv : v.Holds E.text ρ ((m.store (ρ.base + o) n x).read64 (ρ.base + o))) :
    b.Meets E.text ρ c (m.store (ρ.base + o) n x) := by
  unfold SState.storeAt at hb
  split at hb
  · rw [← Option.some.inj hb]
    exact h.store hn hv
  · cases hb

omit [DecidableEq S] in
theorem SState.Meets.push (h : a.Meets E.text ρ s.cpu s.mem) {v : Val S} {w : Word} (hv : v.Holds E.text ρ w)
    (hb : a.push Sc v = some b) : b.Meets E.text ρ (s.push w).cpu (s.push w).mem := by
  unfold SState.push at hb
  split at hb
  · rename_i p hp
    have hrsp : s.cpu.gpr .rsp - 8 = ρ.base + (p - 8) := by
      rw [h.rsp hp]; bv_omega
    have hset := h.set (r := .rsp) (v := .base (p - 8)) (w := ρ.base + (p - 8)) rfl
    simp only [State.push, hrsp]
    exact hset.storeAt (n := 8) (by omega) hb (by rw [← Mem.write64, Mem.read64_write64]; exact hv)
  · cases hb

omit [DecidableEq S] in
/-- A push only changes `rsp`, which then holds an offset. -/
theorem SState.push_reg {v : Val S} (hb : a.push Sc v = some b) {r : Reg} {j : Nat} (hr : b.reg r = .text j) :
    a.reg r = .text j := by
  unfold SState.push at hb
  split at hb
  · rename_i p hp
    unfold SState.storeAt at hb
    split at hb
    · cases hb
      by_cases hrr : r = .rsp
      · subst hrr
        simp [SState.put, SState.set] at hr
      · simpa [SState.put, SState.set, Function.update_of_ne hrr] using hr
    · cases hb
  · cases hb

theorem SState.Meets.adjust (h : a.Meets E.text ρ s.cpu s.mem) (hbase : ρ.base ≠ 0) (r : Reg) (d st : Word) :
    (a.adjust r d).Meets E.text ρ ((s.cpu.set r (s.cpu.gpr r + d)).status (s.cpu.gpr r + d == 0) st) s.mem := by
  have hv := (h.reg r).add E.text ρ d
  refine (h.set hv).status (fun z hz => ?_) st
  split at hz
  · rename_i hv0
    rw [hv0] at hv
    simp only [Val.Holds] at hv
    rw [← Option.some.inj hz, hv]
    simpa using hbase
  · cases hz

/-- An `or` or an `and` on the low bytes of a word leaves the bits outside its operand. -/
theorem read64_orb (m : Mem) (p : Word) (n : Byte) :
    (m.write8 p (m p ||| n)).read64 p ||| n.setWidth 64 = m.read64 p ||| n.setWidth 64 := by
  apply BitVec.eq_of_getLsbD_eq
  intro i hi
  rw [BitVec.getLsbD_or, BitVec.getLsbD_or, Mem.write8, Mem.getLsbD_read64_store m p _ (by omega) hi,
    BitVec.getLsbD_setWidth]
  split
  · rw [BitVec.testBit_toNat, BitVec.getLsbD_or, Mem.getLsbD_read64 m p hi]
    have h0 : i / 8 = 0 := by omega
    have h8 : i % 8 = i := by omega
    simp [h0, h8, hi]
  · rfl

theorem read64_andl (m : Mem) (p : Word) (n : BitVec 32) :
    (m.write32 p (m.read32 p &&& n)).read64 p ||| (~~~n).setWidth 64 = m.read64 p ||| (~~~n).setWidth 64 := by
  apply BitVec.eq_of_getLsbD_eq
  intro i hi
  rw [BitVec.getLsbD_or, BitVec.getLsbD_or, Mem.write32, Mem.getLsbD_read64_store m p _ (by omega) hi,
    BitVec.getLsbD_setWidth]
  split
  · rw [BitVec.testBit_toNat, BitVec.getLsbD_and, Mem.getLsbD_read32 m p (by omega), BitVec.getLsbD_not]
    have h32 : i < 32 := by omega
    cases (m.read64 p).getLsbD i <;> cases n.getLsbD i <;> simp [h32, hi]
  · rfl

omit [DecidableEq S] in
theorem SState.Meets.setAny {c : Cpu} {m : Mem} (h : a.Meets E.text ρ c m) (r : Reg) (w : Word) :
    (a.set r .any).Meets E.text ρ (c.set r w) m :=
  h.set (v := .any) trivial

omit [DecidableEq S] in
/-- Nothing is lost by knowing nothing of a register. -/
theorem SState.Meets.forget {c : Cpu} {m : Mem} (h : a.Meets E.text ρ c m) (r : Reg) :
    (a.set r .any).Meets E.text ρ c m := by
  have hs := h.set (r := r) (v := .any) (w := c.gpr r) trivial
  exact hs.congr (Function.update_eq_self r c.gpr).symm rfl

theorem SState.Meets.freeByte (h : a.Meets E.text ρ s.cpu s.mem) {e : Ea G} (he : a.mayStoreByte Sc e = true) :
    ∃ f ∈ Sc.free, e.addr E.toLink s.cpu = ρ.sym f.1 + f.2 := by
  cases e with
  | base d r =>
    simp only [SState.mayStoreByte] at he
    split at he
    · rename_i t k hr
      simp only [Bool.and_eq_true, beq_iff_eq, List.contains_iff_mem] at he
      obtain ⟨rfl, hm⟩ := he
      have hv := h.reg r
      rw [hr] at hv
      exact ⟨(t, d), hm, by rw [Ea.addr, hv.exact]⟩
    · cases he
  | glob g => cases he

/-- A byte store outside the window keeps a description. -/
theorem SState.Meets.storeByte (h : a.Meets E.text ρ s.cpu s.mem) (hf : Sc.Fits ρ lo hi)
    (hc : Sc.Clear E.toLink ρ lo hi) (hok : a.ok Sc = true) {e : Ea G} (he : a.mayStoreByte Sc e = true) (i : Byte) :
    a.Meets E.text ρ s.cpu (s.mem.write8 (e.addr E.toLink s.cpu) i) := by
  obtain ⟨f, hfm, hfa⟩ := h.freeByte he
  refine h.frame hf hok fun x hx hxi => Mem.write8_other i fun hxe => hc.free_stack f hfm ?_
  rw [← hfa, ← hxe]
  obtain ⟨p, hp, hin, -⟩ := SState.ok_sp hok
  have h1 := hf.toNat_add hin
  have h2 := hf.lo_le
  rw [h.rsp hp] at hx
  omega

/-- **One instruction**: the next state is described by the effect. -/
theorem effect_sound (h : a.Meets E.text ρ s.cpu s.mem) (hf : Sc.Fits ρ lo hi) (hc : Sc.Clear E.toLink ρ lo hi)
    (hg : Sc.Reads E ρ s.mem) (hok : a.ok Sc = true) {i : Nat} {ins : Instr G L} (st : Word)
    (he : effect Sc P i a ins = some b) :
    b.Meets E.text ρ (exec E.toLink (E.text (i + 1)) st s ins).cpu (exec E.toLink (E.text (i + 1)) st s ins).mem := by
  cases ins with
  | movRR r d =>
    cases he
    exact (h.set (h.reg r)).goto _
  | movMR e d =>
    cases he
    exact (h.set (h.load hg e)).goto _
  | movRM r e =>
    obtain ⟨o, ho, hs⟩ := Option.bind_eq_some_iff.mp he
    simp only [exec, h.offset ho]
    exact (h.storeAt (n := 8) (by omega) hs (by rw [← Mem.write64, Mem.read64_write64]; exact h.reg r)).goto _
  | movIM n e =>
    obtain ⟨o, ho, hs⟩ := Option.bind_eq_some_iff.mp he
    simp only [exec, h.offset ho]
    exact (h.storeAt (n := 8) (by omega) hs trivial).goto _
  | movlMR e d =>
    cases he
    exact (h.setAny _ _).goto _
  | movbIM n e =>
    simp only [effect] at he
    split at he
    · rename_i hm
      cases he
      exact (h.storeByte hf hc hok hm n).goto _
    · cases he
  | cmovz r d =>
    simp only [effect] at he
    split at he
    · rename_i hz
      cases he
      simp only [exec, h.zf _ hz, if_true]
      exact (h.set (h.reg r)).goto _
    · rename_i hz
      cases he
      simp only [exec, h.zf _ hz, Bool.false_eq_true, if_false]
      exact h.goto _
    · cases he
      simp only [exec]
      split
      · exact (h.setAny _ _).goto _
      · exact (h.forget d).goto _
  | lea l d =>
    simp only [effect] at he
    split at he
    · rename_i j hj
      cases he
      exact (h.set (v := .text j) (E.label_pos l j hj)).goto _
    · cases he
      exact (h.setAny _ _).goto _
  | addIR n d =>
    cases he
    exact (h.adjust hf.base_ne d n st).goto _
  | subIR n d =>
    cases he
    have ha := h.adjust hf.base_ne d (-n) st
    rw [← BitVec.sub_eq_add_neg] at ha
    exact ha.goto _
  | shrlIR n d =>
    cases he
    exact ((h.setAny _ _).status (by simp) st).goto _
  | andbMR e d =>
    cases he
    exact ((h.setAny _ _).status (by simp) st).goto _
  | andbIR n d =>
    cases he
    exact ((h.setAny _ _).status (by simp) st).goto _
  | andlIM n e =>
    obtain ⟨o, ho, hs⟩ := Option.bind_eq_some_iff.mp he
    simp only [exec, h.offset ho]
    refine SState.Meets.goto (SState.Meets.storeAt (n := 4) ?_ (by omega) hs ?_) _
    · exact h.status (o := none) (by simp) st
    · exact (h.slot o).blur E.text ρ (read64_andl s.mem (ρ.base + o) n)
  | orbIM n e =>
    obtain ⟨o, ho, hs⟩ := Option.bind_eq_some_iff.mp he
    simp only [exec, h.offset ho]
    refine SState.Meets.goto (SState.Meets.storeAt (n := 1) ?_ (by omega) hs ?_) _
    · exact h.status (o := none) (by simp) st
    · exact (h.slot o).blur E.text ρ (read64_orb s.mem (ρ.base + o) n)
  | testbIM n e =>
    cases he
    exact (h.status (by simp) st).goto _
  | testlIM n e =>
    cases he
    exact (h.status (by simp) st).goto _
  | pushR r =>
    have hb : a.push Sc (a.reg r) = some b := he
    exact (h.push (h.reg r) hb).goto _
  | pushI n =>
    have hb : a.push Sc .any = some b := he
    exact (h.push (v := .any) trivial hb).goto _
  | popR d =>
    simp only [effect] at he
    split at he
    · rename_i p hp
      cases he
      have hv : (a.slot p).Holds E.text ρ (s.mem.read64 (s.cpu.gpr .rsp)) := by
        rw [h.rsp hp]; exact h.slot p
      refine ((h.set ?_).set hv).goto _
      rw [h.rsp hp, BitVec.add_assoc]
      rfl
    · cases he
  | cld =>
    cases he
    exact (SState.Meets.congr h (Cpu.clearDF_gpr s.cpu) (Cpu.clearDF_zf s.cpu)).goto _
  | jmp l =>
    cases he
    exact h.goto _
  | jnz l =>
    cases he
    exact h.goto _
  | call l =>
    have hb : a.push Sc (.text (i + 1)) = some b := he
    exact (h.push (v := .text (i + 1)) (w := E.text (i + 1)) rfl hb).goto _
  | callR r =>
    have hb : a.push Sc (.text (i + 1)) = some b := he
    exact (h.push (v := .text (i + 1)) (w := E.text (i + 1)) rfl hb).goto _
  | iretq => cases he

/-- Control goes to one of the exits. -/
theorem exits_sound (h : a.Meets E.text ρ s.cpu s.mem) {i : Nat} {ins : Instr G L} {l : List (Exit L)} (st : Word)
    (he : effect Sc P i a ins = some b) (hx : exits P i b ins = some l) :
    ∃ x ∈ l, (exec E.toLink (E.text (i + 1)) st s ins).cpu.rip = x.addr E := by
  have hdest : ∀ k, E.label k = (P.dest k).addr E := by
    intro k
    unfold Program.dest
    split
    · rename_i j hj; exact E.label_pos k j hj
    · rfl
  cases ins with
  | jmp k =>
    cases hx
    exact ⟨_, List.mem_singleton.mpr rfl, hdest k⟩
  | call k =>
    cases hx
    exact ⟨_, List.mem_singleton.mpr rfl, hdest k⟩
  | jnz k =>
    cases hx
    cases hz : s.cpu.zf with
    | true => exact ⟨.goto (i + 1), by simp, by simp [exec, hz, Exit.addr]⟩
    | false => exact ⟨P.dest k, by simp, by simp [exec, hz, hdest k]⟩
  | callR r =>
    simp only [exits] at hx
    split at hx
    · rename_i j hr
      cases hx
      refine ⟨_, List.mem_singleton.mpr rfl, ?_⟩
      have hv := h.reg r
      rw [SState.push_reg he hr] at hv
      exact hv
    · cases hx
  | iretq => cases he
  | _ => exact ⟨.goto (i + 1), by cases hx; simp, rfl⟩

/-- An address outside the window. -/
def Scope.Outside (Sc : Scope G S) (ρ : Valuation S) (x : Word) : Prop :=
  ¬(ρ.base.toNat ≤ x.toNat + Sc.below ∧ x.toNat < ρ.base.toNat + Sc.above)

omit [DecidableEq S] in
theorem storeAt_outside (hf : Sc.Fits ρ lo hi) {o : Word} {v : Val S} {m : Mem} {n k : Nat} (hk : n ≤ 8)
    (hb : a.storeAt Sc o v = some b) {x : Word} (hx : Sc.Outside ρ x) : m.store (ρ.base + o) n k x = m x := by
  unfold SState.storeAt at hb
  split at hb
  · rename_i hin
    refine Mem.store_other k fun hw => hx ?_
    have h1 := hf.within hin (hw.mono hk)
    rw [Sc.inside_iff] at hin
    have h2 := hf.toNat_add (o := o) (Sc.inside_iff.mpr (by omega))
    omega
  · cases hb

omit [DecidableEq S] in
theorem push_outside (h : a.Meets E.text ρ s.cpu s.mem) (hf : Sc.Fits ρ lo hi) {v : Val S} {w : Word}
    (hb : a.push Sc v = some b) {x : Word} (hx : Sc.Outside ρ x) : (s.push w).mem x = s.mem x := by
  unfold SState.push at hb
  split at hb
  · rename_i p hp
    have hrsp : s.cpu.gpr .rsp - 8 = ρ.base + (p - 8) := by
      rw [h.rsp hp]; bv_omega
    simp only [State.push, hrsp]
    exact storeAt_outside hf (by omega) hb hx
  · cases hb

/-- **Frame**: outside the window, memory only changes under a byte store, and only at the bytes that are free. -/
theorem exec_frame (h : a.Meets E.text ρ s.cpu s.mem) (hf : Sc.Fits ρ lo hi) {i : Nat} {ins : Instr G L}
    (next st : Word)
    (he : effect Sc P i a ins = some b) {x : Word} (hx : Sc.Outside ρ x)
    (hb : ∀ n e, ins = .movbIM n e → ∀ f ∈ Sc.free, x ≠ ρ.sym f.1 + f.2) :
    (exec E.toLink next st s ins).mem x = s.mem x := by
  cases ins with
  | movRM r e | movIM n e | andlIM n e | orbIM n e =>
    obtain ⟨o, ho, hs⟩ := Option.bind_eq_some_iff.mp he
    simp only [exec, h.offset ho]
    exact storeAt_outside hf (by omega) hs hx
  | movbIM n e =>
    simp only [effect] at he
    split at he
    · rename_i hm
      obtain ⟨f, hfm, hfa⟩ := h.freeByte hm
      exact Mem.write8_other n (by rw [hfa]; exact hb n e rfl f hfm)
    · cases he
  | pushR r =>
    have hp : a.push Sc (a.reg r) = some b := he
    exact push_outside h hf hp hx
  | pushI n =>
    have hp : a.push Sc .any = some b := he
    exact push_outside h hf hp hx
  | call l =>
    have hp : a.push Sc (.text (i + 1)) = some b := he
    exact push_outside h hf hp hx
  | callR r =>
    have hp : a.push Sc (.text (i + 1)) = some b := he
    exact push_outside h hf hp hx
  | iretq => cases he
  | _ => rfl

/-- Named data still holds what the scope says. -/
theorem Scope.Reads.exec (hg : Sc.Reads E ρ s.mem) (h : a.Meets E.text ρ s.cpu s.mem) (hf : Sc.Fits ρ lo hi)
    (hc : Sc.Clear E.toLink ρ lo hi) {i : Nat} {ins : Instr G L} (next st : Word)
    (he : effect Sc P i a ins = some b) : Sc.Reads E ρ (exec E.toLink next st s ins).mem := by
  intro g
  by_cases hany : Sc.content g = .any
  · rw [hany]; trivial
  · rw [Mem.read64_congr fun x hx => exec_frame h hf next st he ?_ ?_]
    · exact hg g
    · intro hw
      have h1 := hf.lo_le
      have h2 := hf.le_hi
      exact hc.glob_stack g hany x hx (by omega)
    · intro n e _ f hfm hxe
      exact hc.free_glob g hany f hfm (hxe ▸ hx)

end Sound

end Synthol.X86
