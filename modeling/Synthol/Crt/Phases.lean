import Synthol.Crt.Nesting
import Synthol.Interrupt.Upcall

/-!
# Phases of the callback path

The positions of the path fall into the phases of `Interrupt.Phase` (`InPhase`), and with the decision of
`retint_kernel` and the test of `evtchn_upcall_pending` some registers matter too. Each instruction goes on within its
phase, or does what takes the abstract activation to the next one (`Inv.moves`); `flags` reads the two flags off the
memory.
-/

namespace Synthol.Crt

open X86 Interrupt

variable {L : Layout} {H : Handler L} {X : Xen}

/-! ## Positions and phases -/

/-- The flags in the shared page. -/
def flags (L : Layout) (m : Mem) (bs : List Interrupt.Activation) : Upcall :=
  ⟨m L.maskAddr != 0, m L.pendingAddr != 0, bs⟩

theorem flags_congr {m m' : Mem} (bs : List Interrupt.Activation) (hk : m' L.maskAddr = m L.maskAddr)
    (hp : m' L.pendingAddr = m L.pendingAddr) : flags L m' bs = flags L m bs := by
  unfold flags
  rw [hk, hp]

/-- The handler is about to be called, or has returned. -/
def Serving (i : Nat) : Prop := i ≤ 36 ∨ (62 ≤ i ∧ i ≤ 76) ∨ (97 ≤ i ∧ i ≤ 106)

instance (i : Nat) : Decidable (Serving i) := inferInstanceAs (Decidable (_ ∨ _))

/-- What `retint_kernel` has computed: bit 9 of the saved rflags, on its way into ZF. -/
structure Deciding (a : Activation) (c : Cpu) (i : Nat) : Prop where
  loaded : i = 72 → (c.gpr .rax).getLsbD 9 = a.enabled
  shifted : 73 ≤ i → i ≤ 75 → (c.gpr .rax).getLsbD 0 = a.enabled
  tested : i = 76 → c.zf = !a.enabled

/-- The positions of a phase. -/
def InPhase (a : Activation) (c : Cpu) (i : Nat) : Phase → Prop
  | .serving => Serving i ∧ Deciding a c i
  | .opening => i = 37 ∨ i = 38
  | .opened => i = 39
  | .tested b => i = 40 ∧ c.zf = !b
  | .draining => 41 ≤ i ∧ i ≤ 60
  | .rearming => i = 61
  | .closing => 77 ≤ i ∧ i ≤ 96

theorem Deciding.of_not {a : Activation} {c : Cpu} {i : Nat} (h : ¬(72 ≤ i ∧ i ≤ 76)) : Deciding a c i :=
  ⟨fun _ => by omega, fun _ _ => by omega, fun _ => by omega⟩

/-- From `i` control stays in the same phase at `j`. -/
def Stays (i j : Nat) : Prop :=
  (Serving i → Serving j ∧ ¬(72 ≤ j ∧ j ≤ 76)) ∧ (i = 37 → j = 38) ∧ (41 ≤ i ∧ i ≤ 60 → 41 ≤ j ∧ j ≤ 60) ∧
    (77 ≤ i ∧ i ≤ 96 → 77 ≤ j ∧ j ≤ 96)

instance (i j : Nat) : Decidable (Stays i j) := inferInstanceAs (Decidable (_ ∧ _ ∧ _ ∧ _))

/-- The positions at which a phase ends, a flag is written, or the decision is computed. -/
def crossings : List Nat := [38, 39, 40, 61, 71, 72, 73, 74, 75, 76, 105]

theorem stays {i j : Nat} (hlt : i < 107) (hi : i ∉ crossings) (hx : Exit.goto j ∈ path.succs i) : Stays i j := by
  have hall : ∀ i < 107, i ∉ crossings → ∀ x ∈ path.succs i, x.within (fun j => decide (Stays i j)) = true := by
    decide +kernel
  exact of_decide_eq_true (hall i hlt hi _ hx)

/-- Only `rax` and ZF matter. -/
theorem InPhase.congr {a : Activation} {c c' : Cpu} {i : Nat} {ph : Phase} (h : InPhase a c i ph)
    (hg : c'.gpr = c.gpr) (hz : c'.zf = c.zf) : InPhase a c' i ph := by
  cases ph with
  | serving => exact ⟨h.1, by rw [hg]; exact h.2.loaded, by rw [hg]; exact h.2.shifted, by rw [hz]; exact h.2.tested⟩
  | tested b => exact ⟨h.1, hz.trans h.2⟩
  | _ => exact h

theorem InPhase.lt {a : Activation} {c : Cpu} {i : Nat} {ph : Phase} (h : InPhase a c i ph) : i < 107 := by
  cases ph with
  | serving =>
    have hs := h.1
    unfold Serving at hs
    omega
  | tested b => exact h.1 ▸ by omega
  | _ => simp only [InPhase] at h; omega

/-- The positions on the way out. -/
def Exiting (i : Nat) : Prop := (41 ≤ i ∧ i ≤ 60) ∨ (77 ≤ i ∧ i ≤ 96)

instance (i : Nat) : Decidable (Exiting i) := inferInstanceAs (Decidable (_ ∨ _))

theorem InPhase.exiting {a : Activation} {c : Cpu} {i : Nat} {ph : Phase} (h : InPhase a c i ph) (hi : Exiting i) :
    ph.exiting = true := by
  unfold Exiting at hi
  cases ph with
  | draining | closing => rfl
  | serving =>
    have hs := h.1
    unfold Serving at hs
    omega
  | tested b =>
    have h40 := h.1
    omega
  | _ => simp only [InPhase] at h; omega

theorem exiting_of_iretq {i : Nat} (hi : prog.code[i]? = some .iretq) : Exiting i := by
  rcases code_iretq hi with rfl | rfl <;> decide

theorem exiting_of_hypercall {i : Nat} (hi : prog.code[i]? = some (.jmp .hypercallIret)) : Exiting i := by
  rcases code_hypercall hi with rfl | rfl <;> decide

/-- The activation has gone on, and its abstract counterpart with it, by at most one step. -/
def Moves (L : Layout) (a : Activation) (ph : Phase) (s s' : State) : Prop :=
  ∃ ph' j, s'.cpu.rip = L.E.text j ∧ InPhase a s'.cpu j ph' ∧ ∀ bs,
    Relation.ReflGen Upcall.Step (flags L s.mem (⟨a.enabled, ph⟩ :: bs)) (flags L s'.mem (⟨a.enabled, ph'⟩ :: bs))

theorem Layout.pending_ne_mask (L : Layout) : L.pendingAddr ≠ L.maskAddr := by
  intro h
  have hd := congrArg (· - L.sharedInfo) h
  simp only [Layout.pendingAddr, Layout.maskAddr, add_sub_self] at hd
  exact absurd hd (by decide)

/-! ## What the instructions find -/

theorem reg_rsi {i : Nat} {r : SState Sym} (hi : i = 38 ∨ i = 39 ∨ i = 61 ∨ i = 74 ∨ i = 105)
    (hr : path.row i = some r) : r.reg .rsi = .sym .sharedInfo 0 := by
  have h : ∀ i ∈ [38, 39, 61, 74, 105], (path.row i).all (fun r => r.reg .rsi = .sym .sharedInfo 0) = true := by
    decide +kernel
  have hrow := h i (by simpa using hi)
  rw [hr] at hrow
  exact of_decide_eq_true hrow

section At

variable {a : Activation} {s : State} {i : Nat} {r : SState Sym} (h : path.At L.E (a.val L) s i r)
include h

theorem rsi_eq (hi : i = 38 ∨ i = 39 ∨ i = 61 ∨ i = 74 ∨ i = 105) : s.cpu.gpr .rsi = L.sharedInfo := by
  have hv := h.meets.reg .rsi
  rw [reg_rsi hi h.row] at hv
  exact hv.exact

/-- `retint_kernel` finds the saved rflags. -/
theorem saved_rflags (hi : i = 71) : s.mem.read64 (s.cpu.gpr .rsp + (eflags - 48)) = a.rflags := by
  subst hi
  obtain rfl : popped = r := Option.some.inj ((Annotated.row_of_annot (by decide) rfl).symm.trans h.row)
  have hsp := h.meets.rsp (p := 48) (by decide)
  have hsl := h.meets.slots (144, .sym .rflags 0) (by decide)
  rw [hsp, BitVec.add_assoc]
  exact hsl.exact

end At

/-! ## One instruction -/

section Exec

variable {s : State} {a : Activation} {as : List Activation} {i : Nat} {ins : Instr Glob Label}

/-- The flags change only where the path writes the mask. -/
theorem Inv.exec_flag (h : Inv L ⟨s, .crt, a :: as⟩) (hf : Fetch L.E s.cpu i ins) (hne : ins ≠ .iretq) (st : Word)
    {x : Word} (hx : ¬(L.lo ≤ x.toNat ∧ x.toNat < L.hi)) (hm : x = L.maskAddr → ∀ n e, ins ≠ .movbIM n e) :
    (execAt L i st s ins).mem x = s.mem x := by
  obtain ⟨j, r, hat⟩ := h.own
  obtain rfl := hat.pos_eq hf
  have hp := h.intact.1
  refine Annotated.frame path_check hp.fits hat hf.2 hne _ st (hp.outside (.inr hx)) fun n e he f hfm hxe => ?_
  obtain rfl := List.mem_singleton.mp hfm
  exact hm hxe n e he

theorem Inv.exec_pending (h : Inv L ⟨s, .crt, a :: as⟩) (hf : Fetch L.E s.cpu i ins) (hne : ins ≠ .iretq)
    (st : Word) : (execAt L i st s ins).mem L.pendingAddr = s.mem L.pendingAddr := by
  exact h.exec_flag hf hne st L.pending_stack fun hpm => absurd hpm L.pending_ne_mask

/-- The instructions that write the mask write it at its address. -/
theorem Inv.exec_mask (h : Inv L ⟨s, .crt, a :: as⟩) {n : Byte} (hf : Fetch L.E s.cpu i (.movbIM n (.base 1 .rsi)))
    (hi : i = 38 ∨ i = 61 ∨ i = 105) (st : Word) :
    (execAt L i st s (.movbIM n (.base 1 .rsi))).mem L.maskAddr = n := by
  obtain ⟨j, r, hat⟩ := h.own
  obtain rfl := hat.pos_eq hf
  have hrsi := rsi_eq hat (by omega)
  show (s.mem.write8 (s.cpu.gpr .rsi + 1) n) L.maskAddr = n
  rw [hrsi]
  exact Mem.write8_self _ _ _

theorem code_movb {n : Byte} {e : Ea Glob} (hi : prog.code[i]? = some (.movbIM n e)) :
    i = 38 ∨ i = 61 ∨ i = 105 := by
  have hall : ∀ i < 107, (prog.code[i]?).any (fun ins => match ins with | .movbIM .. => true | _ => false) = true →
      i = 38 ∨ i = 61 ∨ i = 105 := by decide
  refine hall i (List.getElem?_eq_some_iff.mp hi).1 ?_
  rw [hi]
  rfl

theorem Inv.exec_flags (h : Inv L ⟨s, .crt, a :: as⟩) (hf : Fetch L.E s.cpu i ins) (hne : ins ≠ .iretq) (st : Word)
    (hi : ¬(i = 38 ∨ i = 61 ∨ i = 105)) (bs : List Interrupt.Activation) :
    flags L (execAt L i st s ins).mem bs = flags L s.mem bs := by
  refine flags_congr bs (h.exec_flag hf hne st L.mask_stack fun _ n e he => hi ?_) (h.exec_pending hf hne st)
  subst he
  exact code_movb hf.2

theorem Inv.moves_plain (h : Inv L ⟨s, .crt, a :: as⟩) (hf : Fetch L.E s.cpu i ins) (hne : ins ≠ .iretq)
    (hel : elsewhere ins = none) (hi : i ∉ crossings) {ph : Phase} (hph : InPhase a s.cpu i ph) (st : Word) :
    Moves L a ph s (execAt L i st s ins) := by
  obtain ⟨-, -, x, hx, hxe, hreach⟩ := h.exec hf hne st
  cases x with
  | out l =>
    rw [hel] at hxe
    cases hxe
  | goto j =>
    obtain ⟨r, hat⟩ := hreach
    obtain ⟨hserve, hopen, hdrain, hclose⟩ := stays (List.getElem?_eq_some_iff.mp hf.2).1 hi hx
    have hfl := h.exec_flags hf hne st (by simp only [crossings, List.mem_cons] at hi; omega)
    refine ⟨ph, j, hat.rip, ?_, fun bs => by rw [hfl]⟩
    simp only [crossings, List.mem_cons, List.not_mem_nil, or_false] at hi
    cases ph with
    | serving => exact ⟨(hserve hph.1).1, .of_not (hserve hph.1).2⟩
    | opening => exact .inr (hopen (by simp only [InPhase] at hph; omega))
    | opened => exact absurd hph (by simp only [InPhase]; omega)
    | tested b => exact absurd hph.1 (by omega)
    | draining => exact hdrain hph
    | rearming => exact absurd hph (by simp only [InPhase]; omega)
    | closing => exact hclose hph

/-- The instruction at a position is the one in the text. -/
theorem fetch_eq (hf : Fetch L.E s.cpu i ins) (ins' : Instr Glob Label) (hi : prog.code[i]? = some ins') :
    ins = ins' := Option.some.inj (hf.2.symm.trans hi)

theorem low_bit_clear (w : Word) : (w.setWidth 8 &&& 1 == (0 : Byte)) = !w.getLsbD 0 := by
  have h := BitVec.and_one_eq_setWidth_ofBool_getLsbD (x := w.setWidth 8)
  rw [show (1 : Byte) = 1#8 from rfl, h, BitVec.getLsbD_setWidth]
  cases w.getLsbD 0 <;> decide

/-- `retint_kernel` computes IF of the saved rflags, as long as the mask is set. -/
theorem Inv.decides (h : Inv L ⟨s, .crt, a :: as⟩) (hf : Fetch L.E s.cpu i ins) (hi : 71 ≤ i ∧ i ≤ 75)
    (hk : s.mem L.maskAddr = 1) (hd : Deciding a s.cpu i) (st : Word) :
    Deciding a (execAt L i st s ins).cpu (i + 1) ∧ (execAt L i st s ins).cpu.rip = L.E.text (i + 1) := by
  obtain ⟨j, r, hat⟩ := h.own
  obtain rfl := hat.pos_eq hf
  obtain hi | hi | hi | hi | hi : i = 71 ∨ i = 72 ∨ i = 73 ∨ i = 74 ∨ i = 75 := by omega
  · obtain rfl := hi
    obtain rfl := fetch_eq hf (.movlMR (atRsp (eflags - 48)) .rax) rfl
    refine ⟨⟨fun _ => ?_, by omega, by omega⟩, rfl⟩
    show (((s.cpu.set .rax ((s.mem.read32 (s.cpu.gpr .rsp + (eflags - 48))).setWidth 64)).gpr .rax)).getLsbD 9 = _
    rw [Cpu.set_self, BitVec.getLsbD_setWidth, Mem.getLsbD_read32 _ _ (by omega), saved_rflags hat rfl]
    rfl
  · obtain rfl := hi
    obtain rfl := fetch_eq hf (.shrlIR 9 .rax) rfl
    refine ⟨⟨by omega, fun _ _ => ?_, by omega⟩, rfl⟩
    show ((s.cpu.set .rax (((s.cpu.gpr .rax).setWidth 32 >>> 9).setWidth 64)).gpr .rax).getLsbD 0 = _
    rw [Cpu.set_self, ← hd.loaded rfl]
    simp
  · obtain rfl := hi
    obtain rfl := fetch_eq hf (.movMR (.glob .hypervisorSharedInfo) .rsi) rfl
    refine ⟨⟨by omega, fun _ _ => ?_, by omega⟩, rfl⟩
    rw [← hd.shifted (by omega) (by omega)]
    show ((s.cpu.set .rsi (s.mem.read64 (L.E.glob .hypervisorSharedInfo))).gpr .rax).getLsbD 0 = _
    rw [Cpu.set_other s.cpu .rsi _ (show Reg.rax ≠ .rsi by decide)]
  · obtain rfl := hi
    obtain rfl := fetch_eq hf (.andbMR (.base evtchnUpcallMask .rsi) .rax) rfl
    refine ⟨⟨by omega, fun _ _ => ?_, by omega⟩, rfl⟩
    have hb : s.mem (s.cpu.gpr .rsi + evtchnUpcallMask) = 1 := by rw [rsi_eq hat (by omega)]; exact hk
    show ((s.cpu.set .rax (lowByte (s.cpu.gpr .rax)
      ((s.cpu.gpr .rax).setWidth 8 &&& s.mem (s.cpu.gpr .rsi + evtchnUpcallMask)))).gpr .rax).getLsbD 0 = _
    rw [Cpu.set_self, hb, ← hd.shifted (by omega) (by omega)]
    simp [lowByte]
  · obtain rfl := hi
    obtain rfl := fetch_eq hf (.andbIR 1 .rax) rfl
    refine ⟨⟨by omega, by omega, fun _ => ?_⟩, rfl⟩
    show ((s.cpu.set .rax _).status ((s.cpu.gpr .rax).setWidth 8 &&& 1 == 0) st).zf = _
    rw [Cpu.status_zf, ← hd.shifted (by omega) (by omega)]
    exact low_bit_clear _

theorem Inv.moves_unmask (h : Inv L ⟨s, .crt, a :: as⟩) (hf : Fetch L.E s.cpu 38 ins) (st : Word) :
    Moves L a .opening s (execAt L 38 st s ins) := by
  obtain rfl := fetch_eq hf (.movbIM 0 (.base evtchnUpcallMask .rsi)) rfl
  refine ⟨.opened, 39, rfl, rfl, fun bs => .single ?_⟩
  unfold flags
  rw [h.exec_mask hf (by omega) st, h.exec_pending hf (by simp) st]
  exact .unmask

theorem Inv.moves_test (h : Inv L ⟨s, .crt, a :: as⟩) (hf : Fetch L.E s.cpu 39 ins) (st : Word) :
    Moves L a .opened s (execAt L 39 st s ins) := by
  obtain ⟨j, r, hat⟩ := h.own
  obtain rfl := hat.pos_eq hf
  obtain rfl := fetch_eq hf (.testbIM 0xFF (.base evtchnUpcallPending .rsi)) rfl
  refine ⟨.tested (s.mem L.pendingAddr != 0), 40, rfl, ⟨rfl, ?_⟩, fun bs => .single .test⟩
  show (s.cpu.status (s.mem (s.cpu.gpr .rsi + evtchnUpcallPending) &&& 0xFF == 0) st).zf = _
  rw [Cpu.status_zf, rsi_eq hat (by omega), show (0xFF : Byte) = BitVec.allOnes 8 from rfl, BitVec.and_allOnes, bne,
    Bool.not_not]
  rfl

theorem moves_branch (hf : Fetch L.E s.cpu 40 ins) {b : Bool} (hb : s.cpu.zf = !b) (st : Word) :
    Moves L a (.tested b) s (execAt L 40 st s ins) := by
  obtain rfl := fetch_eq hf (.jnz .fourteen) rfl
  cases b with
  | true =>
    refine ⟨.rearming, 61, ?_, rfl, fun bs => .single .branch⟩
    show (if s.cpu.zf then L.E.text 41 else L.E.label .fourteen) = _
    rw [hb]
    exact L.E.label_pos .fourteen 61 (by decide)
  | false =>
    refine ⟨.draining, 41, ?_, ⟨by omega, by omega⟩, fun bs => .single .branch⟩
    show (if s.cpu.zf then L.E.text 41 else L.E.label .fourteen) = _
    rw [hb]
    rfl

theorem Inv.moves_block (h : Inv L ⟨s, .crt, a :: as⟩) (hf : Fetch L.E s.cpu 61 ins) (st : Word) :
    Moves L a .rearming s (execAt L 61 st s ins) := by
  obtain rfl := fetch_eq hf (.movbIM 1 (.base evtchnUpcallMask .rsi)) rfl
  refine ⟨.serving, 62, rfl, ⟨.inr (.inl ⟨by omega, by omega⟩), .of_not (by omega)⟩, fun bs => .single ?_⟩
  unfold flags
  rw [h.exec_mask hf (by omega) st, h.exec_pending hf (by simp) st]
  exact .block

/-- `error_exit` sets the mask again. -/
theorem Inv.moves_masked (h : Inv L ⟨s, .crt, a :: as⟩) (hf : Fetch L.E s.cpu 105 ins)
    (hk : s.mem L.maskAddr = 1) (st : Word) : Moves L a .serving s (execAt L 105 st s ins) := by
  obtain rfl := fetch_eq hf (.movbIM 1 (.base evtchnUpcallMask .rsi)) rfl
  refine ⟨.serving, 106, rfl, ⟨.inr (.inr ⟨by omega, by omega⟩), .of_not (by omega)⟩, fun bs => ?_⟩
  rw [flags_congr _ ((h.exec_mask hf (by omega) st).trans hk.symm) (h.exec_pending hf (by simp) st)]

theorem moves_decide (hf : Fetch L.E s.cpu 76 ins) (hk : s.mem L.maskAddr = 1) (hz : s.cpu.zf = !a.enabled)
    (st : Word) : Moves L a .serving s (execAt L 76 st s ins) := by
  obtain rfl := fetch_eq hf (.jnz .restoreAllEnableEvents) rfl
  have hset : (s.mem L.maskAddr != 0) = true := by
    rw [hk]
    rfl
  refine ⟨if a.enabled && (s.mem L.maskAddr != 0) then .opening else .closing, if a.enabled then 37 else 77, ?_, ?_,
    fun bs => .single .decide⟩
  · show (if s.cpu.zf then L.E.text 77 else L.E.label .restoreAllEnableEvents) = _
    rw [hz]
    cases a.enabled with
    | true => exact L.E.label_pos .restoreAllEnableEvents 37 (by decide)
    | false => rfl
  · rw [hset]
    cases a.enabled with
    | true => exact .inl rfl
    | false => exact ⟨by decide, by decide⟩

/-- While the handler may be called, the mask is set. -/
theorem Inv.moves_serving (h : Inv L ⟨s, .crt, a :: as⟩) (hf : Fetch L.E s.cpu i ins) (hne : ins ≠ .iretq)
    (hel : elsewhere ins = none) (hph : InPhase a s.cpu i .serving) (hk : s.mem L.maskAddr = 1) (st : Word) :
    Moves L a .serving s (execAt L i st s ins) := by
  by_cases hd : 71 ≤ i ∧ i ≤ 75
  · obtain ⟨hdec, hrip⟩ := h.decides hf hd hk hph.2 st
    refine ⟨.serving, i + 1, hrip, ⟨.inr (.inl (by omega)), hdec⟩, fun bs => ?_⟩
    rw [h.exec_flags hf hne st (by omega)]
  · by_cases h76 : i = 76
    · subst h76
      exact moves_decide hf hk (hph.2.tested rfl) st
    · by_cases h105 : i = 105
      · subst h105
        exact h.moves_masked hf hk st
      · refine h.moves_plain hf hne hel ?_ hph st
        have hs := hph.1
        unfold Serving at hs
        simp only [crossings, List.mem_cons, List.not_mem_nil, or_false]
        omega

/-- The mask byte is 0 or 1. -/
theorem Inv.exec_maskByte (h : Inv L ⟨s, .crt, a :: as⟩) (hf : Fetch L.E s.cpu i ins) (hne : ins ≠ .iretq) (st : Word)
    (hk : s.mem L.maskAddr = 0 ∨ s.mem L.maskAddr = 1) :
    (execAt L i st s ins).mem L.maskAddr = 0 ∨ (execAt L i st s ins).mem L.maskAddr = 1 := by
  by_cases hi : i = 38 ∨ i = 61 ∨ i = 105
  · rcases hi with rfl | rfl | rfl
    · obtain rfl := fetch_eq hf (.movbIM 0 (.base evtchnUpcallMask .rsi)) rfl
      exact .inl (h.exec_mask hf (by omega) st)
    · obtain rfl := fetch_eq hf (.movbIM 1 (.base evtchnUpcallMask .rsi)) rfl
      exact .inr (h.exec_mask hf (by omega) st)
    · obtain rfl := fetch_eq hf (.movbIM 1 (.base evtchnUpcallMask .rsi)) rfl
      exact .inr (h.exec_mask hf (by omega) st)
  · have hm : (execAt L i st s ins).mem L.maskAddr = s.mem L.maskAddr :=
      h.exec_flag hf hne st L.mask_stack fun _ n e he => hi (code_movb (he ▸ hf.2))
    rw [hm]
    exact hk

/-- **One instruction**: the activation goes on within its phase or to the next. -/
theorem Inv.moves (h : Inv L ⟨s, .crt, a :: as⟩) (hf : Fetch L.E s.cpu i ins) (hne : ins ≠ .iretq)
    (hel : elsewhere ins = none) {ph : Phase} (hph : InPhase a s.cpu i ph)
    (hk : ph = .serving → s.mem L.maskAddr = 1) (st : Word) : Moves L a ph s (execAt L i st s ins) := by
  have hplain : i ∉ crossings → Moves L a ph s (execAt L i st s ins) := fun hi =>
    h.moves_plain hf hne hel hi hph st
  simp only [crossings, List.mem_cons, List.not_mem_nil, or_false] at hplain
  cases ph with
  | serving => exact h.moves_serving hf hne hel hph (hk rfl) st
  | opening =>
    rcases hph with rfl | rfl
    · exact hplain (by omega)
    · exact h.moves_unmask hf st
  | opened =>
    obtain rfl := hph
    exact h.moves_test hf st
  | tested b =>
    obtain ⟨rfl, hb⟩ := hph
    exact moves_branch hf hb st
  | rearming =>
    obtain rfl := hph
    exact h.moves_block hf st
  | draining =>
    obtain ⟨h1, h2⟩ := hph
    exact hplain (by omega)
  | closing =>
    obtain ⟨h1, h2⟩ := hph
    exact hplain (by omega)

end Exec

end Synthol.Crt
