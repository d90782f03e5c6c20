import Synthol.Crt.System

/-!
# Nested activations

The invariant `Inv`: what is being executed is where the assertions of the path say (`Own`), and so was, when it was
interrupted, everything under it on the stack, whose part of the stack is as it was then (`Intact`). Each step of the
system keeps it (`Step.inv`), so it holds in every run (`Run.inv`). It gives the two halves of transparency: at a call
of the handler `rdi` points to the interrupted registers, and what an activation returns to is what it interrupted
(`Activation.Resumed`).
-/

namespace Synthol.Crt

open X86

variable {L : Layout} {H : Handler L} {X : Xen}

/-! ## The frame of an activation -/

theorem Activation.toNat_base {a : Activation} (h : a.Pushed L) : (a.val L).base.toNat = a.base.toNat - 112 := by
  have hr := h.room
  have hlt := a.base.isLt
  show (a.base - 112).toNat = _
  bv_omega

theorem Activation.Pushed.fits {a : Activation} (h : a.Pushed L) : path.scope.Fits (a.val L) L.lo L.hi := by
  have hb := a.toNat_base h
  have h1 := h.room
  have h2 := h.below
  have h3 := h.inside
  refine ⟨?_, ?_, L.hi_lt, fun h0 => ?_⟩
  · show L.lo + 16 ≤ (a.val L).base.toNat
    omega
  · show (a.val L).base.toNat + 168 ≤ L.hi
    omega
  · rw [h0] at hb
    simp only [BitVec.ofNat_eq_ofNat, BitVec.toNat_ofNat, Nat.zero_mod] at hb
    omega

theorem Layout.clear (L : Layout) (a : Activation) : path.scope.Clear L.E.toLink (a.val L) L.lo L.hi := by
  refine ⟨fun g hg x hx => ?_, fun f hf => ?_, fun g hg f hf => ?_⟩
  · cases g with
    | hypervisorSharedInfo => exact L.var_stack x hx
    | _ => exact absurd rfl hg
  · obtain rfl := List.mem_singleton.mp hf
    exact L.mask_stack
  · obtain rfl := List.mem_singleton.mp hf
    cases g with
    | hypervisorSharedInfo => exact L.mask_var
    | _ => exact absurd rfl hg

theorem Layout.Named.reads {m : Mem} (h : L.Named m) (a : Activation) : path.scope.Reads L.E (a.val L) m := by
  intro g
  cases g with
  | hypervisorSharedInfo =>
    show m.read64 _ ||| 0 = L.sharedInfo ||| 0
    rw [h]
  | _ => trivial

theorem Layout.Named.of_reads {m : Mem} {a : Activation} (h : path.scope.Reads L.E (a.val L) m) : L.Named m :=
  (h .hypervisorSharedInfo).exact

/-- Addresses from the interrupted `rsp` up are outside the window. -/
theorem Activation.Pushed.outside {a : Activation} (h : a.Pushed L) {x : Word}
    (hx : (a.cpu.gpr .rsp).toNat ≤ x.toNat ∨ ¬(L.lo ≤ x.toNat ∧ x.toNat < L.hi)) :
    path.scope.Outside (a.val L) x := by
  have hb := a.toNat_base h
  have h1 := h.room
  have h2 := h.below
  have h3 := h.inside
  show ¬((a.val L).base.toNat ≤ x.toNat + 16 ∧ x.toNat < (a.val L).base.toNat + 168)
  omega

/-! ## The invariant -/

/-- What is executed is where it should be. -/
def Own (L : Layout) : Mode → State → List Activation → Prop
  | .guest, _, as => as = []
  | .crt, s, a :: _ => ∃ i r, path.At L.E (a.val L) s i r
  | .handler e, s, a :: _ =>
    (∃ r, path.AtOut L.E (a.val L) e .doHypervisorCallback r) ∧
      (L.lo ≤ (s.cpu.gpr .rsp).toNat ∧ (s.cpu.gpr .rsp).toNat ≤ (e.cpu.gpr .rsp).toNat) ∧
      L.Keeps ((e.cpu.gpr .rsp).toNat + 8) e.mem s.mem
  | _, _, [] => False

/-- What the activations interrupted was where it should be, and its stack is as it was. -/
def Intact (L : Layout) (m : Mem) : List Activation → Prop
  | [] => True
  | a :: as => a.Pushed L ∧ Own L a.mode ⟨a.cpu, a.mem⟩ as ∧
    (∀ x : Word, (a.cpu.gpr .rsp).toNat ≤ x.toNat → x.toNat < L.hi → m x = a.mem x) ∧ Intact L m as

structure Inv (L : Layout) (κ : Config) : Prop where
  named : L.Named κ.s.mem
  own : Own L κ.mode κ.s κ.acts
  intact : Intact L κ.s.mem κ.acts

/-- The handler is entered in the lowest part of the window. -/
theorem calling_rsp {a : Activation} (h : a.Pushed L) {e : State} {r : SState Sym}
    (he : path.AtOut L.E (a.val L) e .doHypervisorCallback r) :
    (e.cpu.gpr .rsp).toNat + 16 = (a.val L).base.toNat := by
  obtain rfl : calling = r := Option.some.inj he.out
  have hb := a.toNat_base h
  have h1 := h.room
  have hsp : calling.sp = some (-16) := by decide
  rw [he.meets.rsp hsp]
  bv_omega

/-- What is executed has its stack pointer under what it interrupted. -/
theorem Own.rsp_range {md : Mode} {s : State} {a : Activation} {as : List Activation} (h : Own L md s (a :: as))
    (hp : a.Pushed L) : L.lo ≤ (s.cpu.gpr .rsp).toNat ∧ (s.cpu.gpr .rsp).toNat ≤ (a.cpu.gpr .rsp).toNat := by
  have hb := a.toNat_base hp
  have h1 := hp.room
  have h2 := hp.below
  cases md with
  | guest => cases h
  | crt =>
    obtain ⟨i, r, h⟩ := h
    obtain ⟨ins, hi⟩ := h.fetch
    obtain ⟨p, hsp, hin, -⟩ := SState.ok_sp (Annotated.ok_of_check path_check hi h.row)
    have hn := hp.fits.toNat_add hin
    have hk := path.scope.inside_iff.mp hin
    have hbelow : path.scope.below = 16 := rfl
    have habove : path.scope.above = 168 := rfl
    rw [h.meets.rsp hsp]
    exact ⟨by omega, by omega⟩
  | handler e =>
    obtain ⟨⟨r, he⟩, ⟨hlo, hle⟩, -⟩ := h
    have := calling_rsp hp he
    exact ⟨hlo, by omega⟩

/-- Being where it should be only takes the registers, ZF, `rip`, and the stack from `rsp` up. -/
theorem Own.congr {md : Mode} {c c' : Cpu} {m m' : Mem} {as : List Activation} (h : Own L md ⟨c, m⟩ as)
    (hp : ∀ a ∈ as.head?, a.Pushed L) (hg : c'.gpr = c.gpr) (hr : c'.rip = c.rip) (hz : c'.zf = c.zf)
    (hn : L.Named m') (hm : ∀ x : Word, (c.gpr .rsp).toNat ≤ x.toNat → x.toNat < L.hi → m' x = m x) :
    Own L md ⟨c', m'⟩ as := by
  cases as with
  | nil =>
    cases md with
    | guest => rfl
    | _ => exact h
  | cons a as =>
    have hp := hp a rfl
    cases md with
    | guest => exact h
    | crt =>
      obtain ⟨i, r, h⟩ := h
      obtain ⟨ins, hi⟩ := h.fetch
      have hok := Annotated.ok_of_check path_check hi h.row
      exact ⟨i, r, hr.trans h.rip, h.row, (h.meets.frame hp.fits hok hm).congr hg hz⟩
    | handler e =>
      obtain ⟨he, hle, hk⟩ := h
      refine ⟨he, ?_, fun x hx hxi => ?_, fun _ => hn⟩
      · rw [show State.cpu ⟨c', m'⟩ = c' from rfl, hg]
        exact hle
      · exact (hm x (by have := hle.2; simp only at this; omega) hxi).trans (hk.stack x hx hxi)

/-- What is interrupted stays intact when only the stack under it changes. -/
theorem Intact.frame {m m' : Mem} {as : List Activation} (h : Intact L m as)
    (hm : ∀ a ∈ as.head?, ∀ x : Word, (a.cpu.gpr .rsp).toNat ≤ x.toNat → x.toNat < L.hi → m' x = m x) :
    Intact L m' as := by
  induction as with
  | nil => trivial
  | cons a as ih =>
    obtain ⟨hp, ho, hk, hrest⟩ := h
    refine ⟨hp, ho, fun x hx hxi => (hm a rfl x hx hxi).trans (hk x hx hxi), ih hrest fun b hb x hx hxi => ?_⟩
    refine hm a rfl x ?_ hxi
    cases as with
    | nil => cases hb
    | cons c as =>
      obtain rfl : c = b := Option.some.inj hb
      exact Nat.le_trans (ho.rsp_range hrest.1).2 hx

theorem Inv.head {κ : Config} (h : Inv L κ) : ∀ a ∈ κ.acts.head?, a.Pushed L := by
  obtain ⟨-, -, hi⟩ := h
  intro a ha
  cases hk : κ.acts with
  | nil => rw [hk] at ha; cases ha
  | cons b as =>
    rw [hk] at ha hi
    obtain rfl : b = a := Option.some.inj ha
    exact hi.1

/-! ## Instructions of the path -/

theorem elsewhere_none {ins : Instr Glob Label} (hcall : ins ≠ .call .doHypervisorCallback)
    (hjmp : ins ≠ .jmp .hypercallIret) : elsewhere ins = none := by
  unfold elsewhere
  split
  · exact absurd rfl hcall
  · exact absurd rfl hjmp
  · rfl

def exitLabel : Exit Label → Option Label
  | .goto _ => none
  | .out l => some l

theorem succs_elsewhere {i : Nat} {x : Exit Label} {ins : Instr Glob Label} (hx : x ∈ path.succs i)
    (hi : prog.code[i]? = some ins) : exitLabel x = elsewhere ins := by
  have hall : ∀ i < 107, ∀ x ∈ path.succs i, (prog.code[i]?).all (exitLabel x = elsewhere ·) = true := by
    decide +kernel
  have hlt := (List.getElem?_eq_some_iff.mp hi).1
  have h := hall i hlt x hx
  rw [hi] at h
  simpa using h

section Exec

variable {s : State} {a : Activation} {as : List Activation} {i : Nat} {ins : Instr Glob Label}

/-- Instructions write nothing in the stack from the interrupted `rsp` up. -/
theorem Inv.exec_stack (h : Inv L ⟨s, .crt, a :: as⟩) (hf : Fetch L.E s.cpu i ins) (hne : ins ≠ .iretq) (st : Word)
    {x : Word} (hx : (a.cpu.gpr .rsp).toNat ≤ x.toNat) (hxi : x.toNat < L.hi) :
    (execAt L i st s ins).mem x = s.mem x := by
  obtain ⟨j, r, hat⟩ := h.own
  obtain rfl := hat.pos_eq hf
  have hp := h.intact.1
  refine Annotated.frame path_check hp.fits hat hf.2 hne _ st (hp.outside (.inl hx)) fun n e _ f hfm hxe => ?_
  obtain rfl := List.mem_singleton.mp hfm
  subst hxe
  have h1 := hp.room
  have h2 := hp.below
  have h3 : L.lo ≤ (L.sharedInfo + evtchnUpcallMask).toNat ∧ (L.sharedInfo + evtchnUpcallMask).toNat < L.hi :=
    ⟨by change _ ≤ (L.sharedInfo + evtchnUpcallMask).toNat at hx; omega, hxi⟩
  exact L.mask_stack h3

/-- **One instruction** of the path: what was interrupted is intact, and control is at one of the successors. -/
theorem Inv.exec (h : Inv L ⟨s, .crt, a :: as⟩) (hf : Fetch L.E s.cpu i ins) (hne : ins ≠ .iretq) (st : Word) :
    L.Named (execAt L i st s ins).mem ∧ Intact L (execAt L i st s ins).mem (a :: as) ∧
      ∃ x ∈ path.succs i, exitLabel x = elsewhere ins ∧
        path.Reached L.E (a.val L) (execAt L i st s ins) x := by
  obtain ⟨j, r, hat⟩ := h.own
  obtain rfl := hat.pos_eq hf
  have hp := h.intact.1
  have hreads := h.named.reads a
  obtain ⟨x, hx, hreach⟩ := Annotated.step path_check hp.fits (L.clear a) hreads hat hf.2 hne st
  refine ⟨?_, ?_, x, hx, succs_elsewhere hx hf.2, hreach⟩
  · exact .of_reads (Annotated.reads path_check hp.fits (L.clear a) hreads hat hf.2 hne _ st)
  · refine h.intact.frame fun b hb x hx hxi => ?_
    obtain rfl : a = b := Option.some.inj hb
    exact h.exec_stack hf hne st hx hxi

end Exec

/-! ## Entering and leaving -/

/-- What was interrupted goes on as it was: all registers, up to IF, the software bit NMI and the privilege level, and
its stack. -/
structure Activation.Resumed (L : Layout) (a : Activation) (s : State) : Prop where
  gpr : s.cpu.gpr = a.cpu.gpr
  rip : s.cpu.rip = a.cpu.rip
  rflags : s.cpu.rflags ||| 0x80000200 = a.cpu.rflags ||| 0x80000200
  cs : s.cpu.cs ||| 3 = a.cpu.cs ||| 3
  ss : s.cpu.ss ||| 3 = a.cpu.ss ||| 3
  stack : ∀ x : Word, (a.cpu.gpr .rsp).toNat ≤ x.toNat → x.toNat < L.hi → s.mem x = a.mem x

theorem Activation.Resumed.zf {a : Activation} {s : State} (h : a.Resumed L s) : s.cpu.zf = a.cpu.zf := by
  have hb := congrArg (·.getLsbD 6) h.rflags
  simpa [Cpu.zf] using hb

/-- A privilege level in a pushed word. -/
theorem selector_eq {w v : Word} {c : BitVec 16} {k : Word} (h : w ||| k = v ||| k) (hk : k ||| 3 = 3)
    (hv : v.setWidth 16 ||| 3 = c ||| 3) : w.setWidth 16 ||| 3 = c ||| 3 := by
  have h3 : w ||| 3 = v ||| 3 := by
    rw [← hk, ← BitVec.or_assoc, h, BitVec.or_assoc]
  have hc := congrArg (BitVec.setWidth 16) h3
  simp only [BitVec.setWidth_or] at hc
  rw [← hv]
  simpa using hc

/-- Popping the words for `iretq`. -/
theorem iret_resumed {a : Activation} (hp : a.Pushed L) {s : State} {k n : Word} (hk : k ||| 3 = 3)
    (hn : n ||| 0x80000000 = 0x80000000) (hg : ∀ r, r ≠ .rsp → s.cpu.gpr r = a.cpu.gpr r)
    (hsp : s.cpu.gpr .rsp = (a.val L).base + 128)
    (hs : ∀ v ∈ iretSlots k n, v.2.Holds L.E.text (a.val L) (s.mem.read64 ((a.val L).base + v.1)))
    (hm : ∀ x : Word, (a.cpu.gpr .rsp).toNat ≤ x.toNat → x.toNat < L.hi → s.mem x = a.mem x) :
    a.Resumed L s.iret := by
  simp only [iretSlots, slotsFrom, List.forall_mem_cons] at hs
  obtain ⟨hrip, hcs, hfl, hrsp, hss, -⟩ := hs
  have hat : ∀ d : Word, s.cpu.gpr .rsp + d = (a.val L).base + (128 + d) := by
    intro d
    rw [hsp, BitVec.add_assoc]
  refine ⟨?_, ?_, ?_, ?_, ?_, hm⟩
  · funext r
    by_cases hr : r = .rsp
    · subst hr
      simp only [State.iret, Function.update_self, hat]
      exact hrsp.exact
    · simp only [State.iret, Function.update_of_ne hr]
      exact hg r hr
  · simp only [State.iret, hsp]
    exact hrip.exact
  · have hw : s.iret.cpu.rflags ||| n = a.rflags ||| n := by
      simp only [State.iret, hat]
      exact hfl
    calc s.iret.cpu.rflags ||| 0x80000200
        = (s.iret.cpu.rflags ||| n) ||| 0x80000000 ||| 0x200 := by
          rw [BitVec.or_assoc _ n, hn, BitVec.or_assoc]; rfl
      _ = (a.rflags ||| 0x200) ||| 0x80000000 := by
          rw [hw, BitVec.or_assoc _ n, hn, BitVec.or_assoc, BitVec.or_comm 0x80000000, ← BitVec.or_assoc]
      _ = a.cpu.rflags ||| 0x80000200 := by rw [hp.rflags, BitVec.or_assoc]; rfl
  · simp only [State.iret, hat]
    exact selector_eq hcs hk hp.cs
  · simp only [State.iret, hat]
    exact selector_eq hss hk hp.ss

theorem code_call {i : Nat} (h : prog.code[i]? = some (.call .doHypervisorCallback)) : i = callPos := by
  have hall : ∀ i < 107, prog.code[i]? = some (.call .doHypervisorCallback) → i = callPos := by decide
  exact hall i (List.getElem?_eq_some_iff.mp h).1 h

theorem code_hypercall {i : Nat} (h : prog.code[i]? = some (.jmp .hypercallIret)) :
    i = hypercallPos false ∨ i = hypercallPos true := by
  have hall : ∀ i < 107, prog.code[i]? = some (.jmp .hypercallIret) →
      i = hypercallPos false ∨ i = hypercallPos true := by decide
  exact hall i (List.getElem?_eq_some_iff.mp h).1 h

theorem code_iretq {i : Nat} (hi : prog.code[i]? = some .iretq) : i = iretPos false ∨ i = iretPos true := by
  have hall : ∀ i < 107, prog.code[i]? = some .iretq → i = iretPos false ∨ i = iretPos true := by decide
  exact hall i (List.getElem?_eq_some_iff.mp hi).1 hi

theorem row_iretq {i : Nat} (hi : prog.code[i]? = some .iretq) : path.row i = some (leaving 3 0 128) := by
  rcases code_iretq hi with rfl | rfl
  · exact Annotated.row_of_annot (by decide) rfl
  · exact Annotated.row_of_annot (by decide) rfl

/-- The words that Xen has pushed. -/
theorem read64_pushed {a : Activation} (hp : a.Pushed L) (m : Mem) {k : Nat} (hk : k < a.words.length) :
    ((m.writeWords a.base a.words).write8 L.maskAddr 1).read64 (a.base + BitVec.ofNat 64 (8 * k)) = a.words[k] := by
  have hlen : a.words.length = 7 := rfl
  rw [hlen] at hk
  have h1 := hp.room
  have h2 := hp.below
  have h3 := hp.inside
  rw [Mem.write8, Mem.read64_store_apart, Mem.read64_writeWords (by omega) (by omega)]
  intro x hx hw
  apply L.mask_stack
  have hxm : x = L.maskAddr := by
    unfold Within at hw
    bv_omega
  rw [show L.sharedInfo + evtchnUpcallMask = x from hxm.symm]
  unfold Within at hx
  have hlt := (a.cpu.gpr .rsp).isLt
  bv_omega

/-- **Entry**: the frame that Xen pushed is what the path expects. -/
theorem Activation.Entered.own {a : Activation} {c : Cpu} {m : Mem} (hp : a.Pushed L) (he : a.Entered L c)
    (as : List Activation) :
    Own L .crt ⟨c, (m.writeWords a.base a.words).write8 L.maskAddr 1⟩ (a :: as) := by
  have hbase : ∀ d : Word, (a.val L).base + (112 + d) = a.base + d := by
    intro d
    show a.base - 112 + (112 + d) = _
    rw [← BitVec.add_assoc, BitVec.sub_add_cancel]
  have hrow : path.row 23 = some entered := Annotated.row_of_annot (by decide) rfl
  refine ⟨23, entered, he.rip.trans (L.E.label_pos _ _ (by decide)), hrow, fun r => ?_, ?_, fun b hb => by cases hb⟩
  · by_cases hr : r = .rsp
    · subst hr
      show c.gpr .rsp = _
      rw [he.rsp]
      exact (BitVec.sub_add_cancel a.base 112).symm
    · by_cases hl : r ≠ .rcx ∧ r ≠ .r11
      · simp only [entered, holding, if_neg hr, if_pos (decide_eq_true hl)]
        show c.gpr r ||| 0 = a.cpu.gpr r ||| 0
        rw [he.gpr r hl.1 hl.2 hr]
      · simp only [entered, holding, if_neg hr, decide_eq_false hl]
        trivial
  · have hw : ∀ (k : Nat) (t : Sym), a.words[k]? = some ((a.val L).sym t) → (Val.sym t 0).Holds L.E.text (a.val L)
        (((m.writeWords a.base a.words).write8 L.maskAddr 1).read64
          ((a.val L).base + (112 + BitVec.ofNat 64 (8 * k)))) := by
      intro k t ht
      obtain ⟨hk, hw⟩ := List.getElem?_eq_some_iff.mp ht
      rw [hbase, read64_pushed hp m hk, hw]
      rfl
    simp only [entered, iretSlots, slotsFrom, List.forall_mem_cons]
    refine ⟨hw 0 _ rfl, hw 1 _ rfl, hw 2 _ rfl, hw 3 _ rfl, hw 4 _ rfl, hw 5 _ rfl, hw 6 _ rfl, by simp⟩

/-- The entry writes under the interrupted `rsp`, and the mask. -/
theorem entry_stack {a : Activation} (hp : a.Pushed L) {m : Mem} {x : Word} (hx : (a.cpu.gpr .rsp).toNat ≤ x.toNat)
    (hxi : x.toNat < L.hi) : (m.writeWords a.base a.words).write8 L.maskAddr 1 x = m x := by
  have h1 := hp.room
  have h2 := hp.below
  rw [Mem.write8_other, Mem.writeWords_other]
  · show 8 * 7 < _
    omega
  · show ¬(x - a.base).toNat < 8 * 7
    bv_omega
  · rintro rfl
    exact L.mask_stack ⟨by change L.lo ≤ L.maskAddr.toNat; omega, hxi⟩

theorem entry_named {a : Activation} (hp : a.Pushed L) {m : Mem} (hn : L.Named m) :
    L.Named ((m.writeWords a.base a.words).write8 L.maskAddr 1) := by
  have h1 := hp.room
  have h2 := hp.below
  have h3 := hp.inside
  unfold Layout.Named at hn ⊢
  rw [← hn]
  refine Mem.read64_congr fun x hx => ?_
  rw [Mem.write8_other, Mem.writeWords_other]
  · show 8 * 7 < _
    omega
  · intro hw
    apply L.var_stack x hx
    have hw' : (x - a.base).toNat < 8 * 7 := hw
    bv_omega
  · rintro rfl
    exact L.mask_var hx

/-- **Leaving**: the interrupted context goes on. -/
theorem Inv.resume {s t : State} {a : Activation} {as : List Activation} (h : Inv L ⟨s, .crt, a :: as⟩)
    (ht : a.Resumed L t) (hm : t.mem = s.mem) : Inv L ⟨t, a.mode, as⟩ := by
  obtain ⟨hp, ho, hk, hrest⟩ := h.intact
  have hn : L.Named t.mem := hm ▸ h.named
  refine ⟨hn, ?_, hm ▸ hrest⟩
  refine Own.congr ho (fun b hb => ?_) ht.gpr ht.rip ht.zf hn ht.stack
  cases as with
  | nil => cases hb
  | cons c as =>
    obtain rfl : c = b := Option.some.inj hb
    exact hrest.1

section Leave

variable {s : State} {a : Activation} {as : List Activation} {i : Nat}

theorem Inv.iret (h : Inv L ⟨s, .crt, a :: as⟩) (hf : Fetch L.E s.cpu i .iretq) : a.Resumed L s.iret := by
  obtain ⟨j, r, hat⟩ := h.own
  obtain rfl := hat.pos_eq hf
  obtain rfl : leaving 3 0 128 = r := Option.some.inj ((row_iretq hf.2).symm.trans hat.row)
  obtain ⟨hp, -, hk, -⟩ := h.intact
  refine iret_resumed hp (k := 3) (n := 0) rfl rfl (fun r hr => ?_) (hat.meets.rsp (by decide)) hat.meets.slots hk
  have hv := hat.meets.reg r
  simp only [leaving, holding, if_neg hr, allLive, if_true] at hv
  exact hv.exact

theorem Inv.hypercall (h : Inv L ⟨s, .crt, a :: as⟩) (hf : Fetch L.E s.cpu i (.jmp .hypercallIret)) (st : Word) :
    a.Resumed L (hypercallIret (execAt L i st s (.jmp .hypercallIret))) := by
  obtain ⟨-, hint, x, -, hx, hreach⟩ := h.exec hf (by simp) st
  obtain ⟨hp, -, hk, -⟩ := hint
  obtain rfl : x = .out .hypercallIret := by
    cases x with
    | goto j => cases hx
    | out l => exact congrArg Exit.out (Option.some.inj hx)
  obtain ⟨r, hat⟩ := hreach
  obtain rfl : leaving 0 (nmiMask.setWidth 64) 120 = r := Option.some.inj hat.out
  refine iret_resumed hp (k := 0) (n := nmiMask.setWidth 64) rfl rfl (fun r hr => ?_) ?_ hat.meets.slots hk
  · have hv := hat.meets.reg r
    simp only [leaving, holding, if_neg hr, allLive, if_true] at hv
    exact (Cpu.set_other _ _ _ hr).trans hv.exact
  · have hsp := hat.meets.rsp (p := 120) (by decide)
    show Cpu.gpr (Cpu.set _ _ _) .rsp = _
    rw [Cpu.set_self, hsp, BitVec.add_assoc]
    rfl

end Leave

/-! ## Steps and runs -/

theorem Layout.Keeps.trans {n : Nat} {m m' m'' : Mem} (h : L.Keeps n m m') (h' : L.Keeps n m' m'') :
    L.Keeps n m m'' :=
  ⟨fun x hx hxi => (h'.stack x hx hxi).trans (h.stack x hx hxi), fun hn => h'.named (h.named hn)⟩

/-- Changes outside the stack. -/
theorem Inv.quiet {c : Cpu} {m m' : Mem} {md : Mode} {as : List Activation} (h : Inv L ⟨⟨c, m⟩, md, as⟩)
    (hk : L.Keeps L.lo m m') : Inv L ⟨⟨c, m'⟩, md, as⟩ := by
  have hn := hk.named h.named
  cases as with
  | nil =>
    refine ⟨hn, ?_, trivial⟩
    cases md with
    | guest => rfl
    | _ => exact h.own
  | cons a as =>
    have hp := h.intact.1
    have hlo := (h.own.rsp_range hp).1
    have h1 := hp.room
    have h2 := hp.below
    refine ⟨hn, ?_, h.intact.frame fun b hb x hx hxi => ?_⟩
    · exact h.own.congr h.head rfl rfl rfl hn fun x hx hxi => hk.stack x (Nat.le_trans hlo hx) hxi
    · obtain rfl : a = b := Option.some.inj hb
      exact hk.stack x (by omega) hxi

/-- A new activation. -/
theorem Inv.enter {m' : Mem} {c' : Cpu} {a : Activation} {as : List Activation}
    (h : Inv L ⟨⟨a.cpu, a.mem⟩, a.mode, as⟩) (hp : a.Pushed L) (hk : L.Keeps L.lo a.mem m') (he : a.Entered L c') :
    Inv L ⟨⟨c', (m'.writeWords a.base a.words).write8 L.maskAddr 1⟩, .crt, a :: as⟩ := by
  have h1 := hp.room
  have h2 := hp.below
  have hkeep : ∀ x : Word, (a.cpu.gpr .rsp).toNat ≤ x.toNat → x.toNat < L.hi →
      (m'.writeWords a.base a.words).write8 L.maskAddr 1 x = a.mem x := fun x hx hxi =>
    (entry_stack hp hx hxi).trans (hk.stack x (by omega) hxi)
  refine ⟨entry_named hp (hk.named h.named), he.own hp as, hp, h.own, hkeep, ?_⟩
  refine h.intact.frame fun b hb x hx hxi => hkeep x ?_ hxi
  cases as with
  | nil => cases hb
  | cons c as =>
    obtain rfl : c = b := Option.some.inj hb
    exact Nat.le_trans (h.own.rsp_range h.intact.1).2 hx

/-- Changes under the handler's return address. -/
theorem Inv.callee {s : State} {m' : Mem} {e : State} {as : List Activation} (h : Inv L ⟨s, .handler e, as⟩)
    (hk : L.Keeps ((e.cpu.gpr .rsp).toNat + 8) s.mem m') : L.Named m' ∧ Intact L m' as := by
  cases as with
  | nil => exact h.own.elim
  | cons a as =>
    have hp := h.intact.1
    obtain ⟨⟨r, hr⟩, -, -⟩ := h.own
    have hb := a.toNat_base hp
    have hrsp := calling_rsp hp hr
    have h2 := hp.below
    refine ⟨hk.named h.named, h.intact.frame fun b hb x hx hxi => ?_⟩
    obtain rfl : a = b := Option.some.inj hb
    exact hk.stack x (by omega) hxi

/-- **One step** keeps the invariant. -/
theorem Step.inv {κ κ' : Config} (hs : Step L H X κ κ') (h : Inv L κ) : Inv L κ' := by
  cases hs with
  | guest hn => exact ⟨hn h.named, rfl, trivial⟩
  | @instr s as i ins st hf hne hcall hjmp =>
    cases as with
    | nil => exact h.own.elim
    | cons a as =>
      obtain ⟨hn, hint, x, -, hx, hreach⟩ := h.exec hf hne st
      have hin := elsewhere_none hcall hjmp
      cases x with
      | goto j => exact ⟨hn, ⟨j, hreach⟩, hint⟩
      | out l =>
        rw [hin] at hx
        cases hx
  | @call s as i st hf =>
    cases as with
    | nil => exact h.own.elim
    | cons a as =>
      obtain ⟨hn, hint, x, -, hx, hreach⟩ := h.exec hf (by simp) st
      cases x with
      | goto j => cases hx
      | out l =>
        obtain rfl : l = .doHypervisorCallback := Option.some.inj hx
        obtain ⟨r, hr⟩ := hreach
        have hp := hint.1
        have hb := a.toNat_base hp
        have h1 := hp.room
        have hrsp := calling_rsp hp hr
        have hlo : L.lo ≤ ((execAt L i st s (.call .doHypervisorCallback)).cpu.gpr .rsp).toNat := by omega
        exact ⟨hn, ⟨⟨r, hr⟩, ⟨hlo, Nat.le_refl _⟩, ⟨fun _ _ _ => rfl, id⟩⟩, hint⟩
  | @handler e s s' as hst =>
    have hk := H.step_keeps e s s' hst
    obtain ⟨hn, hint⟩ := h.callee hk
    cases as with
    | nil => exact h.own.elim
    | cons a as =>
      obtain ⟨hr, -, hke⟩ := h.own
      exact ⟨hn, ⟨hr, H.step_rsp e s s' hst, hke.trans hk⟩, hint⟩
  | @ret e s s' as hst =>
    have hk := H.ret_keeps e s s' hst
    obtain ⟨hn, hint⟩ := h.callee hk
    cases as with
    | nil => exact h.own.elim
    | cons a as =>
      obtain ⟨⟨r, hr⟩, -, hke⟩ := h.own
      have hrow : (path.row callPos).isSome = true := by decide +kernel
      obtain ⟨b, hb⟩ := Option.isSome_iff_exists.mp hrow
      have hret : SysVReturn L.hi e s' :=
        ⟨H.ret_saved e s s' hst, H.ret_rsp e s s' hst, H.ret_rip e s s' hst, (hke.trans hk).stack⟩
      obtain ⟨d, hd⟩ := Annotated.ret path_check hint.1.fits (by decide) hb (by decide) hr hret
      exact ⟨hn, ⟨_, d, hd⟩, hint⟩
  | quiet _ hk => exact h.quiet hk
  | enter a hp _ hk he => exact h.enter hp hk he
  | iret hf => exact h.resume (h.iret hf) rfl
  | hypercall st hf => exact h.resume (h.hypercall hf st) rfl

theorem Config.Start.inv {κ : Config} (h : κ.Start L) : Inv L κ := by
  obtain ⟨s, md, as⟩ := κ
  obtain ⟨rfl, rfl, hn⟩ := h
  exact ⟨hn, rfl, trivial⟩

/-- **Every run** keeps the invariant. -/
theorem Run.inv {κ κ' : Config} (hr : Run L H X κ κ') (h : Inv L κ) : Inv L κ' := by
  induction hr with
  | refl => exact h
  | tail _ hs ih => exact hs.inv ih

end Synthol.Crt
