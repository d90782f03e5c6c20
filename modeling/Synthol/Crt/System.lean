import Synthol.Crt.Frame
import Mathlib.Logic.Relation

/-!
# The callback path at work

A processor executes a guest, the callback path, or `do_hypervisor_callback`; the hypervisor may enter the path at any
instruction boundary, so that activations nest (`Config`, `Step`). The path's code is `prog`, executed instruction by
instruction; the handler is any code that obeys the System V ABI (`Handler`), one step at a time, so that it too can be
interrupted; when the hypervisor raises an upcall, and what it does to the shared page meanwhile, is a parameter
(`Xen`). `Mode` and `Activation` record what was interrupted; no step depends on that record except by returning to it.
-/

namespace Synthol.Crt

open X86

/-! ## Layout -/

/-- Where things are: the code and the named data, the shared-info page, and the stack `[lo, hi)`. The page's flags and
the variable `HYPERVISOR_shared_info` are apart from the stack and from each other. -/
structure Layout where
  E : Placed path.prog
  sharedInfo : Word
  lo : Nat
  hi : Nat
  hi_lt : hi + 8 < 2 ^ 64
  var_stack : ∀ x, Within (E.glob .hypervisorSharedInfo) 8 x → ¬(lo ≤ x.toNat ∧ x.toNat < hi)
  pending_stack : ¬(lo ≤ (sharedInfo + evtchnUpcallPending).toNat ∧ (sharedInfo + evtchnUpcallPending).toNat < hi)
  mask_stack : ¬(lo ≤ (sharedInfo + evtchnUpcallMask).toNat ∧ (sharedInfo + evtchnUpcallMask).toNat < hi)
  mask_var : ¬Within (E.glob .hypervisorSharedInfo) 8 (sharedInfo + evtchnUpcallMask)

namespace Layout

variable (L : Layout)

def pendingAddr : Word := L.sharedInfo + evtchnUpcallPending
def maskAddr : Word := L.sharedInfo + evtchnUpcallMask

/-- `HYPERVISOR_shared_info` points to the page. -/
def Named (m : Mem) : Prop := m.read64 (L.E.glob .hypervisorSharedInfo) = L.sharedInfo

/-- The stack from `n` up is as it was, and so is the variable. -/
structure Keeps (n : Nat) (m m' : Mem) : Prop where
  stack : ∀ x : Word, n ≤ x.toNat → x.toNat < L.hi → m' x = m x
  named : L.Named m → L.Named m'

end Layout

/-! ## Activations -/

/-- What the processor executes: a guest, the callback path, or the handler, which was entered in state `e`. -/
inductive Mode
  | guest
  | crt
  | handler (e : State)

/-- An activation of the callback: what it interrupted (the registers as they were, the memory, and what was being
executed), and the frame Xen pushed. -/
structure Activation where
  cpu : Cpu
  mem : Mem
  mode : Mode
  /-- The stack pointer on entry. -/
  base : Word
  cs : Word
  rflags : Word
  ss : Word

namespace Activation

variable (a : Activation)

/-- The pushed words, from `base` up. -/
def words : List Word := [a.cpu.gpr .rcx, a.cpu.gpr .r11, a.cpu.rip, a.cs, a.rflags, a.cpu.gpr .rsp, a.ss]

/-- RFLAGS.IF as pushed. -/
def enabled : Bool := a.rflags.getLsbD 9

/-- What the symbols of a frame stand for. -/
def val (L : Layout) : Valuation Sym where
  sym
    | .gpr r => a.cpu.gpr r
    | .rip => a.cpu.rip
    | .cs => a.cs
    | .rflags => a.rflags
    | .ss => a.ss
    | .sharedInfo => L.sharedInfo
  base := a.base - rdiSlot

/-- The pushed words are below the interrupted `rsp`, with room under them for the frame that the path builds; they hold
the interrupted values, except that the hypervisor has its own IF and privilege levels. -/
structure Pushed (L : Layout) : Prop where
  room : L.lo + 128 ≤ a.base.toNat
  below : a.base.toNat + 56 ≤ (a.cpu.gpr .rsp).toNat
  inside : (a.cpu.gpr .rsp).toNat ≤ L.hi
  cs : a.cs.setWidth 16 ||| 3 = a.cpu.cs ||| 3
  ss : a.ss.setWidth 16 ||| 3 = a.cpu.ss ||| 3
  rflags : a.rflags ||| 0x200 = a.cpu.rflags ||| 0x200

/-- The registers as the path finds them. -/
structure Entered (L : Layout) (c : Cpu) : Prop where
  gpr : ∀ r, r ≠ .rcx → r ≠ .r11 → r ≠ .rsp → c.gpr r = a.cpu.gpr r
  rsp : c.gpr .rsp = a.base
  rip : c.rip = L.E.label .hypervisorCallback

end Activation

/-! ## The handler and the hypervisor -/

/-- Code in the place of `do_hypervisor_callback`. Its steps are given the state it was entered in. It keeps to the
stack below the return address, and when it returns, it has preserved what the ABI says. -/
structure Handler (L : Layout) where
  step : State → State → State → Prop
  ret : State → State → State → Prop
  step_keeps : ∀ e s s', step e s s' → L.Keeps ((e.cpu.gpr .rsp).toNat + 8) s.mem s'.mem
  step_rsp : ∀ e s s', step e s s' →
    L.lo ≤ (s'.cpu.gpr .rsp).toNat ∧ (s'.cpu.gpr .rsp).toNat ≤ (e.cpu.gpr .rsp).toNat
  ret_keeps : ∀ e s s', ret e s s' → L.Keeps ((e.cpu.gpr .rsp).toNat + 8) s.mem s'.mem
  ret_saved : ∀ e s s', ret e s s' → ∀ r, r.calleeSaved = true → s'.cpu.gpr r = e.cpu.gpr r
  ret_rsp : ∀ e s s', ret e s s' → s'.cpu.gpr .rsp = e.cpu.gpr .rsp + 8
  ret_rip : ∀ e s s', ret e s s' → s'.cpu.rip = e.mem.read64 (e.cpu.gpr .rsp)

/-- Any code that the compiler may produce for a C function from int to int that touches no memory of its caller: it has
a stack frame, and returns `f` of its argument. -/
def Handler.ofC (L : Layout) (f : BitVec 32 → BitVec 32) : Handler L where
  step e s s' := (L.lo ≤ (s'.cpu.gpr .rsp).toNat ∧ (s'.cpu.gpr .rsp).toNat ≤ (e.cpu.gpr .rsp).toNat) ∧
    L.Keeps ((e.cpu.gpr .rsp).toNat + 8) s.mem s'.mem ∧
      ∀ x : Word, ¬(L.lo ≤ x.toNat ∧ x.toNat < L.hi) → s'.mem x = s.mem x
  ret e s s' := (∀ r, r.calleeSaved = true → s'.cpu.gpr r = e.cpu.gpr r) ∧
    s'.cpu.gpr .rsp = e.cpu.gpr .rsp + 8 ∧ s'.cpu.rip = e.mem.read64 (e.cpu.gpr .rsp) ∧
      (s'.cpu.gpr .rax).setWidth 32 = f ((e.cpu.gpr .rdi).setWidth 32) ∧ s'.mem = s.mem
  step_keeps _ _ _ h := h.2.1
  step_rsp _ _ _ h := h.1
  ret_keeps _ _ _ h := h.2.2.2.2 ▸ ⟨fun _ _ _ => rfl, id⟩
  ret_saved _ _ _ h := h.1
  ret_rsp _ _ _ h := h.2.1
  ret_rip _ _ _ h := h.2.2.1

/-- `do_hypervisor_callback` as defined in `src/src/setup.c`. -/
def doHypervisorCallback (i : BitVec 32) : BitVec 32 := i

/-- What the hypervisor does to memory: on its own, and as it raises an upcall that saves the given rflags. -/
structure Xen where
  quiet : Mem → Mem → Prop
  upcall : Word → Mem → Mem → Prop

/-- The hypervisor writes what it likes outside the stack, and raises an upcall whenever the mask is clear. -/
def Xen.unmasked (L : Layout) : Xen := ⟨fun _ _ => True, fun _ m _ => m L.maskAddr = 0⟩

/-! ## Steps -/

/-- The state of the processor, what it executes, and the activations, innermost first. -/
structure Config where
  s : State
  mode : Mode
  acts : List Activation

/-- Xen's iret hypercall: the word of flags is under the words that `iretq` takes. -/
def hypercallIret (s : State) : State := State.iret ⟨s.cpu.set .rsp (s.cpu.gpr .rsp + 8), s.mem⟩

section Steps

variable (L : Layout) (H : Handler L) (X : Xen)

/-- The instruction of the path at `i` in state `s`. -/
def execAt (i : Nat) (st : Word) (s : State) (ins : Instr Glob Label) : State :=
  exec L.E.toLink (L.E.text (i + 1)) st s ins

inductive Step : Config → Config → Prop
  /-- The guest runs. -/
  | guest {s s'} : (L.Named s.mem → L.Named s'.mem) → Step ⟨s, .guest, []⟩ ⟨s', .guest, []⟩
  /-- An instruction of the path. -/
  | instr {s as i ins} (st : Word) : Fetch L.E s.cpu i ins → ins ≠ .iretq → ins ≠ .call .doHypervisorCallback →
    ins ≠ .jmp .hypercallIret → Step ⟨s, .crt, as⟩ ⟨execAt L i st s ins, .crt, as⟩
  | call {s as i} (st : Word) : Fetch L.E s.cpu i (.call .doHypervisorCallback) →
    Step ⟨s, .crt, as⟩ ⟨execAt L i st s (.call .doHypervisorCallback),
      .handler (execAt L i st s (.call .doHypervisorCallback)), as⟩
  | handler {e s s' as} : H.step e s s' → Step ⟨s, .handler e, as⟩ ⟨s', .handler e, as⟩
  | ret {e s s' as} : H.ret e s s' → Step ⟨s, .handler e, as⟩ ⟨s', .crt, as⟩
  /-- The hypervisor writes to the shared page. -/
  | quiet {c m m' md as} : X.quiet m m' → L.Keeps L.lo m m' → Step ⟨⟨c, m⟩, md, as⟩ ⟨⟨c, m'⟩, md, as⟩
  /-- The hypervisor enters the path: it pushes a frame and sets the mask. -/
  | enter {m' c' as} (a : Activation) : a.Pushed L → X.upcall a.rflags a.mem m' → L.Keeps L.lo a.mem m' →
    a.Entered L c' → Step ⟨⟨a.cpu, a.mem⟩, a.mode, as⟩
      ⟨⟨c', (m'.writeWords a.base a.words).write8 L.maskAddr 1⟩, .crt, a :: as⟩
  | iret {s a as i} : Fetch L.E s.cpu i .iretq → Step ⟨s, .crt, a :: as⟩ ⟨s.iret, a.mode, as⟩
  /-- Control goes to the iret hypercall, and the hypervisor returns from there. -/
  | hypercall {s a as i} (st : Word) : Fetch L.E s.cpu i (.jmp .hypercallIret) →
    Step ⟨s, .crt, a :: as⟩ ⟨hypercallIret (execAt L i st s (.jmp .hypercallIret)), a.mode, as⟩

abbrev Run : Config → Config → Prop := Relation.ReflTransGen (Step L H X)

end Steps

/-! ## Stretches of the path -/

/-- The label that an instruction leaves the path to. -/
def elsewhere : Instr Glob Label → Option Label
  | .call .doHypervisorCallback => some .doHypervisorCallback
  | .jmp .hypercallIret => some .hypercallIret
  | _ => none

/-- The instructions at some positions, one after the other. -/
def along (L : Layout) : List Nat → State → State
  | [], s => s
  | i :: is, s =>
    match prog.code[i]? with
    | some ins => along L is (execAt L i 0 s ins)
    | none => s

/-- Control does go along those positions, and stays in the path. -/
def onTrack (L : Layout) : List Nat → State → Bool
  | [], _ => true
  | i :: is, s =>
    match prog.code[i]? with
    | some ins =>
      s.cpu.rip == L.E.text i && ins != .iretq && elsewhere ins == none && onTrack L is (execAt L i 0 s ins)
    | none => false

theorem Run.along {L : Layout} {H : Handler L} {X : Xen} {as : List Activation} :
    ∀ {is : List Nat} {s : State}, onTrack L is s = true → Run L H X ⟨s, .crt, as⟩ ⟨along L is s, .crt, as⟩
  | [], _, _ => .refl
  | i :: is, s, h => by
    unfold onTrack at h
    unfold Crt.along
    split at h
    · rename_i ins hi
      simp only [Bool.and_eq_true, beq_iff_eq, bne_iff_ne, ne_eq] at h
      obtain ⟨⟨⟨hrip, hne⟩, hel⟩, hrest⟩ := h
      refine .head (.instr 0 ⟨hrip, hi⟩ hne ?_ ?_) (Run.along hrest)
      · rintro rfl
        cases hel
      · rintro rfl
        cases hel
    · cases h

/-- A guest that has not been interrupted yet. -/
def Config.Start (L : Layout) (κ : Config) : Prop := κ.mode = .guest ∧ κ.acts = [] ∧ L.Named κ.s.mem

/-! ## A run in a flat layout

The code is at `0x1000`, named data at `0x9000`, the shared-info page at `0xA000` and the stack from `0x10000` to
`0x20000`. -/

namespace Flat

def text (i : Nat) : Word := BitVec.ofNat 64 (0x1000 + 8 * i)

theorem text_inj (i j : Nat) (hi : i < 107) (hj : j < 107) (h : text i = text j) : i = j := by
  have hn := congrArg BitVec.toNat h
  simp only [text, BitVec.toNat_ofNat] at hn
  omega

def layout : Layout where
  E :=
    { glob := fun
        | .fs8 => 0x9008
        | .hypervisorSharedInfo => 0x9100
        | .supervisorModeKernel => 0x9200
      label := fun l => ((prog.pos l).map text).getD (if l = .hypercallIret then 0x7000 else 0x8000)
      text := text
      text_inj := text_inj
      label_pos := fun l i h => by rw [show prog.pos l = some i from h]; rfl }
  sharedInfo := 0xA000
  lo := 0x10000
  hi := 0x20000
  hi_lt := by decide
  var_stack := fun x hx => by
    have hx' : (x - 0x9100).toNat < 8 := hx
    bv_omega
  pending_stack := by decide
  mask_stack := by decide
  mask_var := by decide

/-- The state after a return to the caller. -/
def returned (e : State) (m : Mem) : State :=
  ⟨(e.cpu.set .rsp (e.cpu.gpr .rsp + 8)).goto (e.mem.read64 (e.cpu.gpr .rsp)), m⟩

/-- A handler that clears `evtchn_upcall_pending` and returns. -/
def handler : Handler layout where
  step _ _ _ := False
  ret e s s' := layout.lo ≤ (e.cpu.gpr .rsp).toNat ∧ s' = returned e (s.mem.write8 layout.pendingAddr 0)
  step_keeps _ _ _ h := h.elim
  step_rsp _ _ _ h := h.elim
  ret_keeps e s s' h := by
    obtain ⟨hlo, rfl⟩ := h
    refine ⟨fun x hx _ => Mem.write8_other _ ?_, fun hn => Eq.trans ?_ hn⟩
    · rintro rfl
      have hp : layout.pendingAddr.toNat = 0xA000 := rfl
      have hl : layout.lo = 0x10000 := rfl
      omega
    · refine Mem.read64_congr fun x hx => Mem.write8_other _ ?_
      rintro rfl
      exact absurd hx (by decide)
  ret_saved e s s' h r hr := by
    obtain ⟨-, rfl⟩ := h
    exact Cpu.set_other _ _ _ (by rintro rfl; cases hr)
  ret_rsp e s s' h := by
    obtain ⟨-, rfl⟩ := h
    exact Cpu.set_self e.cpu .rsp _
  ret_rip e s s' h := by
    obtain ⟨-, rfl⟩ := h
    rfl

/-- The guest, as the upcall finds it. -/
def guest : Cpu where
  gpr
    | .rsp => 0x1F000
    | .rax => 1 | .rcx => 2 | .rdx => 3 | .rbx => 4 | .rbp => 5 | .rsi => 6 | .rdi => 7
    | .r8 => 8 | .r9 => 9 | .r10 => 10 | .r11 => 11 | .r12 => 12 | .r13 => 13 | .r14 => 14 | .r15 => 15
  rip := 0x4000
  rflags := 0x202
  cs := 0xe033
  ss := 0xe02b

def act : Activation where
  cpu := guest
  mem := Mem.write64 (fun _ => 0) 0x9100 0xA000
  mode := .guest
  base := 0x1EFC0
  cs := 0xe033
  rflags := 0x202
  ss := 0xe02b

/-- An event makes `evtchn_upcall_pending` nonzero. -/
def arrived : Mem := act.mem.write8 layout.pendingAddr 1

/-- The state in which the path is entered. -/
def entry : State :=
  ⟨(guest.set .rsp act.base).goto (text 23),
    (arrived.writeWords act.base act.words).write8 layout.maskAddr 1⟩

/-- Where the handler is called, entered, and has returned, and where the path leaves. -/
def atCall : State := along layout (List.range' 23 7 ++ List.range 22 ++ List.range' 30 4) entry
def inHandler : State := execAt layout callPos 0 atCall (.call .doHypervisorCallback)
def back : State := returned inHandler (inHandler.mem.write8 layout.pendingAddr 0)
def atLeave : State :=
  along layout ([35, 36] ++ List.range' 97 10 ++ List.range' 71 6 ++ List.range' 37 20) back

theorem start : Config.Start layout ⟨⟨act.cpu, act.mem⟩, act.mode, []⟩ := ⟨rfl, rfl, by unfold Layout.Named; decide⟩

theorem pushed : act.Pushed layout := ⟨by decide, by decide, by decide, by decide, by decide, by decide⟩

theorem atCall_fetch : Fetch layout.E atCall.cpu callPos (.call .doHypervisorCallback) :=
  ⟨by decide +kernel, rfl⟩

theorem atLeave_fetch : Fetch layout.E atLeave.cpu (iretPos false) .iretq := ⟨by decide +kernel, rfl⟩

section Runs

variable {H : Handler layout} {X : Xen} (hX : X.upcall act.rflags act.mem arrived)
include hX

theorem run_entry : Run layout H X ⟨⟨act.cpu, act.mem⟩, act.mode, []⟩ ⟨entry, .crt, [act]⟩ := by
  have hkeep : layout.Keeps layout.lo act.mem arrived := by
    refine ⟨fun x hx _ => Mem.write8_other _ ?_, fun _ => by unfold Layout.Named; decide⟩
    rintro rfl
    exact absurd hx (by decide)
  have hent : act.Entered layout entry.cpu :=
    ⟨fun r _ _ hr => Cpu.set_other guest .rsp act.base hr, by decide, by decide⟩
  exact .single (.enter act pushed hX hkeep hent)

theorem run_call : Run layout H X ⟨⟨act.cpu, act.mem⟩, act.mode, []⟩ ⟨atCall, .crt, [act]⟩ :=
  (run_entry hX).trans (Run.along (by decide +kernel))

theorem run_leave : Run layout handler X ⟨⟨act.cpu, act.mem⟩, act.mode, []⟩ ⟨atLeave, .crt, [act]⟩ := by
  have hcall : Step layout handler X ⟨atCall, .crt, [act]⟩ ⟨inHandler, .handler inHandler, [act]⟩ :=
    .call 0 atCall_fetch
  have hret : Step layout handler X ⟨inHandler, .handler inHandler, [act]⟩ ⟨back, .crt, [act]⟩ :=
    .ret ⟨by decide +kernel, rfl⟩
  exact (((run_call hX).tail hcall).tail hret).trans (Run.along (by decide +kernel))

end Runs

end Flat

end Synthol.Crt
