import Synthol.X86.Mem
import Mathlib.Logic.Function.Basic

/-!
# The instructions of x86-64 that hand-written entry code uses

A `State` is a register file (`Cpu`) and a memory. `exec` executes one instruction; `next` is the address of the
instruction after it. Code refers to data by names in `G` and to code by labels in `L`, whose addresses a `Link`
supplies, so that a program is closed data and the linker's choices stay arbitrary.

Of the status flags only ZF is computed. The other five are whatever `st` says, so a statement about every `st`
covers their real values.
-/

namespace Synthol.X86

inductive Reg
  | rax | rcx | rdx | rbx | rsp | rbp | rsi | rdi | r8 | r9 | r10 | r11 | r12 | r13 | r14 | r15
  deriving DecidableEq, Repr

def Reg.all : List Reg := [.rax, .rcx, .rdx, .rbx, .rsp, .rbp, .rsi, .rdi, .r8, .r9, .r10, .r11, .r12, .r13, .r14, .r15]

theorem Reg.mem_all (r : Reg) : r ∈ Reg.all := by cases r <;> decide

/-- The registers a function preserves under the System V ABI, apart from `rsp`. -/
def Reg.calleeSaved : Reg → Bool
  | .rbx | .rbp | .r12 | .r13 | .r14 | .r15 => true
  | _ => false

/-! ## Register files -/

@[ext] structure Cpu where
  gpr : Reg → Word
  rip : Word
  rflags : Word
  cs : BitVec 16
  ss : BitVec 16

namespace Cpu

def set (c : Cpu) (r : Reg) (w : Word) : Cpu := { c with gpr := Function.update c.gpr r w }
def goto (c : Cpu) (a : Word) : Cpu := { c with rip := a }

def zf (c : Cpu) : Bool := c.rflags.getLsbD 6

/-- The status flags of an arithmetic result: ZF is `z`; CF, PF, AF, SF and OF are taken from `st`. -/
def status (c : Cpu) (z : Bool) (st : Word) : Cpu :=
  { c with rflags := (c.rflags &&& ~~~0x8D5#64) ||| (st &&& 0x895#64) ||| (if z then 0x40#64 else 0#64) }

/-- `cld`. -/
def clearDF (c : Cpu) : Cpu := { c with rflags := c.rflags &&& ~~~0x400#64 }

variable (c : Cpu) (r : Reg) (w a st : Word) (z : Bool)

@[simp] theorem set_self : (c.set r w).gpr r = w := Function.update_self ..
theorem set_other {q : Reg} (h : q ≠ r) : (c.set r w).gpr q = c.gpr q := Function.update_of_ne h ..
@[simp] theorem set_rip : (c.set r w).rip = c.rip := rfl
@[simp] theorem set_rflags : (c.set r w).rflags = c.rflags := rfl
@[simp] theorem set_zf : (c.set r w).zf = c.zf := rfl
@[simp] theorem goto_gpr : (c.goto a).gpr = c.gpr := rfl
@[simp] theorem goto_rip : (c.goto a).rip = a := rfl
@[simp] theorem goto_rflags : (c.goto a).rflags = c.rflags := rfl
@[simp] theorem goto_zf : (c.goto a).zf = c.zf := rfl
@[simp] theorem status_gpr : (c.status z st).gpr = c.gpr := rfl
@[simp] theorem status_rip : (c.status z st).rip = c.rip := rfl
@[simp] theorem clearDF_gpr : c.clearDF.gpr = c.gpr := rfl
@[simp] theorem clearDF_rip : c.clearDF.rip = c.rip := rfl

@[simp] theorem status_zf : (c.status z st).zf = z := by
  cases z <;> simp [status, zf]

@[simp] theorem clearDF_zf : c.clearDF.zf = c.zf := by
  simp [clearDF, zf]

end Cpu

structure State where
  cpu : Cpu
  mem : Mem

/-! ## Instructions -/

/-- Memory operands: `disp(base)`, or a named location (absolute or segment-relative). -/
inductive Ea (G : Type)
  | base (disp : Word) (r : Reg)
  | glob (g : G)
  deriving DecidableEq

/-- Operands are in AT&T order, source before destination. -/
inductive Instr (G L : Type)
  /-- `movq %src, %dst` -/
  | movRR (src dst : Reg)
  /-- `movq src, %dst` -/
  | movMR (src : Ea G) (dst : Reg)
  /-- `movq %src, dst` -/
  | movRM (src : Reg) (dst : Ea G)
  /-- `movq $imm, dst` -/
  | movIM (imm : Word) (dst : Ea G)
  /-- `movl src, %dst` -/
  | movlMR (src : Ea G) (dst : Reg)
  /-- `movb $imm, dst` -/
  | movbIM (imm : Byte) (dst : Ea G)
  /-- `cmovzq %src, %dst` -/
  | cmovz (src dst : Reg)
  /-- `leaq l(%rip), %dst` -/
  | lea (l : L) (dst : Reg)
  /-- `addq $imm, %dst` -/
  | addIR (imm : Word) (dst : Reg)
  /-- `subq $imm, %dst` -/
  | subIR (imm : Word) (dst : Reg)
  /-- `shrl $n, %dst` -/
  | shrlIR (n : Nat) (dst : Reg)
  /-- `andb src, %dst` (low byte) -/
  | andbMR (src : Ea G) (dst : Reg)
  /-- `andb $imm, %dst` (low byte) -/
  | andbIR (imm : Byte) (dst : Reg)
  /-- `andl $imm, dst` -/
  | andlIM (imm : BitVec 32) (dst : Ea G)
  /-- `orb $imm, dst` -/
  | orbIM (imm : Byte) (dst : Ea G)
  /-- `testb $imm, src` -/
  | testbIM (imm : Byte) (src : Ea G)
  /-- `testl $imm, src` -/
  | testlIM (imm : BitVec 32) (src : Ea G)
  | pushR (src : Reg)
  | pushI (imm : Word)
  | popR (dst : Reg)
  | cld
  | jmp (l : L)
  | jnz (l : L)
  | call (l : L)
  /-- `call *%r` -/
  | callR (r : Reg)
  | iretq
  deriving DecidableEq

/-- The addresses the linker gives to data names and code labels. -/
structure Link (G L : Type) where
  glob : G → Word
  label : L → Word

section Exec

variable {G L : Type} (E : Link G L)

/-- The effective address of an operand. -/
def Ea.addr (c : Cpu) : Ea G → Word
  | .base d r => c.gpr r + d
  | .glob g => E.glob g

/-- The low byte of a register replaced. -/
def lowByte (w : Word) (b : Byte) : Word := (w &&& ~~~0xFF#64) ||| b.setWidth 64

/-- `pushq`. -/
def State.push (s : State) (w : Word) : State :=
  ⟨s.cpu.set .rsp (s.cpu.gpr .rsp - 8), s.mem.write64 (s.cpu.gpr .rsp - 8) w⟩

/-- `iretq`: pop rip, cs, rflags, rsp and ss. -/
def State.iret (s : State) : State :=
  let p := s.cpu.gpr .rsp
  ⟨{ gpr := Function.update s.cpu.gpr .rsp (s.mem.read64 (p + 24))
     rip := s.mem.read64 p
     cs := (s.mem.read64 (p + 8)).setWidth 16
     rflags := s.mem.read64 (p + 16)
     ss := (s.mem.read64 (p + 32)).setWidth 16 }, s.mem⟩

/-- One instruction. -/
def exec (next st : Word) (s : State) : Instr G L → State
  | .movRR a d => ⟨(s.cpu.set d (s.cpu.gpr a)).goto next, s.mem⟩
  | .movMR a d => ⟨(s.cpu.set d (s.mem.read64 (a.addr E s.cpu))).goto next, s.mem⟩
  | .movRM a d => ⟨s.cpu.goto next, s.mem.write64 (d.addr E s.cpu) (s.cpu.gpr a)⟩
  | .movIM i d => ⟨s.cpu.goto next, s.mem.write64 (d.addr E s.cpu) i⟩
  | .movlMR a d => ⟨(s.cpu.set d ((s.mem.read32 (a.addr E s.cpu)).setWidth 64)).goto next, s.mem⟩
  | .movbIM i d => ⟨s.cpu.goto next, s.mem.write8 (d.addr E s.cpu) i⟩
  | .cmovz a d => ⟨(if s.cpu.zf then s.cpu.set d (s.cpu.gpr a) else s.cpu).goto next, s.mem⟩
  | .lea l d => ⟨(s.cpu.set d (E.label l)).goto next, s.mem⟩
  | .addIR i d =>
    let w := s.cpu.gpr d + i
    ⟨((s.cpu.set d w).status (w == 0) st).goto next, s.mem⟩
  | .subIR i d =>
    let w := s.cpu.gpr d - i
    ⟨((s.cpu.set d w).status (w == 0) st).goto next, s.mem⟩
  | .shrlIR n d =>
    let w := (s.cpu.gpr d).setWidth 32 >>> n
    ⟨((s.cpu.set d (w.setWidth 64)).status (w == 0) st).goto next, s.mem⟩
  | .andbMR a d =>
    let b := (s.cpu.gpr d).setWidth 8 &&& s.mem (a.addr E s.cpu)
    ⟨((s.cpu.set d (lowByte (s.cpu.gpr d) b)).status (b == 0) st).goto next, s.mem⟩
  | .andbIR i d =>
    let b := (s.cpu.gpr d).setWidth 8 &&& i
    ⟨((s.cpu.set d (lowByte (s.cpu.gpr d) b)).status (b == 0) st).goto next, s.mem⟩
  | .andlIM i d =>
    let w := s.mem.read32 (d.addr E s.cpu) &&& i
    ⟨(s.cpu.status (w == 0) st).goto next, s.mem.write32 (d.addr E s.cpu) w⟩
  | .orbIM i d =>
    let b := s.mem (d.addr E s.cpu) ||| i
    ⟨(s.cpu.status (b == 0) st).goto next, s.mem.write8 (d.addr E s.cpu) b⟩
  | .testbIM i a => ⟨(s.cpu.status (s.mem (a.addr E s.cpu) &&& i == 0) st).goto next, s.mem⟩
  | .testlIM i a => ⟨(s.cpu.status (s.mem.read32 (a.addr E s.cpu) &&& i == 0) st).goto next, s.mem⟩
  | .pushR a => let t := s.push (s.cpu.gpr a); ⟨t.cpu.goto next, t.mem⟩
  | .pushI i => let t := s.push i; ⟨t.cpu.goto next, t.mem⟩
  -- `popq %rsp` keeps the popped word: the increment comes first
  | .popR d =>
    let c := s.cpu.set .rsp (s.cpu.gpr .rsp + 8)
    ⟨(c.set d (s.mem.read64 (s.cpu.gpr .rsp))).goto next, s.mem⟩
  | .cld => ⟨s.cpu.clearDF.goto next, s.mem⟩
  | .jmp l => ⟨s.cpu.goto (E.label l), s.mem⟩
  | .jnz l => ⟨s.cpu.goto (if s.cpu.zf then next else E.label l), s.mem⟩
  | .call l => let t := s.push next; ⟨t.cpu.goto (E.label l), t.mem⟩
  | .callR r => let t := s.push next; ⟨t.cpu.goto (s.cpu.gpr r), t.mem⟩
  | .iretq => s.iret

end Exec

/-! ## Programs -/

/-- Straight code with labels; `at l` is the position a label of the program stands at, and `none` for a label that
is defined elsewhere. -/
structure Program (G L : Type) where
  code : List (Instr G L)
  pos : L → Option Nat

/-- A program put at its addresses: the `i`-th instruction is at `text i`, and the labels agree. -/
structure Placed {G L : Type} (P : Program G L) extends Link G L where
  text : Nat → Word
  text_inj : ∀ i j, i < P.code.length → j < P.code.length → text i = text j → i = j
  label_pos : ∀ l i, P.pos l = some i → label l = text i

/-- `ins` is the instruction at `i`, and the next one to execute. -/
def Fetch {G L : Type} {P : Program G L} (E : Placed P) (c : Cpu) (i : Nat) (ins : Instr G L) : Prop :=
  c.rip = E.text i ∧ P.code[i]? = some ins

/-- At most one instruction is next. -/
theorem Fetch.unique {G L : Type} {P : Program G L} {E : Placed P} {c : Cpu} {i j : Nat} {a b : Instr G L}
    (h₁ : Fetch E c i a) (h₂ : Fetch E c j b) : i = j ∧ a = b := by
  obtain ⟨hr₁, hc₁⟩ := h₁
  obtain ⟨hr₂, hc₂⟩ := h₂
  have hi := (List.getElem?_eq_some_iff.mp hc₁).1
  have hj := (List.getElem?_eq_some_iff.mp hc₂).1
  have hij := E.text_inj i j hi hj (hr₁.symm.trans hr₂)
  subst hij
  exact ⟨rfl, Option.some.inj (hc₁.symm.trans hc₂)⟩

end Synthol.X86
