import Synthol.X86.Machine

/-!
# The event-callback path of crt1.S

`crt1` is the text of `src/crt/x86_64/crt1.S` from `error_entry` to the end of `error_exit`, with its macros as
functions from their arguments to lines. `evtchn_upcall_pending` is defined empty in the source, so that
`evtchn_upcall_pending(reg)` is the byte at displacement 0.
-/

namespace Synthol.Crt

open X86

/-- Named data: the word at `%fs:8`, the variable `HYPERVISOR_shared_info`, and the byte
`xen_features + XENFEAT_supervisor_mode_kernel`. -/
inductive Glob
  | fs8 | hypervisorSharedInfo | supervisorModeKernel
  deriving DecidableEq

/-- The labels of the path. `one` and `two` are the labels `1:` and `2:` of the two uses of `HYPERVISOR_IRET`, in
`restore_all_enable_events` (`false`) and in `retint_kernel` (`true`). The last two are defined elsewhere:
`hypercallIret` is `hypercall_page + (__HYPERVISOR_iret * 32)`. -/
inductive Label
  | errorEntry | errorCallHandler | hypervisorCallback | hypervisorCallback2 | eleven
  | restoreAllEnableEvents | fourteen | retintKernel | errorExit
  | one (second : Bool) | two (second : Bool)
  | doHypervisorCallback | hypercallIret
  deriving DecidableEq

inductive Line
  | label (l : Label)
  | ins (i : Instr Glob Label)

abbrev evtchnUpcallPending : Word := 0
abbrev evtchnUpcallMask : Word := 1
abbrev nmiMask : BitVec 32 := 0x80000000
abbrev rdiSlot : Word := 112
abbrev origRax : Word := 120
abbrev eflags : Word := 144

/-- `d(%rsp)`. -/
abbrev atRsp (d : Word) : Ea Glob := .base d .rsp

/-! ## Macros -/

def restoreAll : List Line := [
  .ins (.movMR (atRsp 0) .r11),
  .ins (.movMR (atRsp 8) .r10),
  .ins (.movMR (atRsp 16) .r9),
  .ins (.movMR (atRsp 24) .r8),
  .ins (.movMR (atRsp 32) .rax),
  .ins (.movMR (atRsp 40) .rcx),
  .ins (.movMR (atRsp 48) .rdx),
  .ins (.movMR (atRsp 56) .rsi),
  .ins (.movMR (atRsp 64) .rdi),
  .ins (.addIR 80 .rsp)]

def hypervisorIret (second : Bool) (flag : Word) : List Line := [
  .ins (.testlIM nmiMask (atRsp 16)),
  .ins (.jnz (.two second)),
  .ins (.testbIM 1 (.glob .supervisorModeKernel)),
  .ins (.jnz (.one second)),
  .ins (.orbIM 3 (atRsp 8)),
  .ins (.orbIM 3 (atRsp 32)),
  .label (.one second),
  .ins .iretq,
  .label (.two second),
  .ins (.andlIM (~~~nmiMask) (atRsp 16)),
  .ins (.pushI flag),
  .ins (.jmp .hypercallIret)]

def zeroentry (sym : Label) : List Line := [
  .ins (.movMR (atRsp 0) .rcx),
  .ins (.movMR (atRsp 8) .r11),
  .ins (.addIR 0x10 .rsp),
  .ins (.pushI 0),
  .ins (.pushR .rax),
  .ins (.lea sym .rax),
  .ins (.jmp .errorEntry)]

def xenGetVcpuInfo (reg : Reg) : Line := .ins (.movMR (.glob .hypervisorSharedInfo) reg)
def xenLockedBlockEvents (reg : Reg) : Line := .ins (.movbIM 1 (.base evtchnUpcallMask reg))
def xenLockedUnblockEvents (reg : Reg) : Line := .ins (.movbIM 0 (.base evtchnUpcallMask reg))
def xenTestPending (reg : Reg) : Line := .ins (.testbIM 0xFF (.base evtchnUpcallPending reg))
def xenBlockEvents (reg : Reg) : List Line := [xenGetVcpuInfo reg, xenLockedBlockEvents reg]
def xenUnblockEvents (reg : Reg) : List Line := [xenGetVcpuInfo reg, xenLockedUnblockEvents reg]

/-! ## The text -/

def errorEntry : List Line := [
  .label .errorEntry,
  .ins .cld,
  .ins (.subIR 112 .rsp),
  .ins (.movRM .rsi (atRsp 104)),
  .ins (.movMR (atRsp 112) .rsi),
  .ins (.movRM .rdx (atRsp 96)),
  .ins (.movRM .rcx (atRsp 88)),
  .ins (.movRM .rsi (atRsp 80)),
  .ins (.movRM .r8 (atRsp 72)),
  .ins (.movRM .r9 (atRsp 64)),
  .ins (.movRM .r10 (atRsp 56)),
  .ins (.movRM .r11 (atRsp 48)),
  .ins (.movRM .rbx (atRsp 40)),
  .ins (.movRM .rbp (atRsp 32)),
  .ins (.movRM .r12 (atRsp 24)),
  .ins (.movRM .r13 (atRsp 16)),
  .ins (.movRM .r14 (atRsp 8)),
  .ins (.movRM .r15 (atRsp 0))]

def errorCallHandler : List Line := [
  .label .errorCallHandler,
  .ins (.movRM .rdi (atRsp rdiSlot)),
  .ins (.movRR .rsp .rdi),
  .ins (.movMR (atRsp origRax) .rsi),
  .ins (.movIM (-1) (atRsp origRax)),
  .ins (.callR .rax),
  .ins (.jmp .errorExit)]

def hypervisorCallback : List Line :=
  .label .hypervisorCallback :: zeroentry .hypervisorCallback2

def hypervisorCallback2 : List Line := [
  .label .hypervisorCallback2,
  .ins (.movRR .rdi .rsp),
  .label .eleven,
  .ins (.movMR (.glob .fs8) .rax),
  .ins (.cmovz .rax .rsp),
  .ins (.pushR .rdi),
  .ins (.call .doHypervisorCallback),
  .ins (.popR .rsp),
  .ins (.jmp .errorExit)]

def restoreAllEnableEvents : List Line :=
  .label .restoreAllEnableEvents :: xenUnblockEvents .rsi ++ [
  xenTestPending .rsi,
  .ins (.jnz .fourteen)] ++ restoreAll ++ hypervisorIret false 0 ++ [
  .label .fourteen,
  xenLockedBlockEvents .rsi,
  .ins (.subIR 48 .rsp),
  .ins (.movRM .rbx (atRsp 40)),
  .ins (.movRM .rbp (atRsp 32)),
  .ins (.movRM .r12 (atRsp 24)),
  .ins (.movRM .r13 (atRsp 16)),
  .ins (.movRM .r14 (atRsp 8)),
  .ins (.movRM .r15 (atRsp 0)),
  .ins (.movRR .rsp .rdi),
  .ins (.jmp .eleven)]

def retintKernel : List Line := [
  .label .retintKernel,
  .ins (.movlMR (atRsp (eflags - 48)) .rax),
  .ins (.shrlIR 9 .rax),
  xenGetVcpuInfo .rsi,
  .ins (.andbMR (.base evtchnUpcallMask .rsi) .rax),
  .ins (.andbIR 1 .rax),
  .ins (.jnz .restoreAllEnableEvents)] ++ restoreAll ++ hypervisorIret true 0

def errorExit : List Line := [
  .label .errorExit,
  .ins (.movMR (atRsp 0) .r15),
  .ins (.movMR (atRsp 8) .r14),
  .ins (.movMR (atRsp 16) .r13),
  .ins (.movMR (atRsp 24) .r12),
  .ins (.movMR (atRsp 32) .rbp),
  .ins (.movMR (atRsp 40) .rbx),
  .ins (.addIR 48 .rsp)] ++ xenBlockEvents .rsi ++ [
  .ins (.jmp .retintKernel)]

def crt1 : List Line :=
  errorEntry ++ errorCallHandler ++ hypervisorCallback ++ hypervisorCallback2 ++ restoreAllEnableEvents ++
    retintKernel ++ errorExit

/-- The instructions of a text. -/
def Line.code : List Line → List (Instr Glob Label)
  | [] => []
  | .label _ :: rest => Line.code rest
  | .ins i :: rest => i :: Line.code rest

/-- The position a label stands at, counting from `n`. -/
def Line.find (l : Label) : Nat → List Line → Option Nat
  | _, [] => none
  | n, .label k :: rest => if k = l then some n else Line.find l n rest
  | n, .ins _ :: rest => Line.find l (n + 1) rest

def prog : Program Glob Label := ⟨Line.code crt1, fun l => Line.find l 0 crt1⟩

/-- The positions the proofs name. -/
abbrev callPos : Nat := 34
abbrev iretPos : Bool → Nat
  | false => 57
  | true => 93
abbrev hypercallPos : Bool → Nat
  | false => 60
  | true => 96

example : prog.code.length = 107 := by decide
example : prog.pos .hypervisorCallback = some 23 ∧ prog.pos .eleven = some 31 ∧ prog.pos .fourteen = some 61 := by
  decide

end Synthol.Crt
