import Synthol.Crt.Code
import Synthol.X86.Annotated

/-!
# The frame of an activation

Assertions at the labels of the callback path, in terms of the interrupted register state (`Sym`) and the base of the
frame the path builds: fifteen registers in the order of `frameOrder`, the slot of the error code, and the five words
that `iretq` takes. `path_check` runs the checker: every instruction of the path keeps the assertions.
-/

namespace Synthol.Crt

open X86

/-- What an activation's frame is stated in: the interrupted registers, and the address of the shared-info page. -/
inductive Sym
  | gpr (r : Reg)
  | rip | cs | rflags | ss
  | sharedInfo
  deriving DecidableEq

/-- The registers in a frame, from its base up. -/
def frameOrder : List Reg := [.r15, .r14, .r13, .r12, .rbp, .rbx, .r11, .r10, .r9, .r8, .rax, .rcx, .rdx, .rsi, .rdi]

/-- Words at consecutive offsets. -/
def slotsFrom (o : Word) : List (Val Sym) → List (Word × Val Sym)
  | [] => []
  | v :: vs => (o, v) :: slotsFrom (o + 8) vs

/-- The words `iretq` takes; cs and ss up to the bits of `k`, rflags up to those of `n`. -/
def iretSlots (k n : Word) : List (Word × Val Sym) :=
  slotsFrom 128 [.sym .rip 0, .sym .cs k, .sym .rflags n, .sym (.gpr .rsp) 0, .sym .ss k]

def regSlots (order : List Reg) (o : Word) : List (Word × Val Sym) := slotsFrom o (order.map fun r => .sym (.gpr r) 0)

/-- The whole frame. -/
def frameSlots : List (Word × Val Sym) := regSlots frameOrder 0 ++ iretSlots 0 0

/-- The frame above the callee-saved registers. -/
def upperSlots : List (Word × Val Sym) := regSlots (frameOrder.drop 6) 48 ++ iretSlots 0 0

/-- The registers of `live` hold their interrupted values, `rsp` is at `o`. -/
def holding (live : Reg → Bool) (o : Word) : Reg → Val Sym := fun r =>
  if r = .rsp then .base o else if live r then .sym (.gpr r) 0 else .any

/-- All registers hold their interrupted values. -/
def allLive : Reg → Bool := fun _ => true

def withReg (f : Reg → Val Sym) (r : Reg) (v : Val Sym) : Reg → Val Sym := Function.update f r v

/-- As Xen enters: rcx and r11 are on the stack. -/
def entered : SState Sym where
  reg := holding (fun r => r ≠ .rcx ∧ r ≠ .r11) 112
  slots := (112, .sym (.gpr .rcx) 0) :: (120, .sym (.gpr .r11) 0) :: iretSlots 0 0
  zf := none

/-- At `11`: `rdi` and `rsp` are at the frame, ZF is clear. -/
def atEleven : SState Sym where
  reg := withReg (holding Reg.calleeSaved 0) .rdi (.base 0)
  slots := frameSlots
  zf := some false

/-- On entry of `do_hypervisor_callback`. -/
def calling : SState Sym where
  reg := withReg (holding Reg.calleeSaved (-16)) .rdi (.base 0)
  slots := (-16, .text 35) :: (-8, .base 0) :: frameSlots
  zf := none

/-- The callee-saved registers are popped. -/
def popped : SState Sym where
  reg := holding Reg.calleeSaved 48
  slots := upperSlots
  zf := none

/-- Everything but the words for `iretq` is popped. -/
def leaving (k n : Word) (o : Word) : SState Sym where
  reg := holding allLive o
  slots := iretSlots k n
  zf := none

def annot : Nat → Option (SState Sym)
  | 0 => some
    { reg := withReg (holding allLive 112) .rax (.text 30)
      slots := (112, .sym (.gpr .rax) 0) :: iretSlots 0 0
      zf := none }
  | 23 => some entered
  | 30 => some { atEleven with reg := withReg atEleven.reg .rsp (.base (-8)) }
  | 31 => some atEleven
  | 35 => some { reg := holding Reg.calleeSaved (-8), slots := (-8, .base 0) :: frameSlots, zf := none }
  | 37 => some popped
  | 57 | 93 => some (leaving 3 0 128)
  | 58 | 94 => some (leaving 0 0 128)
  | 61 => some { popped with reg := withReg popped.reg .rsi (.sym .sharedInfo 0) }
  | 71 => some popped
  | 97 => some { reg := holding Reg.calleeSaved 0, slots := frameSlots, zf := none }
  | _ => none

/-- The path with its assertions. The only byte stored outside the frame is `evtchn_upcall_mask`. -/
def path : Annotated Glob Label Sym where
  prog := prog
  scope :=
    { below := 16
      above := 168
      content := fun
        | .hypervisorSharedInfo => .sym .sharedInfo 0
        | _ => .any
      free := [(.sharedInfo, evtchnUpcallMask)] }
  annot := annot
  out := fun
    | .doHypervisorCallback => some calling
    | .hypercallIret => some (leaving 0 (nmiMask.setWidth 64) 120)
    | _ => none

theorem path_check : path.check = true := by decide +kernel

end Synthol.Crt
