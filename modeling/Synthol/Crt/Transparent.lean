import Synthol.Crt.Nesting

/-!
# The callback path is transparent

`callback_transparent`: in every run, whatever the handler, the guest and the hypervisor do, a call of
`do_hypervisor_callback` is given the frame of the context that its activation interrupted, and that context is what
the activation returns to.
-/

namespace Synthol.Crt

open X86

variable {L : Layout} {H : Handler L} {X : Xen}

/-- There is a frame of the activation at `p`: the interrupted registers, and above the slot of the error code the
words that `iretq` takes. -/
structure Activation.FrameAt (a : Activation) (m : Mem) (p : Word) : Prop where
  regs : m.words p 15 = frameOrder.map a.cpu.gpr
  words : m.words (p + 128) 5 = [a.cpu.rip, a.cs, a.rflags, a.cpu.gpr .rsp, a.ss]

theorem words_of_slots {a : Activation} {m : Mem} (ts : List Sym) (o : Word)
    (h : ∀ v ∈ slotsFrom o (ts.map (Val.sym · 0)), v.2.Holds L.E.text (a.val L) (m.read64 ((a.val L).base + v.1))) :
    m.words ((a.val L).base + o) ts.length = ts.map (a.val L).sym := by
  induction ts generalizing o with
  | nil => rfl
  | cons t ts ih =>
    simp only [List.map_cons, slotsFrom, List.forall_mem_cons] at h
    obtain ⟨ht, hts⟩ := h
    rw [List.length_cons, Mem.words, BitVec.add_assoc, ih (o + 8) hts, List.map_cons, ht.exact]

/-- Where the handler is called, `rdi` is at the frame, and the frame is complete. -/
theorem row_call : ∃ r, path.row callPos = some r ∧ r.reg .rdi = .base 0 ∧ ∀ v ∈ frameSlots, v ∈ r.slots := by
  have h : (path.row callPos).any (fun r => r.reg .rdi = .base 0 ∧ ∀ v ∈ frameSlots, v ∈ r.slots) = true := by
    decide +kernel
  obtain ⟨r, hr, h⟩ := (Option.any_eq_true _ _).mp h
  exact ⟨r, hr, (of_decide_eq_true h).1, (of_decide_eq_true h).2⟩

theorem Inv.frameAt {s : State} {a : Activation} {as : List Activation} {i : Nat} (h : Inv L ⟨s, .crt, a :: as⟩)
    (hf : Fetch L.E s.cpu i (.call .doHypervisorCallback)) : a.FrameAt s.mem (s.cpu.gpr .rdi) := by
  obtain ⟨j, r, hat⟩ := h.own
  obtain rfl := hat.pos_eq hf
  obtain rfl := code_call hf.2
  obtain ⟨r', hr', hrdi, hsl⟩ := row_call
  obtain rfl : r' = r := Option.some.inj (hr'.symm.trans hat.row)
  have hp : s.cpu.gpr .rdi = (a.val L).base + 0 := by
    have hv := hat.meets.reg .rdi
    rw [hrdi] at hv
    exact hv
  rw [hp]
  have hall := fun v hv => hat.meets.slots v (hsl v hv)
  constructor
  · exact words_of_slots (frameOrder.map .gpr) 0 fun v hv => hall v (List.mem_append_left _ hv)
  · rw [BitVec.add_assoc]
    exact words_of_slots [.rip, .cs, .rflags, .gpr .rsp, .ss] 128 fun v hv => hall v (List.mem_append_right _ hv)

/-- Only leaving pops an activation, and it resumes what was interrupted. -/
theorem Inv.resumed {κ κ' : Config} {a : Activation} (h : Inv L κ) (hs : Step L H X κ κ')
    (ha : κ.acts = a :: κ'.acts) : a.Resumed L κ'.s ∧ κ'.mode = a.mode := by
  cases hs with
  | iret hf =>
    obtain ⟨rfl, -⟩ := List.cons.inj ha
    exact ⟨h.iret hf, rfl⟩
  | hypercall st hf =>
    obtain ⟨rfl, -⟩ := List.cons.inj ha
    exact ⟨h.hypercall hf st, rfl⟩
  | _ =>
    have hlen := congrArg List.length ha
    simp only [List.length_cons] at hlen
    omega

/-- **Transparency**: at every call of `do_hypervisor_callback`, `rdi` points to the frame of what was interrupted,
and when an activation leaves, what it interrupted goes on as it was. -/
theorem callback_transparent {κ₀ κ : Config} (h₀ : κ₀.Start L) (hr : Run L H X κ₀ κ) :
    (∀ i, κ.mode = .crt → Fetch L.E κ.s.cpu i (.call .doHypervisorCallback) →
      ∃ a as, κ.acts = a :: as ∧ a.FrameAt κ.s.mem (κ.s.cpu.gpr .rdi)) ∧
    ∀ κ' a, Step L H X κ κ' → κ.acts = a :: κ'.acts → a.Resumed L κ'.s ∧ κ'.mode = a.mode := by
  have h := Run.inv hr h₀.inv
  refine ⟨?_, fun κ' a hs ha => h.resumed hs ha⟩
  intro i hm hf
  obtain ⟨s, md, as⟩ := κ
  obtain rfl : md = .crt := hm
  cases as with
  | nil => exact h.own.elim
  | cons a as => exact ⟨a, as, rfl, h.frameAt hf⟩

/-- In the run of `Flat`: the call, and the return to the guest. -/
theorem callback_transparent_flat : Flat.act.FrameAt Flat.atCall.mem (Flat.atCall.cpu.gpr .rdi) ∧
    Flat.act.Resumed Flat.layout Flat.atLeave.iret := by
  have hX : (Xen.unmasked Flat.layout).upcall Flat.act.rflags Flat.act.mem Flat.arrived := by
    unfold Xen.unmasked
    decide
  constructor
  · obtain ⟨a, as, ha, hframe⟩ :=
      (callback_transparent (H := Flat.handler) Flat.start (Flat.run_call hX)).1 callPos rfl Flat.atCall_fetch
    obtain ⟨rfl, -⟩ := List.cons.inj ha
    exact hframe
  · exact ((callback_transparent Flat.start (Flat.run_leave hX)).2 _ Flat.act (.iret Flat.atLeave_fetch) rfl).1

end Synthol.Crt
