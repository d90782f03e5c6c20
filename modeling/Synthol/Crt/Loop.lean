import Synthol.Crt.Events

/-!
# The callback loop with the handler of setup.c

`do_hypervisor_callback` of `src/src/setup.c` returns its argument and does nothing else. So `evtchn_upcall_pending`,
which is set when the path is entered, stays set, every look at it finds it set, and the path goes round through label
`14` for good: it never leaves (`Loop.stays`) and it makes any number of passes (`Loop.passes`).
-/

namespace Synthol.Crt

open X86 Interrupt

variable {L : Layout}

/-! ## Passes -/

/-- No event arrives. -/
def Xen.silent (L : Layout) : Xen where
  quiet m m' := m' L.maskAddr = m L.maskAddr ∧ m' L.pendingAddr = m L.pendingAddr
  upcall _ _ _ := False

/-- A step of the path with the handler of setup.c, when no event arrives. -/
abbrev SilentStep (L : Layout) : Config → Config → Prop := Step L (.ofC L doHypervisorCallback) (.silent L)

/-- Control is at label `14`. -/
def Config.AtFourteen (L : Layout) (κ : Config) : Prop := κ.mode = .crt ∧ κ.s.cpu.rip = L.E.label .fourteen

/-- A step that takes control from label `14`: the instruction there is executed. -/
def Through (L : Layout) (κ κ' : Config) : Prop := κ.AtFourteen L ∧ ¬κ'.AtFourteen L

/-- The activation on top goes from the first state to the second, `n` times through label `14`. While control stays
there, as it does when the hypervisor takes a step, nothing is counted. -/
inductive Passes (L : Layout) : Config → Nat → Config → Prop
  | refl (κ) : Passes L κ 0 κ
  | step {κ κ' κ'' n} : Passes L κ n κ' → SilentStep L κ' κ'' → κ''.acts = κ'.acts → ¬Through L κ' κ'' →
    Passes L κ n κ''
  | pass {κ κ' κ'' n} : Passes L κ n κ' → SilentStep L κ' κ'' → κ''.acts = κ'.acts → Through L κ' κ'' →
    Passes L κ (n + 1) κ''

/-- Only finitely many passes take place before the activation leaves. -/
def Ends (L : Layout) (κ₀ : Config) : Prop := ∃ N, ∀ n κ, Passes L κ₀ n κ → n ≤ N

/-- The path has been entered, in a run of the system, for an event that is pending; the saved rflags have IF set. -/
structure Entry (L : Layout) (κ : Config) : Prop where
  run : ∃ κ₁, κ₁.Start L ∧ Run L (.ofC L doHypervisorCallback) (.delivering L) κ₁ κ
  mode : κ.mode = .crt
  rip : κ.s.cpu.rip = L.E.label .hypervisorCallback
  enabled : ∀ a ∈ κ.acts.head?, a.enabled = true
  pending : κ.s.mem L.pendingAddr ≠ 0

/-! ## The loop -/

/-- The activation is in the loop. -/
structure Loop (L : Layout) (a : Activation) (as : List Activation) (κ : Config) : Prop where
  inv : Inv L κ
  refines : ∃ bs, Refines L κ bs ∧ (flags L κ.s.mem bs).Sound
  acts : κ.acts = a :: as
  enabled : a.enabled = true
  pending : κ.s.mem L.pendingAddr ≠ 0

theorem ofC_leavesMask (f : BitVec 32 → BitVec 32) : (Handler.ofC L f).LeavesMask := by
  rintro e s s' (⟨-, -, hm⟩ | ⟨-, -, -, -, hm⟩)
  · exact hm _ L.mask_stack
  · rw [hm]

theorem Step.mono {H : Handler L} {X Y : Xen} {κ κ' : Config} (hs : Step L H X κ κ')
    (hq : ∀ m m', X.quiet m m' → Y.quiet m m') (hu : ∀ f m m', X.upcall f m m' → Y.upcall f m m') :
    Step L H Y κ κ' := by
  cases hs with
  | guest hn => exact .guest hn
  | instr st hf hne hcall hjmp => exact .instr st hf hne hcall hjmp
  | call st hf => exact .call st hf
  | handler hst => exact .handler hst
  | ret hst => exact .ret hst
  | quiet hx hk => exact .quiet (hq _ _ hx) hk
  | enter a hp hx hk he => exact .enter a hp (hu _ _ _ hx) hk he
  | iret hf => exact .iret hf
  | hypercall st hf => exact .hypercall st hf

theorem SilentStep.delivering {κ κ' : Config} (hs : SilentStep L κ κ') :
    Step L (.ofC L doHypervisorCallback) (.delivering L) κ κ' :=
  Step.mono hs (fun _ _ h => ⟨h.1, .inl h.2⟩) fun _ _ _ h => h.elim

section Loops

variable {a : Activation} {as : List Activation} {κ κ' : Config}

/-- The path is not on its way out: there, nothing would be pending. -/
theorem Loop.not_exiting (h : Loop L a as κ) {i : Nat} {ins : Instr Glob Label} (hm : κ.mode = .crt)
    (hf : Fetch L.E κ.s.cpu i ins) : ¬Exiting i := by
  intro hi
  obtain ⟨bs, hr, hu⟩ := h.refines
  obtain ⟨s, md, as'⟩ := κ
  obtain rfl : md = .crt := hm
  obtain rfl : as' = a :: as := h.acts
  exact h.pending ((hr.flags_at_leave hu hf hi).2 h.enabled)

/-- **It never leaves.** -/
theorem Loop.stays (h : Loop L a as κ) (hs : SilentStep L κ κ') : κ'.acts = κ.acts := by
  cases hs with
  | enter a hp hx => exact hx.elim
  | iret hf => exact absurd (exiting_of_iretq hf.2) (h.not_exiting rfl hf)
  | hypercall st hf => exact absurd (exiting_of_hypercall hf.2) (h.not_exiting rfl hf)
  | _ => rfl

/-- Nothing clears `evtchn_upcall_pending`. -/
theorem Loop.still_pending (h : Loop L a as κ) (hs : SilentStep L κ κ') : κ'.s.mem L.pendingAddr ≠ 0 := by
  have hp := h.pending
  have hacts := h.acts
  have hinv := h.inv
  cases hs with
  | guest => cases hacts
  | instr st hf hne =>
    obtain rfl := hacts
    rw [hinv.exec_pending hf hne st]
    exact hp
  | call st hf =>
    obtain rfl := hacts
    rw [hinv.exec_pending hf (by simp) st]
    exact hp
  | handler hst =>
    obtain ⟨-, -, hm⟩ := hst
    exact fun h0 => hp ((hm L.pendingAddr L.pending_stack).symm.trans h0)
  | ret hst =>
    obtain ⟨-, -, -, -, hm⟩ := hst
    rw [hm]
    exact hp
  | quiet hx _ => exact fun h0 => hp (hx.2.symm.trans h0)
  | enter a hp hx => exact hx.elim
  | iret hf => exact absurd (exiting_of_iretq hf.2) (h.not_exiting rfl hf)
  | hypercall st hf => exact absurd (exiting_of_hypercall hf.2) (h.not_exiting rfl hf)

/-- **One step** stays in the loop. -/
theorem Loop.step (h : Loop L a as κ) (hs : SilentStep L κ κ') : Loop L a as κ' := by
  obtain ⟨bs, hr, hu⟩ := h.refines
  obtain ⟨bs', habs, hr'⟩ := hs.delivering.refines (ofC_leavesMask _) h.inv hr hu
  have hrun : Upcall.Run _ _ := habs.to_reflTransGen
  exact ⟨Step.inv hs h.inv, ⟨bs', hr', hrun.sound hu⟩, (h.stays hs).trans h.acts, h.enabled, h.still_pending hs⟩

theorem Entry.loop (h : Entry L κ) : ∃ a as, Loop L a as κ := by
  obtain ⟨κ₁, hstart, hrun⟩ := h.run
  have hinv := Run.inv hrun hstart.inv
  obtain ⟨bs, hr⟩ := hstart.refines (ofC_leavesMask _) hrun
  obtain ⟨s, md, as⟩ := κ
  obtain rfl : md = .crt := h.mode
  cases as with
  | nil => exact hinv.own.elim
  | cons a as => exact ⟨a, as, hinv, ⟨bs, hr⟩, rfl, h.enabled a rfl, h.pending⟩

/-! ## Going round -/

/-- The number of steps to label `14`, at most. -/
def ahead (i : Nat) : Nat :=
  if i ≤ 22 then 51 - i
  else if i ≤ 29 then 81 - i
  else if i ≤ 34 then 58 - i
  else if i ≤ 36 then 57 - i
  else if i ≤ 40 then 41 - i
  else if i ≤ 61 then 0
  else if i ≤ 70 then 99 - i
  else if i ≤ 76 then 81 - i
  else 117 - i

theorem ahead_lt {i j : Nat} (hlt : i < 107) (hi : ¬Exiting i) (h61 : i ≠ 61) (hx : Exit.goto j ∈ path.succs i)
    (hj : ¬Exiting j) : ahead j < ahead i := by
  have hall : ∀ i < 107, ¬Exiting i → i ≠ 61 → ∀ x ∈ path.succs i,
      x.within (fun j => decide (¬Exiting j → ahead j < ahead i)) = true := by decide +kernel
  exact of_decide_eq_true (hall i hlt hi h61 _ hx) hj

/-- The configuration is at most `n` steps before label `14`. -/
def Ahead (L : Layout) (κ : Config) (n : Nat) : Prop :=
  match κ.mode with
  | .guest => False
  | .crt => ∃ i, i < 107 ∧ κ.s.cpu.rip = L.E.text i ∧ ahead i = n
  | .handler _ => n = 23

theorem Loop.ahead (h : Loop L a as κ) : ∃ n, Ahead L κ n := by
  have hown := h.inv.own
  rw [h.acts] at hown
  unfold Ahead
  cases hm : κ.mode with
  | guest =>
    rw [hm] at hown
    cases hown
  | crt =>
    rw [hm] at hown
    obtain ⟨i, r, hat⟩ := hown
    obtain ⟨ins, hi⟩ := hat.fetch
    exact ⟨_, i, (List.getElem?_eq_some_iff.mp hi).1, hat.rip, rfl⟩
  | handler e => exact ⟨23, rfl⟩

/-- The handler can return there and then. -/
theorem ofC_ret (f : BitVec 32 → BitVec 32) (e s : State) : ∃ s', (Handler.ofC L f).ret e s s' := by
  let c := (e.cpu.set .rsp (e.cpu.gpr .rsp + 8)).set .rax ((f ((e.cpu.gpr .rdi).setWidth 32)).setWidth 64)
  have hother : ∀ r, r ≠ .rax → c.gpr r = (e.cpu.set .rsp (e.cpu.gpr .rsp + 8)).gpr r := fun r hr =>
    Cpu.set_other _ _ _ hr
  refine ⟨⟨c.goto (e.mem.read64 (e.cpu.gpr .rsp)), s.mem⟩, fun r hr => ?_, ?_, rfl, ?_, rfl⟩
  · exact (hother r (by rintro rfl; cases hr)).trans (Cpu.set_other _ _ _ (by rintro rfl; cases hr))
  · exact (hother .rsp (by decide)).trans (Cpu.set_self _ _ _)
  · show (c.gpr .rax).setWidth 32 = _
    rw [Cpu.set_self]
    simp

/-- A step towards label `14`. -/
theorem Loop.advance (h : Loop L a as κ) {n : Nat} (hn : Ahead L κ n) (h14 : ¬κ.AtFourteen L) :
    ∃ κ' m, SilentStep L κ κ' ∧ Ahead L κ' m ∧ m < n := by
  obtain ⟨s, md, as'⟩ := κ
  obtain rfl : as' = a :: as := h.acts
  cases md with
  | guest => exact hn.elim
  | handler e =>
    obtain rfl : n = 23 := hn
    obtain ⟨s', hret⟩ := ofC_ret (L := L) doHypervisorCallback e s
    exact ⟨_, 22, .ret hret, ⟨35, by omega, h.inv.ret_rip hret, rfl⟩, by omega⟩
  | crt =>
    obtain ⟨i, hlt, hrip, rfl⟩ := hn
    have hf : Fetch L.E s.cpu i prog.code[i] := ⟨hrip, List.getElem?_eq_getElem hlt⟩
    have hout := h.not_exiting rfl hf
    generalize prog.code[i] = ins at hf
    have hne : ins ≠ .iretq := by
      rintro rfl
      exact hout (exiting_of_iretq hf.2)
    have hjmp : ins ≠ .jmp .hypercallIret := by
      rintro rfl
      exact hout (exiting_of_hypercall hf.2)
    by_cases hcall : ins = .call .doHypervisorCallback
    · subst hcall
      obtain rfl := code_call hf.2
      exact ⟨_, 23, .call 0 hf, rfl, by decide⟩
    · have hs : SilentStep L ⟨s, .crt, a :: as⟩ ⟨execAt L i 0 s ins, .crt, a :: as⟩ := .instr 0 hf hne hcall hjmp
      obtain ⟨-, -, x, hx, hxe, hreach⟩ := h.inv.exec hf hne 0
      rw [elsewhere_none hcall hjmp] at hxe
      cases x with
      | out l => cases hxe
      | goto j =>
        obtain ⟨r, hat⟩ := hreach
        obtain ⟨ins', hj⟩ := hat.fetch
        have hjout := (h.step hs).not_exiting rfl ⟨hat.rip, hj⟩
        have h61 : i ≠ 61 := by
          rintro rfl
          exact h14 ⟨rfl, hrip.trans (L.E.label_pos .fourteen 61 (by decide)).symm⟩
        exact ⟨_, _, hs, ⟨j, (List.getElem?_eq_some_iff.mp hj).1, hat.rip, rfl⟩, ahead_lt hlt hout h61 hx hjout⟩

/-- Label `14` is reached. -/
theorem Loop.reach {κ₀ : Config} {k : Nat} (hp : Passes L κ₀ k κ) (h : Loop L a as κ) :
    ∃ κ', Passes L κ₀ k κ' ∧ Loop L a as κ' ∧ κ'.AtFourteen L := by
  obtain ⟨n, hn⟩ := h.ahead
  induction n using Nat.strong_induction_on generalizing κ with
  | _ n ih =>
    by_cases h14 : κ.AtFourteen L
    · exact ⟨κ, hp, h, h14⟩
    · obtain ⟨κ', m, hs, hm, hlt⟩ := h.advance hn h14
      exact ih m hlt (.step hp hs (h.stays hs) fun hthrough => h14 hthrough.1) (h.step hs) hm

/-- Label `14` is passed. -/
theorem Loop.pass {κ₀ : Config} {k : Nat} (hp : Passes L κ₀ k κ) (h : Loop L a as κ) (h14 : κ.AtFourteen L) :
    ∃ κ', Passes L κ₀ (k + 1) κ' ∧ Loop L a as κ' := by
  obtain ⟨s, md, as'⟩ := κ
  obtain ⟨rfl, hrip⟩ := h14
  have hf : Fetch L.E s.cpu 61 (.movbIM 1 (.base evtchnUpcallMask .rsi)) :=
    ⟨hrip.trans (L.E.label_pos .fourteen 61 (by decide)), rfl⟩
  have hs : SilentStep L ⟨s, .crt, as'⟩ ⟨execAt L 61 0 s (.movbIM 1 (.base evtchnUpcallMask .rsi)), .crt, as'⟩ :=
    .instr 0 hf (by simp) (by simp) (by simp)
  have hon : ¬Config.AtFourteen L ⟨execAt L 61 0 s (.movbIM 1 (.base evtchnUpcallMask .rsi)), .crt, as'⟩ := by
    rintro ⟨-, hstay⟩
    have htext : L.E.text 62 = L.E.text 61 := hstay.trans (L.E.label_pos .fourteen 61 (by decide))
    exact absurd (L.E.text_inj 62 61 (by decide) (by decide) htext) (by decide)
  exact ⟨_, .pass hp hs rfl ⟨⟨rfl, hrip⟩, hon⟩, h.step hs⟩

/-- **Any number of passes.** -/
theorem Loop.passes (h : Loop L a as κ) : ∀ N, ∃ κ', Passes L κ N κ' ∧ Loop L a as κ'
  | 0 => ⟨κ, .refl κ, h⟩
  | N + 1 => by
    obtain ⟨κ₁, hp₁, h₁⟩ := h.passes N
    obtain ⟨κ₂, hp₂, h₂, h14⟩ := h₁.reach hp₁
    exact h₂.pass hp₂ h14

theorem Loop.not_ends (h : Loop L a as κ) : ¬Ends L κ := by
  rintro ⟨N, hN⟩
  obtain ⟨κ', hp, -⟩ := h.passes (N + 1)
  have := hN _ _ hp
  omega

theorem Passes.loop {n : Nat} (hp : Passes L κ n κ') (h : Loop L a as κ) : Loop L a as κ' := by
  induction hp with
  | refl => exact h
  | step _ hs _ _ ih => exact ih.step hs
  | pass _ hs _ _ ih => exact ih.step hs

end Loops

/-- **The loop does not end**: with the handler of setup.c, and no event after the entry, there is no bound on the
passes, and no step of the activation leaves. -/
theorem callback_loops {κ₀ : Config} (h : Entry L κ₀) :
    ¬Ends L κ₀ ∧ ∀ n κ κ', Passes L κ₀ n κ → SilentStep L κ κ' → κ'.acts = κ₀.acts := by
  obtain ⟨a, as, hl⟩ := h.loop
  refine ⟨hl.not_ends, fun n κ κ' hp hs => ?_⟩
  have hκ := hp.loop hl
  rw [hκ.stays hs, hκ.acts, hl.acts]

theorem Flat.entered : Entry Flat.layout ⟨Flat.entry, .crt, [Flat.act]⟩ where
  run := by
    refine ⟨_, Flat.start, Flat.run_entry ?_⟩
    unfold Xen.delivering
    decide
  mode := rfl
  rip := by decide
  enabled := by
    rintro a ⟨⟩
    decide
  pending := by decide

theorem callback_loops_flat : ¬Ends Flat.layout ⟨Flat.entry, .crt, [Flat.act]⟩ := (callback_loops Flat.entered).1

/-- The loop does not always end. -/
theorem not_always_ends : ¬∀ (L : Layout) (κ : Config), Entry L κ → Ends L κ := by
  intro h
  obtain ⟨a, as, hl⟩ := Flat.entered.loop
  exact hl.not_ends (h _ _ Flat.entered)

end Synthol.Crt
