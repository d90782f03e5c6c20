import Synthol.Crt.Phases

/-!
# No event is lost

Under a hypervisor that raises an upcall for an event as soon as the mask is clear (`Xen.delivering`), and a handler
that leaves the mask alone, the system refines the abstract upcalls of `Interrupt.Upcall`: the flags are the abstract
flags, and each activation is in the abstract activation's phase (`Matches`). Each step is at most one abstract step
(`Step.refines`), so each run is an abstract run (`Run.refines`), and what is known of those carries over
(`no_event_lost`).
-/

namespace Synthol.Crt

open X86 Interrupt

variable {L : Layout} {H : Handler L}

/-! ## The hypervisor and the handler -/

/-- An event sets `evtchn_upcall_pending`. If the mask is clear, the upcall is raised there and then, as it may be for
an event that is pending; it saves rflags with IF set. With the mask set, only `evtchn_upcall_pending` is set, and an
entry for another reason saves IF clear. -/
def Xen.delivering (L : Layout) : Xen where
  quiet m m' := m' L.maskAddr = m L.maskAddr ∧
    (m' L.pendingAddr = m L.pendingAddr ∨ m L.maskAddr ≠ 0 ∧ m' L.pendingAddr ≠ 0)
  upcall f m m' := m' L.maskAddr = m L.maskAddr ∧
    (m L.maskAddr = 0 ∧ m' L.pendingAddr ≠ 0 ∧ f.getLsbD 9 = true ∨ m L.maskAddr ≠ 0 ∧ f.getLsbD 9 = false)

def Handler.LeavesMask (H : Handler L) : Prop :=
  ∀ e s s', H.step e s s' ∨ H.ret e s s' → s'.mem L.maskAddr = s.mem L.maskAddr

/-! ## Refinement -/

/-- What is executed is in the phase. -/
def Doing (L : Layout) (md : Mode) (c : Cpu) (a : Activation) (ph : Phase) : Prop :=
  match md with
  | .guest => False
  | .crt => ∃ i, c.rip = L.E.text i ∧ InPhase a c i ph
  | .handler _ => ph = .serving

/-- Activation by activation, what is executed is in the abstract phase. -/
def Matches (L : Layout) : Mode → Cpu → List Activation → List Interrupt.Activation → Prop
  | _, _, [], bs => bs = []
  | md, c, a :: as, bs => ∃ ph bs', bs = ⟨a.enabled, ph⟩ :: bs' ∧ Doing L md c a ph ∧ Matches L a.mode a.cpu as bs'

structure Refines (L : Layout) (κ : Config) (bs : List Interrupt.Activation) : Prop where
  matched : Matches L κ.mode κ.s.cpu κ.acts bs
  mask : κ.acts ≠ [] → κ.s.mem L.maskAddr = 0 ∨ κ.s.mem L.maskAddr = 1

theorem Matches.congr {md : Mode} {c c' : Cpu} {as : List Activation} {bs : List Interrupt.Activation}
    (h : Matches L md c as bs) (hg : c'.gpr = c.gpr) (hr : c'.rip = c.rip) (hz : c'.zf = c.zf) :
    Matches L md c' as bs := by
  cases as with
  | nil => exact h
  | cons a as =>
    obtain ⟨ph, bs', rfl, hd, hrest⟩ := h
    refine ⟨ph, bs', rfl, ?_, hrest⟩
    cases md with
    | crt =>
      obtain ⟨i, hrip, hph⟩ := hd
      exact ⟨i, hr.trans hrip, hph.congr hg hz⟩
    | _ => exact hd

/-- At most one abstract step, to a state that is refined. -/
def Follows (L : Layout) (κ κ' : Config) (bs : List Interrupt.Activation) : Prop :=
  ∃ bs', Relation.ReflGen Upcall.Step (flags L κ.s.mem bs) (flags L κ'.s.mem bs') ∧ Refines L κ' bs'

section Steps

variable {s : State} {a : Activation} {as : List Activation} {bs : List Interrupt.Activation} {i : Nat}
  {ins : Instr Glob Label}

/-- Where the path is, and its phase. -/
theorem Refines.phase (h : Refines L ⟨s, .crt, a :: as⟩ bs) (hf : Fetch L.E s.cpu i ins) :
    ∃ ph bs', bs = ⟨a.enabled, ph⟩ :: bs' ∧ InPhase a s.cpu i ph ∧ Matches L a.mode a.cpu as bs' := by
  obtain ⟨ph, bs', hbs, ⟨j, hrip, hph⟩, hrest⟩ := h.matched
  have hlt := (List.getElem?_eq_some_iff.mp hf.2).1
  obtain rfl := L.E.text_inj i j hlt hph.lt (hf.1.symm.trans hrip)
  exact ⟨ph, bs', hbs, hph, hrest⟩

theorem serving_at_call {c : Cpu} {ph : Phase} (h : InPhase a c callPos ph) : ph = .serving := by
  cases ph with
  | serving => rfl
  | tested b => exact absurd h.1 (by decide)
  | _ => simp only [InPhase, callPos] at h; omega

/-- While the handler may be called, the mask is set. -/
theorem Refines.masked {bs' : List Interrupt.Activation} {md : Mode} (h : Refines L ⟨s, md, a :: as⟩ bs)
    (hu : (flags L s.mem (⟨a.enabled, .serving⟩ :: bs')).Sound) : s.mem L.maskAddr = 1 := by
  have hset : (s.mem L.maskAddr != 0) = true := Upcall.Sound.serving hu
  rcases h.mask (by simp) with hk | hk
  · rw [show s.mem L.maskAddr = 0 from hk] at hset
    cases hset
  · exact hk

theorem Refines.instr (h : Refines L ⟨s, .crt, a :: as⟩ bs) (hi : Inv L ⟨s, .crt, a :: as⟩)
    (hu : (flags L s.mem bs).Sound) (hf : Fetch L.E s.cpu i ins) (hne : ins ≠ .iretq) (hel : elsewhere ins = none)
    (st : Word) : Follows L ⟨s, .crt, a :: as⟩ ⟨execAt L i st s ins, .crt, a :: as⟩ bs := by
  obtain ⟨ph, bs', rfl, hph, hrest⟩ := h.phase hf
  have hmask : ph = .serving → s.mem L.maskAddr = 1 := by
    rintro rfl
    exact h.masked hu
  obtain ⟨ph', j, hrip, hph', hstep⟩ := hi.moves hf hne hel hph hmask st
  refine ⟨⟨a.enabled, ph'⟩ :: bs', hstep bs', ⟨ph', bs', rfl, ⟨j, hrip, hph'⟩, hrest⟩, fun _ => ?_⟩
  exact hi.exec_maskByte hf hne st (h.mask (by simp))

theorem Refines.call (h : Refines L ⟨s, .crt, a :: as⟩ bs) (hi : Inv L ⟨s, .crt, a :: as⟩)
    (hf : Fetch L.E s.cpu i (.call .doHypervisorCallback)) (st : Word) :
    Follows L ⟨s, .crt, a :: as⟩ ⟨execAt L i st s (.call .doHypervisorCallback),
      .handler (execAt L i st s (.call .doHypervisorCallback)), a :: as⟩ bs := by
  obtain ⟨ph, bs', rfl, hph, hrest⟩ := h.phase hf
  obtain rfl := code_call hf.2
  obtain rfl := serving_at_call hph
  have hfl := hi.exec_flags hf (by simp) st (by decide) (⟨a.enabled, .serving⟩ :: bs')
  refine ⟨_, by rw [hfl], ⟨.serving, bs', rfl, rfl, hrest⟩, fun _ => ?_⟩
  exact hi.exec_maskByte hf (by simp) st (h.mask (by simp))

/-- The handler does what it likes, but for the mask. -/
theorem Refines.handle {e : State} {m' : Mem} {md : Mode} {c' : Cpu} (h : Refines L ⟨s, .handler e, a :: as⟩ bs)
    (hk : m' L.maskAddr = s.mem L.maskAddr) (hd : Doing L md c' a .serving) :
    Follows L ⟨s, .handler e, a :: as⟩ ⟨⟨c', m'⟩, md, a :: as⟩ bs := by
  obtain ⟨ph, bs', rfl, hph, hrest⟩ := h.matched
  obtain rfl : ph = .serving := hph
  refine ⟨⟨a.enabled, .serving⟩ :: bs', .single ?_, ⟨.serving, bs', rfl, hd, hrest⟩, fun _ => ?_⟩
  · simp only [flags, hk]
    exact .handle
  · simp only [hk]
    exact h.mask (by simp)

/-- The handler returns to the instruction after the call. -/
theorem Inv.ret_rip {e s' : State} (h : Inv L ⟨s, .handler e, a :: as⟩) (hr : H.ret e s s') :
    s'.cpu.rip = L.E.text 35 := by
  obtain ⟨⟨r, he⟩, -, -⟩ := h.own
  obtain rfl : calling = r := Option.some.inj he.out
  have hsp : calling.sp = some (-16) := by decide
  have hsl := he.meets.slots (-16, .text 35) (by decide)
  rw [H.ret_rip e s s' hr, he.meets.rsp hsp]
  exact hsl

theorem Refines.leave {s' : State} (h : Refines L ⟨s, .crt, a :: as⟩ bs) (hf : Fetch L.E s.cpu i ins)
    (hi : Exiting i) (hr : a.Resumed L s') (hm : s'.mem = s.mem) :
    Follows L ⟨s, .crt, a :: as⟩ ⟨s', a.mode, as⟩ bs := by
  obtain ⟨ph, bs', rfl, hph, hrest⟩ := h.phase hf
  refine ⟨bs', .single ?_, hrest.congr hr.gpr hr.rip hr.zf, fun _ => ?_⟩
  · rw [hm]
    exact .leave (hph.exiting hi)
  · rw [hm]
    exact h.mask (by simp)

theorem Refines.quiet {c : Cpu} {m m' : Mem} {md : Mode} (h : Refines L ⟨⟨c, m⟩, md, as⟩ bs)
    (hx : (Xen.delivering L).quiet m m') : Follows L ⟨⟨c, m⟩, md, as⟩ ⟨⟨c, m'⟩, md, as⟩ bs := by
  obtain ⟨hk, hp⟩ := hx
  refine ⟨bs, ?_, h.matched, fun ha => ?_⟩
  · rcases hp with hp | ⟨hset, hp⟩
    · rw [flags_congr bs hk hp]
    · simp only [flags, hk, bne_iff_ne.mpr hset, bne_iff_ne.mpr hp]
      exact .single .arrive
  · simp only [hk]
    exact h.mask ha

/-- The frame is apart from the flags. -/
theorem entry_pending (hp : a.Pushed L) (m : Mem) :
    (m.writeWords a.base a.words).write8 L.maskAddr 1 L.pendingAddr = m L.pendingAddr := by
  have h1 := hp.room
  have h2 := hp.below
  have h3 := hp.inside
  rw [Mem.write8_other, Mem.writeWords_other]
  · show 8 * 7 < _
    omega
  · intro hw
    apply L.pending_stack
    have hw' : (L.pendingAddr - a.base).toNat < 8 * 7 := hw
    show L.lo ≤ L.pendingAddr.toNat ∧ L.pendingAddr.toNat < L.hi
    generalize L.pendingAddr = x at *
    bv_omega
  · exact L.pending_ne_mask

theorem Refines.enter {m' : Mem} {c' : Cpu} (h : Refines L ⟨⟨a.cpu, a.mem⟩, a.mode, as⟩ bs) (hp : a.Pushed L)
    (hx : (Xen.delivering L).upcall a.rflags a.mem m') (he : a.Entered L c') :
    Follows L ⟨⟨a.cpu, a.mem⟩, a.mode, as⟩
      ⟨⟨c', (m'.writeWords a.base a.words).write8 L.maskAddr 1⟩, .crt, a :: as⟩ bs := by
  obtain ⟨hk, hx⟩ := hx
  have hnew : Doing L .crt c' a .serving :=
    ⟨23, he.rip.trans (L.E.label_pos _ _ (by decide)), .inl (by omega), .of_not (by omega)⟩
  refine ⟨⟨a.enabled, .serving⟩ :: bs, .single ?_, ⟨.serving, bs, rfl, hnew, h.matched⟩, fun _ => .inr ?_⟩
  · simp only [flags, entry_pending hp, Mem.write8_self, show ((1 : Byte) != 0) = true from rfl]
    rcases hx with ⟨hclear, hpend, hif⟩ | ⟨hset, hif⟩
    · have hk0 : (a.mem L.maskAddr != 0) = false := by
        rw [hclear]
        rfl
      rw [show a.enabled = true from hif, bne_iff_ne.mpr hpend, hk0]
      exact .deliver
    · rw [show a.enabled = false from hif, bne_iff_ne.mpr hset]
      exact .raise
  · exact Mem.write8_self _ _ _

end Steps

/-- **Each step** is at most one abstract step. -/
theorem Step.refines (hH : H.LeavesMask) {κ κ' : Config} {bs : List Interrupt.Activation}
    (hs : Step L H (.delivering L) κ κ') (hi : Inv L κ) (h : Refines L κ bs) (hu : (flags L κ.s.mem bs).Sound) :
    Follows L κ κ' bs := by
  cases hs with
  | guest hn =>
    obtain rfl : bs = [] := h.matched
    exact ⟨[], .single .outside, rfl, fun hne => absurd rfl hne⟩
  | @instr s as i ins st hf hne hcall hjmp =>
    cases as with
    | nil => exact hi.own.elim
    | cons a as =>
      exact h.instr hi hu hf hne (elsewhere_none hcall hjmp) st
  | @call s as i st hf =>
    cases as with
    | nil => exact hi.own.elim
    | cons a as => exact h.call hi hf st
  | @handler e s s' as hst =>
    cases as with
    | nil => exact hi.own.elim
    | cons a as => exact h.handle (hH e s s' (.inl hst)) rfl
  | @ret e s s' as hst =>
    cases as with
    | nil => exact hi.own.elim
    | cons a as =>
      exact h.handle (hH e s s' (.inr hst)) ⟨35, hi.ret_rip hst, .inl (by omega), .of_not (by omega)⟩
  | quiet hx _ => exact h.quiet hx
  | enter a hp hx _ he => exact h.enter hp hx he
  | iret hf => exact h.leave hf (exiting_of_iretq hf.2) (hi.iret hf) rfl
  | hypercall st hf => exact h.leave hf (exiting_of_hypercall hf.2) (hi.hypercall hf st) rfl

/-- **Each run** is an abstract run. -/
theorem Run.refines (hH : H.LeavesMask) {κ κ' : Config} {bs : List Interrupt.Activation}
    (hr : Run L H (.delivering L) κ κ') (hi : Inv L κ) (h : Refines L κ bs) (hu : (flags L κ.s.mem bs).Sound) :
    ∃ bs', Upcall.Run (flags L κ.s.mem bs) (flags L κ'.s.mem bs') ∧ Refines L κ' bs' := by
  induction hr with
  | refl => exact ⟨bs, .refl, h⟩
  | tail hr hs ih =>
    obtain ⟨bs', habs, hmid⟩ := ih
    obtain ⟨bs'', hstep, hend⟩ := hs.refines hH (Run.inv hr hi) hmid (habs.sound hu)
    exact ⟨bs'', habs.trans hstep.to_reflTransGen, hend⟩

/-- In a run from the start, the activations are sound. -/
theorem Config.Start.refines (hH : H.LeavesMask) {κ₀ κ : Config} (h₀ : κ₀.Start L)
    (hr : Run L H (.delivering L) κ₀ κ) : ∃ bs, Refines L κ bs ∧ (flags L κ.s.mem bs).Sound := by
  have hstart : Refines L κ₀ [] := by
    obtain ⟨s, md, as⟩ := κ₀
    obtain ⟨-, rfl, -⟩ := h₀
    exact ⟨rfl, fun hne => absurd rfl hne⟩
  obtain ⟨bs, habs, h⟩ := Run.refines hH hr h₀.inv hstart trivial
  exact ⟨bs, h, habs.sound trivial⟩

section Consequences

variable {s : State} {md : Mode} {a : Activation} {as : List Activation} {bs : List Interrupt.Activation} {i : Nat}

theorem Refines.masked_at_call (h : Refines L ⟨s, .crt, a :: as⟩ bs) (hu : (flags L s.mem bs).Sound)
    (hf : Fetch L.E s.cpu i (.call .doHypervisorCallback)) : s.mem L.maskAddr = 1 := by
  obtain ⟨ph, bs', rfl, hph, -⟩ := h.phase hf
  obtain rfl := code_call hf.2
  obtain rfl := serving_at_call hph
  exact h.masked hu

/-- The flags as an activation leaves them. -/
theorem Refines.flags_at_leave {ins : Instr Glob Label} (h : Refines L ⟨s, .crt, a :: as⟩ bs)
    (hu : (flags L s.mem bs).Sound) (hf : Fetch L.E s.cpu i ins) (hi : Exiting i) :
    s.mem L.maskAddr = (if a.enabled then 0 else 1) ∧ (a.enabled = true → s.mem L.pendingAddr = 0) := by
  obtain ⟨ph, bs', rfl, hph, -⟩ := h.phase hf
  obtain ⟨hk, hp⟩ := Upcall.Sound.leave hu (hph.exiting hi)
  refine ⟨?_, fun he => ?_⟩
  · rcases h.mask (by simp) with h0 | h1
    · rw [show s.mem L.maskAddr = 0 from h0] at hk ⊢
      rw [if_pos (by simpa using hk)]
    · rw [show s.mem L.maskAddr = 1 from h1] at hk ⊢
      rw [if_neg (by simpa using hk)]
  · simpa using hp he

/-- An activation that interrupted masked code keeps the mask set. -/
theorem Refines.masked_of_disabled (h : Refines L ⟨s, md, a :: as⟩ bs) (hu : (flags L s.mem bs).Sound)
    (he : a.enabled = false) : s.mem L.maskAddr = 1 := by
  obtain ⟨ph, bs', rfl, -, -⟩ := h.matched
  have hset : (s.mem L.maskAddr != 0) = true := Upcall.Sound.disabled hu he
  rcases h.mask (by simp) with hk | hk
  · rw [show s.mem L.maskAddr = 0 from hk] at hset
    cases hset
  · exact hk

/-- Only on the way out is an activation popped. -/
theorem leaving_step {X : Xen} {κ' : Config} (hs : Step L H X ⟨s, md, as⟩ κ') (ha : as = a :: κ'.acts) :
    md = .crt ∧ ∃ i ins, Fetch L.E s.cpu i ins ∧ Exiting i := by
  cases hs with
  | iret hf => exact ⟨rfl, _, _, hf, exiting_of_iretq hf.2⟩
  | hypercall st hf => exact ⟨rfl, _, _, hf, exiting_of_hypercall hf.2⟩
  | _ =>
    have hlen := congrArg List.length ha
    simp only [List.length_cons] at hlen
    omega

end Consequences

/-- **No event is lost**, and the mask is restored: the handler is called with the mask set; an activation that
interrupted code with events enabled leaves with the mask clear and nothing pending; one that interrupted code with
events disabled keeps the mask set. -/
theorem no_event_lost (hH : H.LeavesMask) {κ₀ κ : Config} (h₀ : κ₀.Start L) (hr : Run L H (.delivering L) κ₀ κ) :
    (∀ i, κ.mode = .crt → Fetch L.E κ.s.cpu i (.call .doHypervisorCallback) → κ.s.mem L.maskAddr = 1) ∧
    (∀ κ' a, Step L H (.delivering L) κ κ' → κ.acts = a :: κ'.acts →
      κ.s.mem L.maskAddr = (if a.enabled then 0 else 1) ∧ (a.enabled = true → κ.s.mem L.pendingAddr = 0)) ∧
    ∀ a as, κ.acts = a :: as → a.enabled = false → κ.s.mem L.maskAddr = 1 := by
  have hinv := Run.inv hr h₀.inv
  obtain ⟨bs, h, hu⟩ := h₀.refines hH hr
  obtain ⟨s, md, as⟩ := κ
  refine ⟨fun i hm hf => ?_, fun κ' a hs ha => ?_, fun a as ha he => ?_⟩
  · obtain rfl : md = .crt := hm
    cases as with
    | nil => exact hinv.own.elim
    | cons a as => exact h.masked_at_call hu hf
  · obtain ⟨rfl, i, ins, hf, hi⟩ := leaving_step hs ha
    obtain rfl : as = a :: κ'.acts := ha
    exact h.flags_at_leave hu hf hi
  · obtain rfl : _ = a :: as := ha
    exact h.masked_of_disabled hu he

/-- In the run of `Flat`: the guest had events enabled. -/
theorem no_event_lost_flat :
    Flat.atLeave.mem Flat.layout.maskAddr = 0 ∧ Flat.atLeave.mem Flat.layout.pendingAddr = 0 := by
  have hX : (Xen.delivering Flat.layout).upcall Flat.act.rflags Flat.act.mem Flat.arrived := by
    unfold Xen.delivering
    decide
  have hH : Flat.handler.LeavesMask := by
    rintro e s s' (hs | ⟨-, rfl⟩)
    · exact hs.elim
    · exact Mem.write8_other 0 Flat.layout.pending_ne_mask.symm
  obtain ⟨hmask, hpend⟩ := (no_event_lost hH Flat.start (Flat.run_leave hX)).2.1 _ Flat.act
    (.iret Flat.atLeave_fetch) rfl
  exact ⟨hmask, hpend (by decide)⟩

end Synthol.Crt
