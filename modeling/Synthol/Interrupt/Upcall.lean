import Mathlib.Logic.Relation

/-!
# Upcalls that re-enable themselves

One processor takes upcalls. `mask` keeps new ones out, `pending` says that an event has not been looked at. An upcall
interrupts whatever runs, so that several activations nest; each serves events, and on its way out it unmasks, looks at
`pending` once more, and either leaves or masks and serves again (`Phase`). An activation that interrupted masked code
leaves without unmasking.

- `Step.sound`: what each phase says of the two flags (`Sound`) is kept, for the running activation and, with the
  flags its interrupter leaves, for those it interrupted;
- `Run.sound`: so it is in every run;
- `Sound.serving`, `Sound.leave`: events are served masked; an activation leaves with nothing pending and unmasked, or
  masked, as it found things.
-/

namespace Synthol.Interrupt

/-- How far an activation is. -/
inductive Phase
  | serving
  /-- It will unmask next. -/
  | opening
  | opened
  /-- It has looked at `pending`. -/
  | tested (pending : Bool)
  /-- It will mask again next. -/
  | rearming
  /-- It is on its way out, unmasked. -/
  | draining
  /-- It is on its way out, masked. -/
  | closing
  deriving DecidableEq

structure Activation where
  /-- Upcalls were enabled in what it interrupted. -/
  enabled : Bool
  phase : Phase
  deriving DecidableEq

/-- The flags and the activations, innermost first. -/
structure Upcall where
  mask : Bool
  pending : Bool
  acts : List Activation

def Phase.exiting : Phase → Bool
  | .draining | .closing => true
  | _ => false

inductive Upcall.Step : Upcall → Upcall → Prop
  /-- An event while masked. -/
  | arrive {p as} : Step ⟨true, p, as⟩ ⟨true, true, as⟩
  /-- An upcall, for a new event or one that is pending. -/
  | deliver {p as} : Step ⟨false, p, as⟩ ⟨true, true, ⟨true, .serving⟩ :: as⟩
  /-- An entry while masked. -/
  | raise {p q as} : Step ⟨true, p, as⟩ ⟨true, q, ⟨false, .serving⟩ :: as⟩
  /-- The handler does what it likes with `pending`. -/
  | handle {k p q e as} : Step ⟨k, p, ⟨e, .serving⟩ :: as⟩ ⟨k, q, ⟨e, .serving⟩ :: as⟩
  | decide {k p e as} :
    Step ⟨k, p, ⟨e, .serving⟩ :: as⟩ ⟨k, p, ⟨e, if e && k then .opening else .closing⟩ :: as⟩
  | unmask {k p e as} : Step ⟨k, p, ⟨e, .opening⟩ :: as⟩ ⟨false, p, ⟨e, .opened⟩ :: as⟩
  | test {k p e as} : Step ⟨k, p, ⟨e, .opened⟩ :: as⟩ ⟨k, p, ⟨e, .tested p⟩ :: as⟩
  | branch {k p e b as} :
    Step ⟨k, p, ⟨e, .tested b⟩ :: as⟩ ⟨k, p, ⟨e, if b then .rearming else .draining⟩ :: as⟩
  | block {k p e as} : Step ⟨k, p, ⟨e, .rearming⟩ :: as⟩ ⟨true, p, ⟨e, .serving⟩ :: as⟩
  | leave {k p e ph as} : ph.exiting = true → Step ⟨k, p, ⟨e, ph⟩ :: as⟩ ⟨k, p, as⟩
  /-- Code that is no activation. -/
  | outside {k k' p p'} : Step ⟨k, p, []⟩ ⟨k', p', []⟩

abbrev Upcall.Run : Upcall → Upcall → Prop := Relation.ReflTransGen Upcall.Step

/-! ## The invariant -/

/-- What the phase of an activation says of the flags. -/
def Activation.Fits (k p : Bool) (a : Activation) : Prop :=
  match a.phase with
  | .serving => k = true
  | .opening => k = true ∧ a.enabled = true
  | .opened | .rearming => k = false ∧ a.enabled = true
  | .tested b => k = false ∧ a.enabled = true ∧ (b = false → p = false)
  | .draining => k = false ∧ a.enabled = true ∧ p = false
  | .closing => k = true ∧ a.enabled = false

/-- The flags as an activation leaves them. -/
def Activation.Leaves (k p : Bool) (a : Activation) : Prop := k = !a.enabled ∧ (a.enabled = true → p = false)

/-- Each activation below `a` fits the flags that the one over it leaves. -/
def Resumable (a : Activation) : List Activation → Prop
  | [] => True
  | b :: as => (∀ k p, a.Leaves k p → b.Fits k p) ∧ Resumable b as

def Upcall.Sound (u : Upcall) : Prop :=
  match u.acts with
  | [] => True
  | a :: as => a.Fits u.mask u.pending ∧ Resumable a as

variable {k p : Bool} {a : Activation} {as : List Activation} {u v : Upcall}

/-- On its way out, an activation has left the flags as it should. -/
theorem Activation.Fits.leaves (h : a.Fits k p) (he : a.phase.exiting = true) : a.Leaves k p := by
  obtain ⟨e, ph⟩ := a
  cases ph with
  | draining => obtain ⟨rfl, rfl, rfl⟩ := h; exact ⟨rfl, fun _ => rfl⟩
  | closing => obtain ⟨rfl, rfl⟩ := h; exact ⟨rfl, fun h => by cases h⟩
  | _ => cases he

/-- Unmasked, an activation still fits when nothing is pending any more. -/
theorem Activation.Fits.drained (h : a.Fits false p) : a.Fits false false := by
  obtain ⟨e, ph⟩ := a
  cases ph with
  | tested b => exact ⟨h.1, h.2.1, fun _ => rfl⟩
  | draining => exact ⟨h.1, h.2.1, rfl⟩
  | _ => exact h

/-- Masked, an activation does not care what is pending. -/
theorem Activation.Fits.masked (h : a.Fits true p) (q : Bool) : a.Fits true q := by
  obtain ⟨e, ph⟩ := a
  cases ph with
  | tested b => exact absurd h.1 (by decide)
  | draining => exact absurd h.1 (by decide)
  | _ => exact h

theorem Upcall.Sound.pop (h : Upcall.Sound ⟨k, p, a :: as⟩) (hl : a.Leaves k p) : Upcall.Sound ⟨k, p, as⟩ := by
  cases as with
  | nil => trivial
  | cons b as => exact ⟨h.2.1 k p hl, h.2.2⟩

/-- A new activation over those that are there. -/
theorem Upcall.Sound.push (h : Upcall.Sound ⟨k, p, as⟩) (q : Bool) :
    Upcall.Sound ⟨true, q, ⟨!k, .serving⟩ :: as⟩ := by
  refine ⟨rfl, ?_⟩
  cases as with
  | nil => trivial
  | cons b as =>
    refine ⟨fun k' p' hl => ?_, h.2⟩
    obtain ⟨rfl, hp⟩ := hl
    cases k with
    | true => exact h.1.masked p'
    | false =>
      obtain rfl := hp rfl
      exact h.1.drained

/-- Going on to another phase. -/
theorem Upcall.Sound.advance {q e : Bool} {k' : Bool} {ph ph' : Phase} (h : Upcall.Sound ⟨k, p, ⟨e, ph⟩ :: as⟩)
    (hf : Activation.Fits k' q ⟨e, ph'⟩) : Upcall.Sound ⟨k', q, ⟨e, ph'⟩ :: as⟩ := by
  refine ⟨hf, ?_⟩
  cases as with
  | nil => trivial
  | cons b as => exact h.2

/-- **One step** keeps the invariant. -/
theorem Upcall.Step.sound (hs : Upcall.Step u v) (h : u.Sound) : v.Sound := by
  cases hs with
  | arrive =>
    rename_i p as
    cases as with
    | nil => trivial
    | cons a as => exact ⟨h.1.masked true, h.2⟩
  | deliver => exact h.push true
  | raise => exact h.push _
  | handle => exact h.advance h.1
  | decide =>
    rename_i k p e as
    obtain rfl : k = true := h.1
    cases e with
    | true => exact h.advance ⟨rfl, rfl⟩
    | false => exact h.advance ⟨rfl, rfl⟩
  | unmask => exact h.advance ⟨rfl, h.1.2⟩
  | test => exact h.advance ⟨h.1.1, h.1.2, id⟩
  | branch =>
    rename_i k p e b as
    obtain ⟨hk, he, hb⟩ := h.1
    cases b with
    | true => exact h.advance ⟨hk, he⟩
    | false => exact h.advance ⟨hk, he, hb rfl⟩
  | block => exact h.advance rfl
  | leave he => exact h.pop (h.1.leaves he)
  | outside => trivial

/-- **Every run** keeps the invariant. -/
theorem Upcall.Run.sound (hr : Upcall.Run u v) (h : u.Sound) : v.Sound := by
  induction hr with
  | refl => exact h
  | tail _ hs ih => exact hs.sound ih

/-- Events are served masked. -/
theorem Upcall.Sound.serving {e : Bool} (h : Upcall.Sound ⟨k, p, ⟨e, .serving⟩ :: as⟩) : k = true := h.1

/-- An activation that interrupted masked code does not unmask. -/
theorem Upcall.Sound.disabled {e : Bool} {ph : Phase} (h : Upcall.Sound ⟨k, p, ⟨e, ph⟩ :: as⟩) (he : e = false) :
    k = true := by
  subst he
  have hf := h.1
  cases ph with
  | serving => exact hf
  | closing => exact hf.1
  | opening => exact hf.1
  | tested b => exact absurd hf.2.1 (by simp)
  | draining => exact absurd hf.2.1 (by simp)
  | _ => exact absurd hf.2 (by simp)

/-- An activation leaves the flags as it should. -/
theorem Upcall.Sound.leave (h : Upcall.Sound ⟨k, p, a :: as⟩) (he : a.phase.exiting = true) :
    k = !a.enabled ∧ (a.enabled = true → p = false) := h.1.leaves he

end Synthol.Interrupt
