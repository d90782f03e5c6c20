import Synthol.Logging.Console

/-!
# What synthol_vnlogf sends

`synthol_vnlogf` passes on what `vsnprintf` returns as the count of its hypercall. That is the length of the whole text,
and negative when formatting fails, so that the hypervisor reads the text and nothing else exactly when the format is
accepted, the text is shorter than the array, and every byte that is counted is written (`vnlogf_onlyText_iff`).
-/

namespace Synthol.Logging

open X86 Stdio

variable {F : Type}

/-- The hypercalls that a function is to make: a single one, given the first `n-1` bytes of the text, and no negative
count when `vsnprintf` fails. -/
structure OnlyText (n : Nat) (text : List Byte) (ret : Int) (calls : List Call) (c : Call) : Prop where
  single : calls = [c]
  sent : 0 ≤ ret → c.count = min text.length (n - 1) ∧ c.text = text.take (n - 1)
  failed : ret < 0 → 0 ≤ c.count

/-- What is read of the array when the count is the length of a text that fits. -/
theorem slice_text (b : Block Byte) (t : List Byte) : (b.blit 0 (t ++ [0])).slice 0 t.length = t := by
  have h := Block.blit_append b 0 t [0]
  rw [Nat.zero_add] at h
  rw [← h, Block.slice_blit_before _ _ (by omega), Block.slice_blit]

/-- The hypercall of a run. -/
theorem vnlogf_calls {env : Env F} {n : Nat} {fmt : List Byte} {ap : VaList F} {buf : Block Byte} {m : Mem}
    {r : (Int × Block Byte) × Mem} (x : Console) (h : vsnprintf env buf n fmt ap m = some r) :
    ∃ q, vnlogf env n fmt ap buf x m = some q ∧
      q.1.2.calls.drop x.calls.length = [⟨r.1.1, r.1.2.slice 0 r.1.1.toNat⟩] := by
  refine ⟨_, by rw [vnlogf, h]; rfl, ?_⟩
  simp [consoleIo]

section

variable (junk : Limbs.Cells) (utf8 : Bool) (strerror : Word) (nlArg : Nat → Arg Finite) (internalBuf : Block Byte)
  {n : Nat} (fmt : List Byte) (ap : VaList Finite) (buf : Block Byte) (x : Console) (m : Mem)

/-- **synthol_vnlogf sends the text and nothing else** exactly when the format is accepted, the text fits, and no
conversion counts more than it writes. -/
theorem vnlogf_onlyText_iff (h₁ : 1 ≤ n) (h₂ : (n : Int) ≤ intMax) :
    let env := realEnv junk utf8 strerror nlArg internalBuf
    (∃ r q c, vsnprintf env buf n fmt ap m = some r ∧ vnlogf env n fmt ap buf x m = some q ∧
      OnlyText n (fullText env fmt ap m) r.1.1 (q.1.2.calls.drop x.calls.length) c) ↔
    Accepts env fmt ap m ∧ (fullText env fmt ap m).length < n ∧ ∀ q ∈ pieces env fmt ap m, ¬q.Short := by
  intro env
  clear_value env
  cases hp : passes env fmt ap m with
  | none =>
    have hv := vsnprintf_none (s := buf) h₁ h₂ hp
    obtain ⟨q, hq, hcalls⟩ := vnlogf_calls x hv
    refine iff_of_false ?_ fun h => not_accepts hp h.1
    rintro ⟨r, q', c, hr, hq', hc⟩
    cases hv.symm.trans hr
    cases hq.symm.trans hq'
    rw [hcalls] at hc
    have hneg := hc.failed (by decide : (-1 : Int) < 0)
    rw [← List.singleton_inj.mp hc.single] at hneg
    exact absurd hneg (by simp)
  | some r =>
    have hv := vsnprintf_some (s := buf) h₁ h₂ hp
    rw [fullText_eq hp, pieces_eq hp, accepts_iff hp]
    cases hret : r.ret with
    | none =>
      rw [hret, Option.map_none] at hv
      refine iff_of_false ?_ fun ⟨⟨k, hk, _⟩, _⟩ => by cases hk
      rintro ⟨r', q, c, hr, -⟩
      cases hv.symm.trans hr
    | some k =>
      rw [hret, Option.map_some] at hv
      obtain ⟨q, hq, hcalls⟩ := vnlogf_calls x hv
      constructor
      · rintro ⟨r', q', c, hr, hq', hc⟩
        cases hv.symm.trans hr
        cases hq.symm.trans hq'
        rw [hcalls] at hc
        obtain rfl := (List.singleton_inj.mp hc.single).symm
        have hk : 0 ≤ k := by
          by_contra hneg
          exact hneg (hc.failed (Int.not_le.mp hneg))
        obtain ⟨hle, hiff, -⟩ := passes_counts hp hret hk
        have hcount : k = (min r.text.length (n - 1) : Nat) := (hc.sent hk).1
        have hlt : r.text.length < n := by omega
        exact ⟨⟨k, rfl, hk⟩, hlt, hiff.mp (by omega)⟩
      · rintro ⟨⟨k', hk', hk⟩, hlt, hshort⟩
        cases hk'
        obtain ⟨-, hiff, -⟩ := passes_counts hp hret hk
        have hlen := hiff.mpr hshort
        have htake : r.text.take (n - 1) = r.text := List.take_of_length_le (by omega)
        refine ⟨_, _, _, hv, hq, hcalls, fun _ => ⟨?_, ?_⟩, fun hneg => absurd hk (Int.not_le.mpr hneg)⟩
        · simp only
          omega
        · simp only
          rw [htake, ← hlen, Int.toNat_natCast, slice_text]

end

/-- What the stack holds. -/
def stack : Block Byte := fun _ => 0x5a

def letters : List Byte := text ['a', 'b', 'c', 'd', 'e', 'f']

theorem accepts_letters : Accepts smallEnv letters (passing []) fun _ => 0 :=
  passes_accepts.mpr ⟨_, 6, rfl, rfl, by decide⟩

/-- Six bytes in an array of eight. -/
theorem vnlogf_fits : ∃ r q c, vsnprintf smallEnv stack 8 letters (passing []) (fun _ => 0) = some r ∧
    vnlogf smallEnv 8 letters (passing []) stack quiet (fun _ => 0) = some q ∧
    OnlyText 8 (fullText smallEnv letters (passing []) fun _ => 0) r.1.1 (q.1.2.calls.drop quiet.calls.length) c :=
  (vnlogf_onlyText_iff (fun _ => 0) false 0 (fun _ => word 0) (fun _ => 0) letters (passing []) stack quiet (fun _ => 0)
    (n := 8) (by decide) (by decide)).mpr ⟨accepts_letters, by decide +kernel, by decide +kernel⟩

/-- Six bytes in an array of four: the NUL and two bytes of the stack past the array are sent. -/
theorem vnlogf_past_array : ∃ r q, vsnprintf smallEnv stack 4 letters (passing []) (fun _ => 0) = some r ∧
    vnlogf smallEnv 4 letters (passing []) stack quiet (fun _ => 0) = some q ∧
    q.1.2.calls = [⟨6, text ['a', 'b', 'c'] ++ [0, 0x5a, 0x5a]⟩] ∧
    ¬∃ c, OnlyText 4 (fullText smallEnv letters (passing []) fun _ => 0) r.1.1
      (q.1.2.calls.drop quiet.calls.length) c := by
  refine ⟨_, _, rfl, rfl, by decide +kernel, ?_⟩
  rintro ⟨c, hc⟩
  have hc6 : ([⟨6, text ['a', 'b', 'c'] ++ [0, 0x5a, 0x5a]⟩] : List Call) = [c] := by
    rw [← hc.single]
    decide +kernel
  have hc3 : c.count = 3 := (hc.sent (by decide +kernel)).1
  rw [← List.singleton_inj.mp hc6] at hc3
  exact absurd hc3 (by decide)

end Synthol.Logging
