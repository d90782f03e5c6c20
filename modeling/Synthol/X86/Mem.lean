import Mathlib.Data.BitVec
import Mathlib.Data.Nat.Bitwise
import Mathlib.Tactic.Linarith

/-!
# Byte-addressed memory

A memory is a function from 64-bit addresses to bytes; addresses wrap, so `Within a n x` (`x` is one of the `n`
bytes from `a` on) is stated with the modular difference `x - a`. Multi-byte accesses are little-endian
(`Mem.load`, `Mem.store`).

- a load depends only on the bytes it covers (`Mem.load_congr`), and its bits are theirs (`Mem.testBit_load`);
- a load from where a store went gives the stored value (`Mem.load_store`), a load from elsewhere does not see the
  store (`Mem.load_store_apart`);
- `read64` after a partial overwrite of its low bytes, bit by bit (`Mem.getLsbD_read64_store`).
-/

namespace Synthol.X86

abbrev Byte := BitVec 8
abbrev Word := BitVec 64
abbrev Mem := Word → Byte

/-! ## Intervals of addresses -/

/-- `x` is one of the `n` bytes from `a` on. -/
def Within (a : Word) (n : Nat) (x : Word) : Prop := (x - a).toNat < n

instance (a : Word) (n : Nat) (x : Word) : Decidable (Within a n x) := inferInstanceAs (Decidable (_ < _))

/-- The `n` bytes from `a` on and the `k` bytes from `b` on have no byte in common. -/
def Apart (a : Word) (n : Nat) (b : Word) (k : Nat) : Prop := ∀ x, Within a n x → ¬Within b k x

theorem add_sub_self (a b : Word) : a + b - a = b := by
  rw [BitVec.add_comm, BitVec.add_sub_cancel]

theorem within_add {a : Word} {n k : Nat} (hk : k < n) (hn : n ≤ 2 ^ 64) : Within a n (a + BitVec.ofNat 64 k) := by
  unfold Within
  rw [add_sub_self, BitVec.toNat_ofNat, Nat.mod_eq_of_lt (by omega)]
  exact hk

theorem Within.mono {a x : Word} {n k : Nat} (h : Within a n x) (hk : n ≤ k) : Within a k x :=
  Nat.lt_of_lt_of_le h hk

/-- Two intervals are apart when each starts past the end of the other. -/
theorem apart_of_sub {a b : Word} {n k : Nat} (h₁ : n ≤ (b - a).toNat) (h₂ : k ≤ (a - b).toNat) : Apart a n b k := by
  intro x hx hy
  unfold Within at hx hy
  bv_omega

theorem Apart.symm {a b : Word} {n k : Nat} (h : Apart a n b k) : Apart b k a n := fun x hy hx => h x hx hy

/-! ## Loads and stores -/

/-- The number in the `n` bytes from `a` on, least significant byte first. -/
def Mem.load (m : Mem) (a : Word) : Nat → Nat
  | 0 => 0
  | n + 1 => m.load a n + 2 ^ (8 * n) * (m (a + BitVec.ofNat 64 n)).toNat

/-- The low `n` bytes of `v` stored from `a` on. -/
def Mem.store (m : Mem) (a : Word) (n v : Nat) : Mem := fun x =>
  if Within a n x then BitVec.ofNat 8 (v >>> (8 * (x - a).toNat)) else m x

theorem Mem.store_other {m : Mem} {a x : Word} {n : Nat} (v : Nat) (h : ¬Within a n x) : m.store a n v x = m x := by
  simp only [Mem.store, if_neg h]

theorem Mem.store_byte (m : Mem) (a : Word) {n k : Nat} (v : Nat) (hk : k < n) (hn : n ≤ 2 ^ 64) :
    m.store a n v (a + BitVec.ofNat 64 k) = BitVec.ofNat 8 (v >>> (8 * k)) := by
  have hw := within_add (a := a) hk hn
  simp only [Mem.store, if_pos hw]
  rw [add_sub_self, BitVec.toNat_ofNat, Nat.mod_eq_of_lt (by omega)]

theorem Mem.load_congr {m m' : Mem} {a : Word} : ∀ {n : Nat}, n ≤ 2 ^ 64 → (∀ x, Within a n x → m' x = m x) →
    m'.load a n = m.load a n
  | 0, _, _ => rfl
  | n + 1, hn, h => by
    rw [Mem.load, Mem.load, Mem.load_congr (by omega) fun x hx => h x (hx.mono (Nat.le_succ n)),
      h _ (within_add (Nat.lt_succ_self n) hn)]

theorem Mem.load_lt (m : Mem) (a : Word) : ∀ n, m.load a n < 2 ^ (8 * n)
  | 0 => by simp [Mem.load]
  | n + 1 => by
    have h := Mem.load_lt m a n
    have hb := (m (a + BitVec.ofNat 64 n)).isLt
    rw [Mem.load, show 8 * (n + 1) = 8 * n + 8 by omega, Nat.pow_add]
    nlinarith

/-- Bit `i` of a load is bit `i % 8` of byte `i / 8`. -/
theorem Mem.testBit_load (m : Mem) (a : Word) : ∀ n i, (m.load a n).testBit i =
    (decide (i < 8 * n) && (m (a + BitVec.ofNat 64 (i / 8))).getLsbD (i % 8))
  | 0, i => by simp [Mem.load]
  | n + 1, i => by
    have h := Mem.testBit_load m a n i
    rw [Mem.load, Nat.add_comm, Nat.testBit_two_pow_mul_add _ (Mem.load_lt m a n)]
    split
    · rename_i hi
      rw [h, decide_eq_true hi, decide_eq_true (show i < 8 * (n + 1) by omega)]
    · rename_i hi
      by_cases hi' : i < 8 * (n + 1)
      · have : i / 8 = n := by omega
        rw [decide_eq_true hi', this, Bool.true_and, show i % 8 = i - 8 * n by omega]; rfl
      · rw [decide_eq_false hi', Bool.false_and]
        exact BitVec.getLsbD_of_ge _ _ (by omega)

/-- A load from elsewhere does not see a store. -/
theorem Mem.load_store_apart {m : Mem} {a b : Word} {n k : Nat} (v : Nat) (hk : k ≤ 2 ^ 64) (h : Apart b k a n) :
    (m.store a n v).load b k = m.load b k :=
  Mem.load_congr hk fun x hx => Mem.store_other v (h x hx)

/-- A load gives the stored value. -/
theorem Mem.load_store (m : Mem) (a : Word) {n v : Nat} (hn : n ≤ 2 ^ 64) (hv : v < 2 ^ (8 * n)) :
    (m.store a n v).load a n = v := by
  apply Nat.eq_of_testBit_eq
  intro i
  rw [Mem.testBit_load]
  by_cases hi : i < 8 * n
  · rw [Mem.store_byte m a v (by omega) hn, BitVec.getLsbD_ofNat, Nat.testBit_shiftRight]
    have h8 : 8 * (i / 8) + i % 8 = i := by omega
    simp [hi, h8, show i % 8 < 8 by omega]
  · rw [decide_eq_false hi, Bool.false_and, Nat.testBit_lt_two_pow]
    exact Nat.lt_of_lt_of_le hv (Nat.pow_le_pow_right (by omega) (by omega))

/-! ## Words, double words and bytes -/

def Mem.read64 (m : Mem) (a : Word) : Word := BitVec.ofNat 64 (m.load a 8)
def Mem.read32 (m : Mem) (a : Word) : BitVec 32 := BitVec.ofNat 32 (m.load a 4)
def Mem.write64 (m : Mem) (a w : Word) : Mem := m.store a 8 w.toNat
def Mem.write32 (m : Mem) (a : Word) (w : BitVec 32) : Mem := m.store a 4 w.toNat
def Mem.write8 (m : Mem) (a : Word) (b : Byte) : Mem := m.store a 1 b.toNat

theorem Mem.read64_congr {m m' : Mem} {a : Word} (h : ∀ x, Within a 8 x → m' x = m x) : m'.read64 a = m.read64 a := by
  rw [Mem.read64, Mem.read64, Mem.load_congr (by omega) h]

@[simp] theorem Mem.read64_write64 (m : Mem) (a w : Word) : (m.write64 a w).read64 a = w := by
  rw [Mem.read64, Mem.write64, Mem.load_store m a (by omega) w.isLt, BitVec.ofNat_toNat, BitVec.setWidth_eq]

theorem Mem.read64_store_apart {m : Mem} {a b : Word} {n : Nat} (v : Nat) (h : Apart b 8 a n) :
    (m.store a n v).read64 b = m.read64 b := by
  rw [Mem.read64, Mem.read64, Mem.load_store_apart v (by omega) h]

@[simp] theorem Mem.write8_self (m : Mem) (a : Word) (b : Byte) : m.write8 a b a = b := by
  have h := Mem.store_byte m a (n := 1) b.toNat (Nat.lt_succ_self 0) (by omega)
  simpa [Mem.write8] using h

theorem Mem.write8_other {m : Mem} {a x : Word} (b : Byte) (h : x ≠ a) : m.write8 a b x = m x := by
  apply Mem.store_other
  intro hw
  apply h
  unfold Within at hw
  bv_omega

theorem Mem.getLsbD_read64 (m : Mem) (a : Word) {i : Nat} (hi : i < 64) :
    (m.read64 a).getLsbD i = (m (a + BitVec.ofNat 64 (i / 8))).getLsbD (i % 8) := by
  rw [Mem.read64, BitVec.getLsbD_ofNat, Mem.testBit_load, decide_eq_true hi, Bool.true_and, Bool.true_and]

/-- The double word at `a` is the low half of the word at `a`. -/
theorem Mem.getLsbD_read32 (m : Mem) (a : Word) {i : Nat} (hi : i < 32) :
    (m.read32 a).getLsbD i = (m.read64 a).getLsbD i := by
  rw [Mem.getLsbD_read64 m a (by omega), Mem.read32, BitVec.getLsbD_ofNat, Mem.testBit_load, decide_eq_true hi,
    Bool.true_and, Bool.true_and]

/-- The word at `a` after its low `n` bytes are overwritten. -/
theorem Mem.getLsbD_read64_store (m : Mem) (a : Word) {n : Nat} (v : Nat) (hn : n ≤ 8) {i : Nat} (hi : i < 64) :
    ((m.store a n v).read64 a).getLsbD i = if i < 8 * n then v.testBit i else (m.read64 a).getLsbD i := by
  rw [Mem.getLsbD_read64 _ a hi]
  split
  · rw [Mem.store_byte m a v (by omega) (by omega), BitVec.getLsbD_ofNat, Nat.testBit_shiftRight,
      decide_eq_true (show i % 8 < 8 by omega), Bool.true_and, show 8 * (i / 8) + i % 8 = i by omega]
  · have hw : ¬Within a n (a + BitVec.ofNat 64 (i / 8)) := by
      unfold Within
      rw [add_sub_self, BitVec.toNat_ofNat, Nat.mod_eq_of_lt (by omega)]
      omega
    rw [Mem.store_other v hw, ← Mem.getLsbD_read64 m a hi]

/-! ## Consecutive words -/

/-- The `n` words from `a` up. -/
def Mem.words (m : Mem) (a : Word) : Nat → List Word
  | 0 => []
  | n + 1 => m.read64 a :: m.words (a + 8) n

/-- Words stored one after the other from `a` up. -/
def Mem.writeWords (m : Mem) (a : Word) : List Word → Mem
  | [] => m
  | w :: ws => (m.writeWords (a + 8) ws).write64 a w

theorem Mem.writeWords_other {m : Mem} {x : Word} : ∀ {a : Word} {ws : List Word}, 8 * ws.length < 2 ^ 64 →
    ¬Within a (8 * ws.length) x → m.writeWords a ws x = m x
  | _, [], _, _ => rfl
  | a, w :: ws, hl, hx => by
    simp only [List.length_cons] at hl hx
    have h8 : ¬Within a 8 x := fun h => hx (h.mono (by omega))
    have hr : ¬Within (a + 8) (8 * ws.length) x := by
      unfold Within at h8 hx ⊢
      bv_omega
    rw [Mem.writeWords, Mem.write64, Mem.store_other _ h8, Mem.writeWords_other (by omega) hr]

theorem Mem.read64_writeWords {m : Mem} : ∀ {a : Word} {ws : List Word} {k : Nat} (_ : 8 * ws.length < 2 ^ 64)
    (hk : k < ws.length), (m.writeWords a ws).read64 (a + BitVec.ofNat 64 (8 * k)) = ws[k]
  | a, w :: ws, 0, _, _ => by simp [Mem.writeWords]
  | a, w :: ws, k + 1, hl, hk => by
    simp only [List.length_cons] at hl hk
    have ha : a + BitVec.ofNat 64 (8 * (k + 1)) = a + 8 + BitVec.ofNat 64 (8 * k) := by
      rw [BitVec.add_assoc]
      congr 1
      bv_omega
    have hap : Apart (a + 8 + BitVec.ofNat 64 (8 * k)) 8 a 8 := apart_of_sub (by bv_omega) (by bv_omega)
    rw [ha, Mem.writeWords, Mem.write64, Mem.read64_store_apart _ hap, Mem.read64_writeWords (by omega) (by omega)]
    rfl

end Synthol.X86
