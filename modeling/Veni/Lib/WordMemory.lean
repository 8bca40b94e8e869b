import Mathlib.Tactic.Common

/-! Little-endian words in a byte memory whose addresses wrap around. -/

namespace Veni.Lib.WordMemory

def byte (v : BitVec 32) (i : ℕ) : BitVec 8 := v.extractLsb' (8 * i) 8

def load (m : BitVec 32 → BitVec 8) (a : BitVec 32) : BitVec 32 :=
  m (a + 3#32) ++ m (a + 2#32) ++ m (a + 1#32) ++ m a

def store (m : BitVec 32 → BitVec 8) (a v : BitVec 32) (x : BitVec 32) : BitVec 8 :=
  if x - a < 4#32 then byte v (x - a).toNat else m x

def Apart (a b : BitVec 32) : Prop := 4#32 ≤ b - a ∧ 4#32 ≤ a - b

instance (a b : BitVec 32) : Decidable (Apart a b) := inferInstanceAs (Decidable (_ ∧ _))

variable {m : BitVec 32 → BitVec 8} {a b v : BitVec 32}

lemma byte_append (v : BitVec 32) : byte v 3 ++ byte v 2 ++ byte v 1 ++ byte v 0 = v := by
  apply BitVec.eq_of_getLsbD_eq
  intro i hi
  simp only [byte, BitVec.getLsbD_append, BitVec.getLsbD_extractLsb']
  by_cases h₁ : i < 8
  · simp [h₁]
  · by_cases h₂ : i - 8 < 8
    · have hidx : 8 * 1 + (i - 8) = i := by omega
      simp [h₁, h₂, hidx]
    · by_cases h₃ : i - 8 - 8 < 8
      · have hidx : 8 * 2 + (i - 8 - 8) = i := by omega
        simp [h₁, h₂, h₃, hidx]
      · have hlt : i - 8 - 8 - 8 < 8 := by omega
        have hidx : 8 * 3 + (i - 8 - 8 - 8) = i := by omega
        simp [h₁, h₂, h₃, hlt, hidx]

@[simp] lemma load_store (m : BitVec 32 → BitVec 8) (a v : BitVec 32) : load (store m a v) a = v := by
  have hstore : ∀ i < 4#32, store m a v (a + i) = byte v i.toNat := by
    intro i hi
    have hsub : a + i - a = i := by bv_omega
    rw [store, hsub, if_pos hi]
  have hzero := hstore 0#32 (by decide)
  rw [BitVec.add_zero] at hzero
  simp only [load]
  rw [hstore 3#32 (by decide), hstore 2#32 (by decide), hstore 1#32 (by decide), hzero]
  exact byte_append v

lemma store_of_le {x : BitVec 32} (h : 4#32 ≤ x - a) : store m a v x = m x := by
  rw [store, if_neg (BitVec.not_lt.mpr h)]

lemma load_store_apart (h : Apart a b) : load (store m a v) b = load m b := by
  obtain ⟨h₁, h₂⟩ := h
  simp only [load]
  rw [store_of_le (by bv_omega), store_of_le (by bv_omega), store_of_le (by bv_omega), store_of_le h₁]

lemma Apart.add {i j : BitVec 32} (h : Apart i j) (a : BitVec 32) : Apart (a + i) (a + j) := by
  have h₁ : a + j - (a + i) = j - i := by bv_omega
  have h₂ : a + i - (a + j) = i - j := by bv_omega
  rw [Apart, h₁, h₂]
  exact h

lemma load_congr {n : BitVec 32 → BitVec 8} (h : ∀ i < 4#32, m (a + i) = n (a + i)) :
    load m a = load n a := by
  have h0 := h 0#32 (by decide)
  rw [BitVec.add_zero] at h0
  simp only [load]
  rw [h 3#32 (by decide), h 2#32 (by decide), h 1#32 (by decide), h0]

end Veni.Lib.WordMemory
