import Mathlib.Tactic.Common
import Mathlib.Tactic.Ring

/-! Byte-addressed memory with little-endian 32-bit fields. -/

namespace Veni.Lib.ByteMemory

def read32 (m : ℕ → UInt8) (a : ℕ) : ℕ :=
  (m a).toNat + 2 ^ 8 * (m (a + 1)).toNat + 2 ^ 16 * (m (a + 2)).toNat + 2 ^ 24 * (m (a + 3)).toNat

def write32 (m : ℕ → UInt8) (a v : ℕ) (b : ℕ) : UInt8 :=
  if b = a then UInt8.ofNat v
  else if b = a + 1 then UInt8.ofNat (v / 2 ^ 8)
  else if b = a + 2 then UInt8.ofNat (v / 2 ^ 16)
  else if b = a + 3 then UInt8.ofNat (v / 2 ^ 24)
  else m b

def write8 (m : ℕ → UInt8) (a : ℕ) (v : UInt8) (b : ℕ) : UInt8 :=
  if b = a then v else m b

lemma read32_lt (m : ℕ → UInt8) (a : ℕ) : read32 m a < 2 ^ 32 := by
  have h₀ := (m a).toNat_lt
  have h₁ := (m (a + 1)).toNat_lt
  have h₂ := (m (a + 2)).toNat_lt
  have h₃ := (m (a + 3)).toNat_lt
  unfold read32
  omega

lemma read32_congr {m n : ℕ → UInt8} {a : ℕ} (h : ∀ i < 4, n (a + i) = m (a + i)) :
    read32 n a = read32 m a := by
  have h₀ := h 0 (by omega)
  have h₁ := h 1 (by omega)
  have h₂ := h 2 (by omega)
  have h₃ := h 3 (by omega)
  rw [Nat.add_zero] at h₀
  simp only [read32, h₀, h₁, h₂, h₃]

lemma write32_of_ne (m : ℕ → UInt8) {a b : ℕ} (v : ℕ) (h : b < a ∨ a + 4 ≤ b) :
    write32 m a v b = m b := by
  have h₀ : b ≠ a := by omega
  have h₁ : b ≠ a + 1 := by omega
  have h₂ : b ≠ a + 2 := by omega
  have h₃ : b ≠ a + 3 := by omega
  simp [write32, h₀, h₁, h₂, h₃]

lemma read32_write32 (m : ℕ → UInt8) (a : ℕ) {v : ℕ} (hv : v < 2 ^ 32) :
    read32 (write32 m a v) a = v := by
  have h : ∀ n : ℕ, (UInt8.ofNat n).toNat = n % 256 := fun n => UInt8.toNat_ofNat'
  simp only [read32, write32, if_true, Nat.add_eq_left, Nat.add_left_cancel_iff]
  norm_num [h]
  omega

lemma read32_write32_of_ne (m : ℕ → UInt8) {a b : ℕ} (v : ℕ) (h : b + 4 ≤ a ∨ a + 4 ≤ b) :
    read32 (write32 m a v) b = read32 m b :=
  read32_congr fun i hi => write32_of_ne m v (by omega)

lemma read32_write8_of_ne (m : ℕ → UInt8) {a b : ℕ} (v : UInt8) (h : b + 4 ≤ a ∨ a < b) :
    read32 (write8 m a v) b = read32 m b := by
  apply read32_congr
  intro i hi
  have hne : b + i ≠ a := by omega
  simp [write8, hne]

end Veni.Lib.ByteMemory
