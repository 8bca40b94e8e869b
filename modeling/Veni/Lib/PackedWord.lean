import Mathlib.Data.BitVec
import Mathlib.Tactic.Common

/-! Machine words that hold an aligned base and, in their low `k` bits, an offset or flags. -/

namespace Veni.Lib.PackedWord

variable {w : ℕ} (k : ℕ)

def lowMask : BitVec w := BitVec.ofNat w (2 ^ k - 1)

def base (x : BitVec w) : BitVec w := x &&& ~~~(lowMask k)

def offset (x : BitVec w) : BitVec w := x &&& lowMask k

lemma getLsbD_lowMask (i : ℕ) :
    (lowMask k : BitVec w).getLsbD i = (decide (i < w) && decide (i < k)) := by
  simp [lowMask, BitVec.getLsbD_ofNat, Nat.testBit_two_pow_sub_one]

lemma getLsbD_base (x : BitVec w) (i : ℕ) :
    (base k x).getLsbD i = (x.getLsbD i && !decide (i < k)) := by
  by_cases hi : i < w
  · simp only [base, BitVec.getLsbD_and, BitVec.getLsbD_not, getLsbD_lowMask, hi, decide_true,
      Bool.true_and]
  · simp [BitVec.getLsbD_of_ge _ _ (Nat.not_lt.mp hi)]

lemma getLsbD_offset (x : BitVec w) (i : ℕ) :
    (offset k x).getLsbD i = (x.getLsbD i && decide (i < k)) := by
  by_cases hi : i < w
  · simp only [offset, BitVec.getLsbD_and, getLsbD_lowMask, hi, decide_true, Bool.true_and]
  · simp [BitVec.getLsbD_of_ge _ _ (Nat.not_lt.mp hi)]

lemma toNat_offset (x : BitVec w) : (offset k x).toNat = x.toNat % 2 ^ k := by
  apply Nat.eq_of_testBit_eq
  intro i
  have h := getLsbD_offset k x i
  rw [Nat.testBit_mod_two_pow, Bool.and_comm]
  exact h

lemma toNat_base (x : BitVec w) : (base k x).toNat = x.toNat / 2 ^ k * 2 ^ k := by
  apply Nat.eq_of_testBit_eq
  intro i
  have h := getLsbD_base k x i
  rw [Nat.mul_comm, Nat.testBit_two_pow_mul, Nat.testBit_div_two_pow]
  apply h.trans
  by_cases hi : k ≤ i
  · have hlt : ¬ i < k := by omega
    simp [hi, hlt, BitVec.getLsbD]
  · have hlt : i < k := by omega
    simp [hi, hlt]

lemma base_eq_zero {x : BitVec w} (h : x.toNat < 2 ^ k) : base k x = 0#w := by
  apply BitVec.eq_of_toNat_eq
  rw [toNat_base, Nat.div_eq_of_lt h]
  simp

lemma base_eq_self {x : BitVec w} (h : x.toNat % 2 ^ k = 0) : base k x = x := by
  apply BitVec.eq_of_toNat_eq
  rw [toNat_base]
  exact Nat.div_mul_cancel (Nat.dvd_of_mod_eq_zero h)

lemma base_or (x y : BitVec w) : base k (x ||| y) = base k x ||| base k y := by
  apply BitVec.eq_of_getLsbD_eq
  intro i _
  simp only [BitVec.getLsbD_or, getLsbD_base]
  exact Bool.and_or_distrib_right _ _ _

lemma base_idem (x : BitVec w) : base k (base k x) = base k x :=
  base_eq_self k (by simp [toNat_base])

lemma base_pack (x : BitVec w) {f : BitVec w} (hf : f.toNat < 2 ^ k) :
    base k (base k x ||| f) = base k x := by
  rw [base_or, base_idem, base_eq_zero k hf, BitVec.or_zero]

end Veni.Lib.PackedWord
