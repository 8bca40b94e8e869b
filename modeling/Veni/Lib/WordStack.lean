import Mathlib.Algebra.Ring.Nat
import Veni.Lib.WordMemory

/-! Words on a stack that grows down in such a memory. -/

namespace Veni.Lib.WordMemory

structure Stack where
  memory : BitVec 32 → BitVec 8
  top : BitVec 32

namespace Stack

def push (s : Stack) (v : BitVec 32) : Stack := ⟨store s.memory (s.top - 4#32) v, s.top - 4#32⟩

def pushAll (s : Stack) (words : List (BitVec 32)) : Stack := words.foldl push s

end Stack

def Holds (m : BitVec 32 → BitVec 8) (a : BitVec 32) : List (BitVec 32) → Prop
  | [] => True
  | v :: words => load m a = v ∧ Holds m (a + 4#32) words

variable {m : BitVec 32 → BitVec 8} {a b v : BitVec 32} {words rest : List (BitVec 32)} {s : Stack}

lemma Holds.store_below (h : Holds m a words) (hb : 4 ≤ (a - b).toNat)
    (hroom : (a - b).toNat + 4 * words.length < 2 ^ 32) : Holds (store m b v) a words := by
  induction words generalizing a with
  | nil => trivial
  | cons w words ih =>
    rw [List.length_cons] at hroom
    have hnext : (a + 4#32 - b).toNat = (a - b).toNat + 4 := by
      have hcomm : a + 4#32 - b = a - b + 4#32 := by bv_omega
      rw [hcomm, BitVec.toNat_add, BitVec.toNat_ofNat, Nat.mod_eq_of_lt (by omega)]
    refine ⟨?_, ih h.2 (by omega) (by omega)⟩
    rw [load_store_apart ⟨by bv_omega, by bv_omega⟩]
    exact h.1

namespace Stack

lemma push_holds (h : Holds s.memory s.top words) (hroom : 4 * (words.length + 1) < 2 ^ 32) :
    Holds (s.push v).memory (s.push v).top (v :: words) := by
  have hback : s.top - 4#32 + 4#32 = s.top := by bv_omega
  have hgap : (s.top - (s.top - 4#32)).toNat = 4 := by bv_omega
  refine ⟨load_store _ _ _, ?_⟩
  rw [push, hback]
  exact h.store_below (by omega) (by omega)

lemma pushAll_holds (h : Holds s.memory s.top rest)
    (hroom : 4 * (words.length + rest.length) < 2 ^ 32) :
    Holds (s.pushAll words).memory (s.pushAll words).top (words.reverse ++ rest) := by
  induction words generalizing s rest with
  | nil => exact h
  | cons v words ih =>
    rw [List.length_cons] at hroom
    rw [List.reverse_cons, List.append_assoc]
    apply ih (push_holds h (by omega))
    rw [List.length_cons]
    omega

lemma pushAll_top (s : Stack) (words : List (BitVec 32)) :
    (s.pushAll words).top = s.top - BitVec.ofNat 32 (4 * words.length) := by
  induction words generalizing s with
  | nil => exact (BitVec.sub_zero s.top).symm
  | cons v words ih =>
    have hlength : BitVec.ofNat 32 (4 * (v :: words).length) =
        4#32 + BitVec.ofNat 32 (4 * words.length) := by
      rw [List.length_cons, Nat.mul_succ, Nat.add_comm, BitVec.ofNat_add]
    rw [hlength]
    have h := ih (s.push v)
    rw [push] at h
    rw [pushAll, List.foldl_cons, ← pushAll, push, h]
    bv_omega

lemma pushAll_frame {x : BitVec 32} (hroom : 4 * words.length ≤ 2 ^ 32)
    (hx : 4 * words.length ≤ (x - (s.pushAll words).top).toNat) :
    (s.pushAll words).memory x = s.memory x := by
  induction words generalizing s with
  | nil => rfl
  | cons v words ih =>
    rw [List.length_cons] at hroom hx
    have hstep : (s.pushAll (v :: words)) = (s.push v).pushAll words := rfl
    rw [hstep] at hx ⊢
    rw [ih (by omega) (by omega)]
    rw [pushAll_top] at hx
    apply store_of_le
    change (4#32).toNat ≤ _
    rw [push] at hx
    have hn : (BitVec.ofNat 32 (4 * words.length)).toNat = 4 * words.length := by
      rw [BitVec.toNat_ofNat]
      exact Nat.mod_eq_of_lt (by omega)
    generalize BitVec.ofNat 32 (4 * words.length) = n at hx hn
    bv_omega

end Stack

end Veni.Lib.WordMemory
