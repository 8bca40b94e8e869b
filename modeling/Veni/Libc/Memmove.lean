import Veni.Lib.OverlappingCopy
import Mathlib.Tactic.Ring

/-! `memmove`, whose two loops copy upwards and downwards. -/

namespace Veni.Libc

open Veni.Lib OverlappingCopy

abbrev AddressSpace := BitVec 32 → UInt8

namespace Memmove

def byte (p : BitVec 32) (i : ℕ) : BitVec 32 := p + BitVec.ofNat 32 i

def copyByte (dst src : BitVec 32) (m : AddressSpace) (i : ℕ) : AddressSpace :=
  Function.update m (byte dst i) (m (byte src i))

def copyUp (dst src : BitVec 32) (size : ℕ) (m : AddressSpace) : AddressSpace :=
  (List.range size).foldl (copyByte dst src) m

def copyDown (dst src : BitVec 32) : ℕ → AddressSpace → AddressSpace
  | 0, m => m
  | i + 1, m => copyDown dst src i (copyByte dst src m i)

def memmove (m : AddressSpace) (dst src size : BitVec 32) : BitVec 32 × AddressSpace :=
  (dst, if dst < src then copyUp dst src size.toNat m else copyDown dst src size.toNat m)

variable {dst src : BitVec 32} {n : ℕ}

lemma toNat_byte {p : BitVec 32} {i : ℕ} (hp : p.toNat + n ≤ 2 ^ 32) (hi : i < n) :
    (byte p i).toNat = p.toNat + i := by
  rw [byte, BitVec.toNat_add, BitVec.toNat_ofNat, Nat.add_mod_mod, Nat.mod_eq_of_lt (by omega)]

lemma copyUp_eq (m : AddressSpace) :
    copyUp dst src n m = copyAlong (byte dst) (byte src) (List.range n) m := rfl

lemma copyDown_eq (m : AddressSpace) :
    copyDown dst src n m = copyAlong (byte dst) (byte src) (List.range n).reverse m := by
  induction n generalizing m with
  | zero => rfl
  | succ n ih =>
    rw [List.range_succ, List.reverse_append]
    exact ih _

variable (hd : dst.toNat + n ≤ 2 ^ 32) (hs : src.toNat + n ≤ 2 ^ 32)
include hd hs

lemma readsFirst_up (hlt : dst < src) : ReadsFirst (byte dst) (byte src) (List.range n) := by
  apply (List.pairwise_lt_range (n := n)).imp_of_mem
  intro i j hi hj hij
  have hi := toNat_byte hd (List.mem_range.mp hi)
  have hjs := toNat_byte hs (List.mem_range.mp hj)
  have hjd := toNat_byte hd (List.mem_range.mp hj)
  have hlt := BitVec.lt_def.mp hlt
  constructor <;> intro h <;> have := congrArg BitVec.toNat h <;> omega

lemma readsFirst_down (hle : ¬ dst < src) :
    ReadsFirst (byte dst) (byte src) (List.range n).reverse := by
  apply List.pairwise_reverse.mpr
  apply (List.pairwise_lt_range (n := n)).imp_of_mem
  intro i j hi hj hij
  have his := toNat_byte hs (List.mem_range.mp hi)
  have hid := toNat_byte hd (List.mem_range.mp hi)
  have hj := toNat_byte hd (List.mem_range.mp hj)
  have hle := BitVec.not_lt.mp hle
  have hle := BitVec.le_def.mp hle
  constructor <;> intro h <;> have := congrArg BitVec.toNat h <;> omega

omit hd hs

lemma memmove_eq (m : AddressSpace) {size : BitVec 32} (hd : dst.toNat + size.toNat ≤ 2 ^ 32)
    (hs : src.toNat + size.toNat ≤ 2 ^ 32) :
    ∃ order, (∀ i, i ∈ order ↔ i < size.toNat) ∧ ReadsFirst (byte dst) (byte src) order ∧
      memmove m dst src size = (dst, copyAlong (byte dst) (byte src) order m) := by
  by_cases hlt : dst < src
  · exact ⟨_, fun i => List.mem_range, readsFirst_up hd hs hlt, by rw [memmove, if_pos hlt, copyUp_eq]⟩
  · refine ⟨_, fun i => ?_, readsFirst_down hd hs hlt, by rw [memmove, if_neg hlt, copyDown_eq]⟩
    rw [List.mem_reverse, List.mem_range]

/-- Ranges that do not wrap may be disjoint, equal or overlapping either way: the range at `dst`
ends up with what the range at `src` held, and no other byte changes. -/
theorem memmove_moves (m : AddressSpace) (dst src size : BitVec 32)
    (hd : dst.toNat + size.toNat ≤ 2 ^ 32) (hs : src.toNat + size.toNat ≤ 2 ^ 32) :
    (∀ i < size.toNat, (memmove m dst src size).2 (byte dst i) = m (byte src i)) ∧
      ∀ a : BitVec 32, ¬ (dst.toNat ≤ a.toNat ∧ a.toNat < dst.toNat + size.toNat) →
        (memmove m dst src size).2 a = m a := by
  obtain ⟨order, hmem, hfirst, heq⟩ := memmove_eq m hd hs
  rw [heq]
  refine ⟨fun i hi => copyAlong_dst m hfirst ((hmem i).mpr hi), fun a ha => ?_⟩
  apply copyAlong_of_ne
  rintro i hi rfl
  have hi := (hmem i).mp hi
  have := toNat_byte hd hi
  omega

theorem memmove_moves_overlapping :
    (memmove (fun a => UInt8.ofNat a.toNat) 5 4 3).2 (byte 5 2) = 6 :=
  (memmove_moves (fun a => UInt8.ofNat a.toNat) 5 4 3 (by decide) (by decide)).1 2 (by decide)

end Memmove

end Veni.Libc
