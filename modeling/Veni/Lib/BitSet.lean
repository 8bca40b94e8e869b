import Mathlib.Data.BitVec
import Mathlib.Data.List.Range
import Mathlib.Logic.Function.Basic
import Mathlib.Tactic.Common

/-! Sets of natural numbers packed into an array of machine words. -/

namespace Veni.Lib.BitSet

variable {w : ℕ}

def test (b : ℕ → BitVec w) (i : ℕ) : Bool :=
  b (i / w) &&& (1#w <<< (i % w)) != 0#w

def set (b : ℕ → BitVec w) (i : ℕ) : ℕ → BitVec w :=
  Function.update b (i / w) (b (i / w) ||| (1#w <<< (i % w)))

def clear (b : ℕ → BitVec w) (i : ℕ) : ℕ → BitVec w :=
  Function.update b (i / w) (b (i / w) &&& ~~~(1#w <<< (i % w)))

def count (b : ℕ → BitVec w) (n : ℕ) : ℕ :=
  (List.range n).countP (test b)

lemma same_bit {i j : ℕ} (h : i / w = j / w) : i % w = j % w ↔ i = j := by
  constructor
  · intro hm
    rw [← Nat.div_add_mod i w, ← Nat.div_add_mod j w, h, hm]
  · exact fun h => h ▸ rfl

section Membership

variable [NeZero w]

lemma mod_width (i : ℕ) : i % w < w :=
  Nat.mod_lt i (Nat.pos_of_ne_zero (NeZero.ne w))

lemma test_eq (b : ℕ → BitVec w) (i : ℕ) : test b i = (b (i / w)).getLsbD (i % w) := by
  rw [test, ← BitVec.twoPow_eq, BitVec.and_twoPow]
  have hne : BitVec.twoPow w (i % w) ≠ 0#w := by
    intro h
    have hbit := congrArg (fun x => x.getLsbD (i % w)) h
    simp [mod_width i] at hbit
  cases (b (i / w)).getLsbD (i % w) <;> simp [hne]

lemma test_set (b : ℕ → BitVec w) (i j : ℕ) : test (set b i) j = (test b j || decide (i = j)) := by
  rw [test_eq, test_eq, set]
  by_cases h : i / w = j / w
  · rw [← h, Function.update_self, BitVec.getLsbD_or, ← BitVec.twoPow_eq, BitVec.getLsbD_twoPow]
    simp [mod_width i, same_bit h]
  · have hij : i ≠ j := fun he => h (he ▸ rfl)
    rw [Function.update_of_ne (Ne.symm h)]
    simp [hij]

lemma test_clear (b : ℕ → BitVec w) (i j : ℕ) :
    test (clear b i) j = (test b j && !decide (i = j)) := by
  rw [test_eq, test_eq, clear]
  by_cases h : i / w = j / w
  · rw [← h, Function.update_self, BitVec.getLsbD_and, BitVec.getLsbD_not, ← BitVec.twoPow_eq,
      BitVec.getLsbD_twoPow]
    simp [mod_width j, mod_width i, same_bit h]
  · have hij : i ≠ j := fun he => h (he ▸ rfl)
    rw [Function.update_of_ne (Ne.symm h)]
    simp [hij]

end Membership

lemma count_le (b : ℕ → BitVec w) (n : ℕ) : count b n ≤ n := by
  simpa [count] using List.countP_le_length (p := test b) (l := List.range n)

lemma count_mono (b : ℕ → BitVec w) {m n : ℕ} (h : m ≤ n) : count b m ≤ count b n :=
  (List.range_sublist.mpr h).countP_le

lemma count_update {b c : ℕ → BitVec w} {i n : ℕ} (hi : i < n) (hb : test b i = false)
    (hc : ∀ j, test c j = (test b j || decide (i = j))) : count c n = count b n + 1 := by
  induction n with
  | zero => omega
  | succ n ih =>
    simp only [count, List.range_succ, List.countP_append, List.countP_singleton] at ih ⊢
    rcases Nat.lt_succ_iff_lt_or_eq.mp hi with h | rfl
    · have hne : i ≠ n := by omega
      rw [ih h, hc n]
      simp only [hne, decide_false, Bool.or_false]
      omega
    · have hsame : (List.range i).countP (test c) = (List.range i).countP (test b) := by
        refine List.countP_congr fun j hj => ?_
        have hne : i ≠ j := by have := List.mem_range.mp hj; omega
        simp [hc, hne]
      rw [hsame, hc i, hb]
      simp

section Counting

variable [NeZero w]

lemma count_set {b : ℕ → BitVec w} {i n : ℕ} (hi : i < n) (hb : test b i = false) :
    count (set b i) n = count b n + 1 :=
  count_update hi hb (test_set b i)

lemma count_clear {b : ℕ → BitVec w} {i n : ℕ} (hi : i < n) (hb : test b i = true) :
    count (clear b i) n + 1 = count b n := by
  refine (count_update hi ?_ fun j => ?_).symm
  · simp [test_clear]
  · rw [test_clear]
    by_cases h : i = j
    · subst h
      simp [hb]
    · simp [h]

end Counting

lemma count_eq_iff (b : ℕ → BitVec w) (n : ℕ) : count b n = n ↔ ∀ i < n, test b i = true := by
  have h := List.countP_eq_length (p := test b) (l := List.range n)
  simpa [count] using h

lemma count_eq_zero {b : ℕ → BitVec w} {n : ℕ} (h : ∀ i < n, test b i = false) :
    count b n = 0 := by
  rw [count, List.countP_eq_zero]
  intro i hi
  simp [h i (List.mem_range.mp hi)]

end Veni.Lib.BitSet
