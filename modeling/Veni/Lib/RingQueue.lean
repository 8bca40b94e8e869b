import Mathlib.Logic.Function.Basic
import Mathlib.Tactic.Common

/-! A circular buffer with two indices holds a queue of at most one element less than its size. -/

namespace Veni.Lib.RingQueue

variable {α : Type*} {n head tail : ℕ} {slots : ℕ → α}

def count (n head tail : ℕ) : ℕ := (head + n - tail) % n

/-- The elements from `tail` up to `head`, the oldest first. -/
def queued (n : ℕ) (slots : ℕ → α) (head tail : ℕ) : List α :=
  (List.range (count n head tail)).map fun i => slots ((tail + i) % n)

lemma mod_wrap {x : ℕ} (h : x < 2 * n) : x % n = if x < n then x else x - n := by
  split
  · next hlt => exact Nat.mod_eq_of_lt hlt
  · rw [Nat.mod_eq_sub_mod (by omega), Nat.mod_eq_of_lt (by omega)]

lemma succ_wrap {x : ℕ} (h : x < n) : (x + 1) % n = if x + 1 = n then 0 else x + 1 := by
  rw [mod_wrap (by omega)]
  split <;> split <;> omega

lemma count_eq (hh : head < n) (ht : tail < n) :
    count n head tail = if tail ≤ head then head - tail else head + n - tail := by
  rw [count, mod_wrap (by omega)]
  split <;> split <;> omega

lemma count_lt (hh : head < n) (ht : tail < n) : count n head tail < n := by
  rw [count_eq hh ht]
  split <;> omega

lemma count_eq_zero (hh : head < n) (ht : tail < n) : count n head tail = 0 ↔ head = tail := by
  rw [count_eq hh ht]
  split <;> omega

@[simp] lemma length_queued (slots : ℕ → α) : (queued n slots head tail).length = count n head tail := by
  simp [queued]

lemma queued_eq_nil (hh : head < n) (ht : tail < n) : queued n slots head tail = [] ↔ head = tail := by
  rw [← List.length_eq_zero_iff, length_queued, count_eq_zero hh ht]

lemma count_full (hh : head < n) (ht : tail < n) :
    (head + 1) % n = tail ↔ count n head tail + 1 = n := by
  rw [count_eq hh ht, succ_wrap hh]
  split <;> split <;> omega

lemma count_push (hh : head < n) (ht : tail < n) (hroom : (head + 1) % n ≠ tail) :
    count n ((head + 1) % n) tail = count n head tail + 1 := by
  have hnext := Nat.mod_lt (head + 1) (show 0 < n by omega)
  rw [count_eq hnext ht, count_eq hh ht]
  rw [succ_wrap hh] at hroom ⊢
  split_ifs at hroom ⊢ <;> omega

lemma queued_push (a : α) (hh : head < n) (ht : tail < n) (hroom : (head + 1) % n ≠ tail) :
    queued n (Function.update slots head a) ((head + 1) % n) tail =
      queued n slots head tail ++ [a] := by
  have hcount := count_lt hh ht
  have hlast : (tail + count n head tail) % n = head := by
    rw [mod_wrap (by omega)]
    rw [count_eq hh ht] at hcount ⊢
    split <;> split <;> omega
  rw [queued, count_push hh ht hroom, List.range_succ, List.map_append, List.map_singleton, hlast,
    Function.update_self]
  congr 1
  apply List.map_congr_left
  intro i hi
  have hlt := List.mem_range.mp hi
  have hne : (tail + i) % n ≠ head := by
    rw [mod_wrap (by omega)]
    rw [count_eq hh ht] at hlt
    split <;> split at hlt <;> omega
  rw [Function.update_of_ne hne]

lemma count_pop (hh : head < n) (ht : tail < n) (hne : head ≠ tail) :
    count n head tail = count n head ((tail + 1) % n) + 1 := by
  have hnext := Nat.mod_lt (tail + 1) (show 0 < n by omega)
  rw [count_eq hh ht, count_eq hh hnext, succ_wrap ht]
  split <;> split <;> split <;> omega

lemma queued_pop (hh : head < n) (ht : tail < n) (hne : head ≠ tail) :
    queued n slots head tail = slots tail :: queued n slots head ((tail + 1) % n) := by
  rw [queued, count_pop hh ht hne, List.range_succ_eq_map, List.map_cons, List.map_map,
    Nat.add_zero, Nat.mod_eq_of_lt ht]
  congr 1
  apply List.map_congr_left
  intro i _
  have hidx : tail + 1 + i = tail + (i + 1) := by omega
  rw [Function.comp_apply, Nat.mod_add_mod, hidx]

end Veni.Lib.RingQueue
