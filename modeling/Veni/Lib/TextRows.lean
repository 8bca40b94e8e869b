import Mathlib.Data.List.Basic
import Mathlib.Tactic.Common

/-! Text laid out in rows of bounded width, and the window on the last rows. -/

namespace Veni.Lib.TextRows

variable {α : Type*}

structure Rows (α : Type*) where
  earlier : List (List α)
  last : List α

namespace Rows

def empty : Rows α := ⟨[], []⟩

def all (r : Rows α) : List (List α) := r.earlier ++ [r.last]

def newRow (r : Rows α) : Rows α := ⟨r.all, []⟩

def extend (r : Rows α) (c : α) : Rows α := { r with last := r.last ++ [c] }

variable [DecidableEq α]

def add (newline : α) (width : ℕ) (r : Rows α) (c : α) : Rows α :=
  if c = newline then r.newRow
  else if (r.extend c).last.length = width then (r.extend c).newRow
  else r.extend c

def layout (newline : α) (width : ℕ) (text : List α) : Rows α := text.foldl (add newline width) empty

lemma last_length_lt {newline : α} {width : ℕ} {r : Rows α} (c : α) (h : r.last.length < width) :
    (r.add newline width c).last.length < width := by
  simp only [add]
  split
  · exact Nat.zero_lt_of_lt h
  · split
    · exact Nat.zero_lt_of_lt h
    · rename_i hne
      simp only [extend, List.length_append, List.length_singleton] at hne ⊢
      omega

end Rows

def window (height : ℕ) (rows : List (List α)) : List (List α) := rows.drop (rows.length - height)

def shown (blank : α) (height : ℕ) (rows : List (List α)) (y x : ℕ) : α :=
  ((window height rows)[y]?.getD [])[x]?.getD blank

variable {blank : α} {height : ℕ} {rows : List (List α)} {y : ℕ}

lemma shown_eq (x : ℕ) :
    shown blank height rows y x = (rows[rows.length - height + y]?.getD [])[x]?.getD blank := by
  rw [shown, window, List.getElem?_drop]

lemma shown_newRow (h : rows.length < height) (x : ℕ) :
    shown blank height (rows ++ [[]]) y x = shown blank height rows y x := by
  have hk : rows.length + 1 - height = 0 := by omega
  have hk' : rows.length - height = 0 := by omega
  rw [shown_eq, shown_eq, List.length_append, List.length_singleton, hk, hk', Nat.zero_add]
  rcases Nat.lt_trichotomy y rows.length with hy | hy | hy
  · rw [List.getElem?_append_left hy]
  · rw [hy, List.getElem?_concat_length, List.getElem?_eq_none (Nat.le_refl _)]
    rfl
  · have hlen : (rows ++ [[]]).length ≤ y := by
      rw [List.length_append, List.length_singleton]
      exact hy
    rw [List.getElem?_eq_none hlen, List.getElem?_eq_none (Nat.le_of_lt hy)]

lemma shown_scroll (h : height ≤ rows.length) (hy : y + 1 < height) (x : ℕ) :
    shown blank height (rows ++ [[]]) y x = shown blank height rows (y + 1) x := by
  have hk : rows.length + 1 - height + y = rows.length - height + (y + 1) := by omega
  rw [shown_eq, shown_eq, List.length_append, List.length_singleton, hk,
    List.getElem?_append_left (by omega)]

lemma shown_scroll_last (h : height ≤ rows.length) (hy : y + 1 = height) (x : ℕ) :
    shown blank height (rows ++ [[]]) y x = blank := by
  have hk : rows.length + 1 - height + y = rows.length := by omega
  rw [shown_eq, List.length_append, List.length_singleton, hk, List.getElem?_concat_length]
  rfl

lemma shown_extend {r : Rows α} (c : α) (x : ℕ) :
    shown blank height (r.extend c).all y x =
      if y + 1 = min r.all.length height ∧ x = r.last.length then c
      else shown blank height r.all y x := by
  have hlen : (r.extend c).all.length = r.all.length := by simp [Rows.all, Rows.extend]
  have hall : r.all.length = r.earlier.length + 1 := by simp [Rows.all]
  rw [shown_eq, shown_eq, hlen, hall]
  simp only [Rows.all, Rows.extend]
  by_cases hlast : y + 1 = min (r.earlier.length + 1) height
  · have hk : r.earlier.length + 1 - height + y = r.earlier.length := by omega
    rw [hk, List.getElem?_concat_length, List.getElem?_concat_length, Option.getD_some,
      Option.getD_some]
    rcases Nat.lt_trichotomy x r.last.length with hx | hx | hx
    · rw [if_neg (by omega), List.getElem?_append_left hx]
    · rw [if_pos ⟨hlast, hx⟩, hx, List.getElem?_concat_length]
      rfl
    · have hlen : (r.last ++ [c]).length ≤ x := by
        rw [List.length_append, List.length_singleton]
        exact hx
      rw [if_neg (by omega), List.getElem?_eq_none hlen, List.getElem?_eq_none (Nat.le_of_lt hx)]
  · rw [if_neg (fun h => hlast h.1)]
    by_cases hy : r.earlier.length + 1 - height + y < r.earlier.length
    · rw [List.getElem?_append_left hy, List.getElem?_append_left hy]
    · have hout : ∀ row : List α, (r.earlier ++ [row]).length ≤ r.earlier.length + 1 - height + y := by
        intro row
        rw [List.length_append, List.length_singleton]
        omega
      rw [List.getElem?_eq_none (hout _), List.getElem?_eq_none (hout _)]

end Veni.Lib.TextRows
