import Mathlib.Algebra.Ring.Nat
import Mathlib.Data.Int.Notation
import Mathlib.Data.List.Basic
import Mathlib.Tactic.Common

/-! Decimal and hexadecimal numerals as bytes. -/

namespace Veni.Lib.Numerals

def byte (c : Char) : UInt8 := UInt8.ofNat c.toNat

def decimal (n : ℕ) : List UInt8 := (Nat.toDigits 10 n).map byte

def signedDecimal (z : ℤ) : List UInt8 := if z < 0 then byte '-' :: decimal z.natAbs else decimal z.natAbs

def hexadecimal (width n : ℕ) : List UInt8 :=
  (List.range width).map fun i => byte (Nat.digitChar (n / 16 ^ (width - 1 - i) % 16))

def isDigit (b : UInt8) : Bool := decide (byte '0' ≤ b ∧ b ≤ byte '9')

def digitsValue (ds : List UInt8) : ℕ := ds.foldl (fun n d => 10 * n + (d.toNat - 48)) 0

def parseDigits (ds : List UInt8) : Option ℕ :=
  if ds ≠ [] ∧ ds.all isDigit = true then some (digitsValue ds) else none

def parseSigned : List UInt8 → Option ℤ
  | [] => none
  | c :: ds =>
    if c = byte '-' then (parseDigits ds).map fun n => -(n : ℤ) else (parseDigits (c :: ds)).map Int.ofNat

structure IsNumeral (n : ℕ) (ds : List UInt8) : Prop where
  ne_nil : ds ≠ []
  digits : ∀ d ∈ ds, isDigit d = true
  leading : ds.head? = some (byte '0') → ds = [byte '0']
  value : digitsValue ds = n

lemma byte_digitChar : ∀ d < 10, byte (Nat.digitChar d) = UInt8.ofNat (48 + d) := by decide

lemma byte_hexChar :
    ∀ d < 16, byte (Nat.digitChar d) = UInt8.ofNat (if d < 10 then 48 + d else 97 + (d - 10)) := by
  decide

lemma decimal_eq (n : ℕ) :
    decimal n = (if n / 10 > 0 then decimal (n / 10) else []) ++ [UInt8.ofNat (48 + n % 10)] := by
  rw [decimal, Nat.toDigits_eq_if (by decide), ← byte_digitChar (n % 10) (Nat.mod_lt n (by decide))]
  by_cases h : n < 10
  · rw [if_pos h, if_neg (by omega), Nat.mod_eq_of_lt h]
    rfl
  · rw [if_neg h, if_pos (by omega), List.map_append]
    rfl

lemma decimal_length_pos (n : ℕ) : 0 < (decimal n).length := by
  rw [decimal_eq, List.length_append, List.length_singleton]
  exact Nat.succ_pos _

lemma decimal_length_le {n k : ℕ} (h : n < 10 ^ (k + 1)) : (decimal n).length ≤ k + 1 := by
  induction k generalizing n with
  | zero =>
    rw [decimal_eq, if_neg (by omega)]
    exact Nat.le_refl 1
  | succ k ih =>
    rw [decimal_eq, List.length_append, List.length_singleton]
    split
    · have hdiv : n / 10 < 10 ^ (k + 1) := by
        rw [Nat.pow_succ] at h
        omega
      exact Nat.succ_le_succ (ih hdiv)
    · exact Nat.succ_le_succ (Nat.zero_le _)

lemma digitsValue_concat (ds : List UInt8) (d : UInt8) :
    digitsValue (ds ++ [d]) = 10 * digitsValue ds + (d.toNat - 48) := by
  simp [digitsValue]

lemma isDigit_ofNat {d : ℕ} (h : d < 10) :
    isDigit (UInt8.ofNat (48 + d)) = true ∧ (UInt8.ofNat (48 + d)).toNat - 48 = d := by
  have hall : ∀ d < 10, isDigit (UInt8.ofNat (48 + d)) = true ∧ (UInt8.ofNat (48 + d)).toNat - 48 = d := by
    decide
  exact hall d h

lemma decimal_head_zero {n : ℕ} (h : (decimal n).head? = some (byte '0')) : n = 0 := by
  induction n using Nat.strongRecOn with
  | ind n ih =>
    rw [decimal_eq] at h
    by_cases hn : n / 10 > 0
    · have hne : decimal (n / 10) ≠ [] := List.length_pos_iff.mp (decimal_length_pos _)
      rw [if_pos hn, List.head?_append_of_ne_nil _ hne] at h
      have hz := ih (n / 10) (by omega) h
      omega
    · rw [if_neg hn, List.nil_append, List.head?_cons, Option.some.injEq] at h
      have hd := (isDigit_ofNat (Nat.mod_lt n (by decide : 0 < 10))).2
      rw [h, show (byte '0').toNat - 48 = 0 from rfl] at hd
      omega

lemma decimal_isNumeral (n : ℕ) : IsNumeral n (decimal n) := by
  refine ⟨List.length_pos_iff.mp (decimal_length_pos n), ?_, fun h => ?_, ?_⟩
  · induction n using Nat.strongRecOn with
    | ind n ih =>
      intro d hd
      rw [decimal_eq, List.mem_append, List.mem_singleton] at hd
      rcases hd with hd | rfl
      · split at hd
        · exact ih (n / 10) (by omega) d hd
        · cases hd
      · exact (isDigit_ofNat (Nat.mod_lt n (by decide))).1
  · rw [decimal_head_zero h]
    rfl
  · induction n using Nat.strongRecOn with
    | ind n ih =>
      rw [decimal_eq, digitsValue_concat, (isDigit_ofNat (Nat.mod_lt n (by decide))).2]
      split
      · rw [ih (n / 10) (by omega)]
        omega
      · rw [show digitsValue [] = 0 from rfl]
        omega

section IsNumeral

variable {n : ℕ} {ds : List UInt8} (h : IsNumeral n ds)

include h

lemma IsNumeral.parseDigits_eq : parseDigits ds = some n := by
  rw [parseDigits, if_pos ⟨h.ne_nil, List.all_eq_true.mpr h.digits⟩, h.value]

lemma IsNumeral.parseSigned_eq : parseSigned ds = some (n : ℤ) := by
  have hp := h.parseDigits_eq
  cases hds : ds with
  | nil => exact absurd hds h.ne_nil
  | cons c cs =>
    have hc := h.digits c (by simp [hds])
    have hne : c ≠ byte '-' := by
      rintro rfl
      cases hc
    rw [hds] at hp
    rw [parseSigned, if_neg hne, hp]
    rfl

lemma IsNumeral.parseSigned_neg : parseSigned (byte '-' :: ds) = some (-(n : ℤ)) := by
  rw [parseSigned, if_pos rfl, h.parseDigits_eq]
  rfl

end IsNumeral

end Veni.Lib.Numerals
