import Veni.Libc.PrintfRender

/-! The numerals that `%d` prints. -/

namespace Veni.Libc

open Veni.Lib.Numerals

/-- A sign exactly for a negative number, then digits without leading zeros, read back as the number. -/
structure IsSignedNumeral (z : ℤ) (chars : List UInt8) : Prop where
  canonical : ∃ ds, chars = (if z < 0 then [byte '-'] else []) ++ ds ∧ IsNumeral z.natAbs ds
  parsed : parseSigned chars = some z

lemma signedDecimal_isSignedNumeral (z : ℤ) : IsSignedNumeral z (signedDecimal z) := by
  have hnum := decimal_isNumeral z.natAbs
  by_cases hz : z < 0
  · refine ⟨⟨_, by rw [signedDecimal, if_pos hz, if_pos hz]; rfl, hnum⟩, ?_⟩
    rw [signedDecimal, if_pos hz, hnum.parseSigned_neg]
    congr 1
    omega
  · refine ⟨⟨_, by rw [signedDecimal, if_neg hz, if_neg hz]; rfl, hnum⟩, ?_⟩
    rw [signedDecimal, if_neg hz, hnum.parseSigned_eq]
    congr 1
    omega

lemma signedDecimal_length_le (num : BitVec 32) : (signedDecimal num.toInt).length ≤ 11 := by
  have hint := BitVec.toInt_eq_toNat_cond num
  have hlt := num.isLt
  have hlen : (decimal num.toInt.natAbs).length ≤ 10 := decimal_length_word (by omega)
  rw [signedDecimal]
  split
  · rw [List.length_cons]
    omega
  · omega

/-- What `%d` prints is a canonical numeral that fits in the buffer with its terminator. -/
def PrintsNumeral (num : BitVec 32) : Prop :=
  ∃ chars, converted .d (.int num) = some chars ∧ IsSignedNumeral num.toInt chars ∧
    chars.length + 1 ≤ 32 ∧ printf (cstring "%d") [.int num] = some (chars, (chars.length : ℤ))

lemma converted_decimal {num : BitVec 32} (h : num.toInt ≠ -2 ^ 31) :
    converted .d (.int num) = some (signedDecimal num.toInt) := by
  rw [converted_eq, shown, if_neg h]

/-- `%d` prints the canonical numeral of every number but `INT_MIN`. -/
theorem printf_decimal_iff (num : BitVec 32) : PrintsNumeral num ↔ num.toInt ≠ -2 ^ 31 := by
  constructor
  · rintro ⟨chars, hchars, _⟩ hmin
    rw [converted_eq, shown, if_pos hmin] at hchars
    cases hchars
  · intro hmin
    have hlen := signedDecimal_length_le num
    have hrender : render (cstring "%d") [.int num] = some (signedDecimal num.toInt) := by
      have hshown : shown .d (.int num) = some (signedDecimal num.toInt) := if_neg hmin
      change consume .d [.int num] (some []) = _
      simp only [consume, hshown, List.append_nil]
    refine ⟨_, converted_decimal hmin, signedDecimal_isSignedNumeral _, by omega, ?_⟩
    exact printf_render hrender (by rw [intMax]; omega)

/-- Negating `INT_MIN` overflows. -/
theorem min_not_printed : ¬ PrintsNumeral 0x80000000#32 := by
  rintro ⟨chars, hchars, _⟩
  cases hchars

end Veni.Libc
