import Veni.Libc.Strings
import Mathlib.Logic.Function.Basic
import Mathlib.Tactic.Ring

/-! Strings as bytes in a memory of which only some addresses may be touched. -/

namespace Veni.Libc

open Veni.Lib.Tokens

/-- The bytes that may be read and written; touching any other address faults. -/
abbrev Bytes := ℕ → Option UInt8

namespace Bytes

def store (m : Bytes) (a : ℕ) (c : UInt8) : Option Bytes :=
  (m a).map fun _ => Function.update m a (some c)

def StringAt (m : Bytes) (a : ℕ) : CString → Prop
  | [] => m a = some 0
  | c :: cs => m a = some c.val ∧ StringAt m (a + 1) cs

instance decidableStringAt (m : Bytes) : (a : ℕ) → (s : CString) → Decidable (StringAt m a s)
  | a, [] => inferInstanceAs (Decidable (m a = some 0))
  | a, c :: cs =>
    have := decidableStringAt m (a + 1) cs
    inferInstanceAs (Decidable (m a = some c.val ∧ StringAt m (a + 1) cs))

variable {m n : Bytes} {a : ℕ}

lemma StringAt.append {l r : CString} (h : StringAt m a (l ++ r)) : StringAt m (a + l.length) r := by
  induction l generalizing a with
  | nil => exact h
  | cons c cs ih =>
    rw [List.length_cons, Nat.add_comm cs.length, ← Nat.add_assoc]
    exact ih h.2

lemma StringAt.dropWhile {s : CString} (p : CChar → Bool) (h : StringAt m a s) :
    StringAt m (a + (s.takeWhile p).length) (s.dropWhile p) := by
  apply StringAt.append
  rw [List.takeWhile_append_dropWhile]
  exact h

lemma StringAt.congr {s : CString} (h : StringAt m a s)
    (heq : ∀ b, a ≤ b → b ≤ a + s.length → n b = m b) : StringAt n a s := by
  induction s generalizing a with
  | nil => exact (heq a (Nat.le_refl a) (Nat.le_refl a)).trans h
  | cons c cs ih =>
    rw [List.length_cons] at heq
    refine ⟨(heq a (Nat.le_refl a) (by omega)).trans h.1, ih h.2 fun b hab hb => ?_⟩
    exact heq b (by omega) (by omega)

lemma StringAt.cut {l r : CString} (h : StringAt m a (l ++ r)) :
    StringAt (Function.update m (a + l.length) (some 0)) a l := by
  induction l generalizing a with
  | nil => exact Function.update_self _ _ _
  | cons c cs ih =>
    have hne : a ≠ a + (c :: cs).length := by simp
    refine ⟨(Function.update_of_ne hne _ _).trans h.1, ?_⟩
    rw [List.length_cons, Nat.add_comm cs.length, ← Nat.add_assoc]
    exact ih h.2

lemma StringAt.update {s : CString} (h : StringAt m a s) {b : ℕ} (hb : b < a) (v : Option UInt8) :
    StringAt (Function.update m b v) a s := by
  apply h.congr
  intro i hi _
  exact Function.update_of_ne (by omega) _ _

end Bytes

end Veni.Libc
