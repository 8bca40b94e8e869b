import Mathlib.Tactic.Common

/-! A carriage return sent before every newline, and the text it came from. -/

namespace Veni.Lib.LineEndings

variable {α : Type*} [DecidableEq α]

def expand (cr nl : α) : List α → List α
  | [] => []
  | c :: text => if c = nl then cr :: nl :: expand cr nl text else c :: expand cr nl text

def collapse (cr nl : α) : List α → List α
  | [] => []
  | c :: text => if c = cr ∧ text.head? = some nl then collapse cr nl text else c :: collapse cr nl text

variable {cr nl : α}

lemma expand_append (text rest : List α) :
    expand cr nl (text ++ rest) = expand cr nl text ++ expand cr nl rest := by
  induction text with
  | nil => rfl
  | cons c text ih =>
    simp only [List.cons_append, expand, ih]
    split <;> rfl

lemma expand_head? (h : cr ≠ nl) (text : List α) : (expand cr nl text).head? ≠ some nl := by
  cases text with
  | nil => simp [expand]
  | cons c text =>
    simp only [expand]
    split
    · simpa using h
    · next hc => simpa using hc

lemma collapse_expand (h : cr ≠ nl) (text : List α) : collapse cr nl (expand cr nl text) = text := by
  induction text with
  | nil => rfl
  | cons c text ih =>
    have hhead := expand_head? h text
    simp only [expand]
    split
    · next hc =>
      have hnl : nl ≠ cr := h.symm
      simp [collapse, hnl, ih, hc]
    · simp [collapse, hhead, ih]

end Veni.Lib.LineEndings
