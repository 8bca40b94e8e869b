import Mathlib.Data.List.GetD
import Mathlib.Logic.Function.Basic
import Mathlib.Tactic.Common

/-! Storage from `malloc`: every call hands out a buffer of its own, or fails. -/

namespace Veni.Libc

structure Buffer where
  size : ℕ
  bytes : ℕ → UInt8

/-- `outcome k` is what the `k`-th call of `malloc` finds in its buffer, or `none` when it fails. -/
structure Malloc where
  outcome : ℕ → Option (ℕ → UInt8)
  calls : ℕ
  buffers : ℕ → Option Buffer

namespace Malloc

def malloc (h : Malloc) (size : ℕ) : Option ℕ × Malloc :=
  match h.outcome h.calls with
  | none => (none, { h with calls := h.calls + 1 })
  | some bytes =>
    (some h.calls,
      { h with
        calls := h.calls + 1
        buffers := Function.update h.buffers h.calls (some ⟨size, bytes⟩) })

def free (h : Malloc) (p : ℕ) : Malloc := { h with buffers := Function.update h.buffers p none }

def load (h : Malloc) (p : Option ℕ) (offset n : ℕ) : Option (List UInt8) :=
  if n = 0 then some []
  else
    (p.bind h.buffers).bind fun b =>
      if offset + n ≤ b.size then some ((List.range n).map fun i => b.bytes (offset + i)) else none

def store (h : Malloc) (p : Option ℕ) (offset : ℕ) (bs : List UInt8) : Option Malloc :=
  if bs = [] then some h
  else
    p.bind fun q =>
      (h.buffers q).bind fun b =>
        if offset + bs.length ≤ b.size then
          some { h with
            buffers := Function.update h.buffers q
              (some ⟨b.size, fun i => if offset ≤ i then bs.getD (i - offset) (b.bytes i) else b.bytes i⟩) }
        else none

def patch (bytes : ℕ → UInt8) (offset : ℕ) (bs : List UInt8) (i : ℕ) : UInt8 :=
  if offset ≤ i then bs.getD (i - offset) (bytes i) else bytes i

lemma patch_nil (bytes : ℕ → UInt8) (offset : ℕ) : patch bytes offset [] = bytes := by
  funext i
  simp [patch]

lemma patch_of_lt (bytes : ℕ → UInt8) {offset i : ℕ} (bs : List UInt8) (h : i < offset) :
    patch bytes offset bs i = bytes i := by
  rw [patch, if_neg (by omega)]

lemma patch_of_le (bytes : ℕ → UInt8) {offset i : ℕ} {bs : List UInt8} (h : offset + bs.length ≤ i) :
    patch bytes offset bs i = bytes i := by
  rw [patch, if_pos (by omega), List.getD_eq_default _ _ (by omega)]

lemma patch_mid (bytes : ℕ → UInt8) {offset i : ℕ} {bs : List UInt8} (h : offset ≤ i)
    (hi : i - offset < bs.length) : patch bytes offset bs i = bs[i - offset] := by
  rw [patch, if_pos h, List.getD_eq_getElem _ _ hi]

lemma malloc_cases (h : Malloc) (size : ℕ) :
    (h.outcome h.calls = none ∧ h.malloc size = (none, { h with calls := h.calls + 1 })) ∨
      ∃ bytes, h.outcome h.calls = some bytes ∧ h.malloc size = (some h.calls,
        { h with
          calls := h.calls + 1
          buffers := Function.update h.buffers h.calls (some ⟨size, bytes⟩) }) := by
  unfold malloc
  cases h.outcome h.calls with
  | none => exact .inl ⟨rfl, rfl⟩
  | some bytes => exact .inr ⟨bytes, rfl, rfl⟩

lemma load_of_le {h : Malloc} {p : Option ℕ} {b : Buffer} (hb : p.bind h.buffers = some b)
    {offset n : ℕ} (hle : offset + n ≤ b.size) :
    h.load p offset n = some ((List.range n).map fun i => b.bytes (offset + i)) := by
  unfold load
  split
  · next hn => simp [hn]
  · rw [hb, Option.bind_some, if_pos hle]

lemma store_nil (h : Malloc) (p : Option ℕ) (offset : ℕ) : h.store p offset [] = some h := rfl

lemma store_of_le {h : Malloc} {q : ℕ} {b : Buffer} (hb : h.buffers q = some b) {offset : ℕ}
    {bs : List UInt8} (hle : offset + bs.length ≤ b.size) :
    h.store (some q) offset bs = some { h with
      buffers := Function.update h.buffers q (some ⟨b.size, patch b.bytes offset bs⟩) } := by
  unfold store
  split
  · next hnil =>
    have hsame : Function.update h.buffers q (some ⟨b.size, patch b.bytes offset bs⟩) = h.buffers := by
      rw [hnil, patch_nil]
      exact Function.update_eq_self_iff.mpr hb.symm
    rw [hsame]
  · rw [Option.bind_some, hb, Option.bind_some, if_pos hle]
    rfl

lemma store_eq_some {h h' : Malloc} {p : Option ℕ} {offset : ℕ} {bs : List UInt8}
    (hst : h.store p offset bs = some h') :
    bs = [] ∧ h' = h ∨ ∃ q b, p = some q ∧ h.buffers q = some b ∧ offset + bs.length ≤ b.size ∧
      h' = { h with buffers := Function.update h.buffers q (some ⟨b.size, patch b.bytes offset bs⟩) } := by
  unfold store at hst
  split at hst
  · next hnil =>
    cases hst
    exact .inl ⟨hnil, rfl⟩
  · obtain ⟨q, hp, hq⟩ := Option.bind_eq_some_iff.mp hst
    obtain ⟨b, hb, hres⟩ := Option.bind_eq_some_iff.mp hq
    split at hres
    · next hle =>
      cases hres
      exact .inr ⟨q, b, hp, hb, hle, rfl⟩
    · cases hres

end Malloc

end Veni.Libc
