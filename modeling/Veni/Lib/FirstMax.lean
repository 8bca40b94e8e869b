import Mathlib.Order.Nat
import Mathlib.Tactic.Common

/-! The scan of a list for the first element with the greatest score. -/

namespace Veni.Lib.FirstMax

variable {α : Type*} (p : α → Bool) (f : α → ℕ)

def scan : ℕ → Option ℕ → ℕ → List α → Option ℕ
  | _, best, _, [] => best
  | i, best, top, a :: l =>
    if top < f a ∧ p a = true then scan (i + 1) (some i) (f a) l else scan (i + 1) best top l

structure IsFirstMax (l : List α) (i : ℕ) (a : α) : Prop where
  at_index : l[i]? = some a
  passes : p a = true
  pos : 0 < f a
  max : ∀ (j : ℕ) (b : α), l[j]? = some b → p b = true → f b < f a ∨ (f b = f a ∧ i ≤ j)

def Best (l : List α) : Option ℕ → ℕ → Prop
  | none, top => top = 0 ∧ ∀ b ∈ l, p b = true → f b = 0
  | some i, top => ∃ a, IsFirstMax p f l i a ∧ f a = top

variable {p f}

lemma IsFirstMax.unique {l : List α} {i j : ℕ} {a b : α} (h : IsFirstMax p f l i a)
    (g : IsFirstMax p f l j b) : i = j := by
  have hb := h.max j b g.at_index g.passes
  have ha := g.max i a h.at_index h.passes
  omega

lemma getElem?_concat {l : List α} {a b : α} {j : ℕ} (h : (l ++ [a])[j]? = some b) :
    l[j]? = some b ∨ j = l.length ∧ b = a := by
  rcases Nat.lt_or_ge j l.length with hlt | hge
  · rw [List.getElem?_append_left hlt] at h
    exact .inl h
  · rw [List.getElem?_append_right hge, List.getElem?_singleton] at h
    split at h
    · next hz =>
      cases h
      exact .inr ⟨by omega, rfl⟩
    · cases h

lemma Best.le {l : List α} {best : Option ℕ} {top : ℕ} (h : Best p f l best top) {j : ℕ} {b : α}
    (hb : l[j]? = some b) (hp : p b = true) : f b ≤ top := by
  cases best with
  | none => exact (h.2 b (List.mem_of_getElem? hb) hp).le.trans (Nat.zero_le _)
  | some i =>
    obtain ⟨a, ha, rfl⟩ := h
    rcases ha.max j b hb hp with hlt | ⟨heq, _⟩
    · exact hlt.le
    · exact heq.le

lemma Best.take {l : List α} {best : Option ℕ} {top : ℕ} (h : Best p f l best top) {a : α}
    (hlt : top < f a) (hp : p a = true) : Best p f (l ++ [a]) (some l.length) (f a) := by
  refine ⟨a, ⟨by simp, hp, by omega, fun j b hb hpb => ?_⟩, rfl⟩
  rcases getElem?_concat hb with hold | ⟨rfl, rfl⟩
  · exact .inl ((h.le hold hpb).trans_lt hlt)
  · exact .inr ⟨rfl, le_rfl⟩

lemma Best.skip {l : List α} {best : Option ℕ} {top : ℕ} (h : Best p f l best top) {a : α}
    (hno : ¬ (top < f a ∧ p a = true)) : Best p f (l ++ [a]) best top := by
  have hle : p a = true → f a ≤ top := fun hp => not_lt.mp fun hlt => hno ⟨hlt, hp⟩
  cases best with
  | none =>
    obtain ⟨rfl, hall⟩ := h
    refine ⟨rfl, fun b hb hp => ?_⟩
    rcases List.mem_append.mp hb with hb | hb
    · exact hall b hb hp
    · cases List.mem_singleton.mp hb
      exact Nat.le_zero.mp (hle hp)
  | some i =>
    obtain ⟨c, hc, rfl⟩ := h
    have hi := (List.getElem?_eq_some_iff.mp hc.at_index).1
    refine ⟨c, ⟨by rw [List.getElem?_append_left hi, hc.at_index], hc.passes, hc.pos,
      fun j b hb hp => ?_⟩, rfl⟩
    rcases getElem?_concat hb with hold | ⟨rfl, rfl⟩
    · exact hc.max j b hold hp
    · have := hle hp
      omega

lemma scan_best {pre : List α} {best : Option ℕ} {top : ℕ} (h : Best p f pre best top) (l : List α) :
    ∃ top', Best p f (pre ++ l) (scan p f pre.length best top l) top' := by
  induction l generalizing pre best top with
  | nil =>
    rw [List.append_nil]
    exact ⟨top, h⟩
  | cons a l ih =>
    have hassoc : pre ++ a :: l = (pre ++ [a]) ++ l := by simp
    have hlen : pre.length + 1 = (pre ++ [a]).length := by simp
    rw [scan, hassoc, hlen]
    split
    · next hyes => exact ih (h.take hyes.1 hyes.2)
    · next hno => exact ih (h.skip hno)

lemma scan_from_start (l : List α) : ∃ top, Best p f l (scan p f 0 none 0 l) top := by
  have hstart : Best p f [] none 0 := ⟨rfl, fun _ hb => absurd hb List.not_mem_nil⟩
  exact scan_best hstart l

lemma scan_eq_some {l : List α} {i : ℕ} :
    scan p f 0 none 0 l = some i ↔ ∃ a, IsFirstMax p f l i a := by
  obtain ⟨top, h⟩ := scan_from_start (p := p) (f := f) l
  cases hs : scan p f 0 none 0 l with
  | none =>
    rw [hs] at h
    refine iff_of_false (by simp) ?_
    rintro ⟨a, ha⟩
    have hz := h.2 a (List.mem_of_getElem? ha.at_index) ha.passes
    have := ha.pos
    omega
  | some j =>
    rw [hs] at h
    obtain ⟨b, hb, _⟩ := h
    rw [Option.some.injEq]
    constructor
    · rintro rfl
      exact ⟨b, hb⟩
    · rintro ⟨a, ha⟩
      exact hb.unique ha

lemma scan_eq_none {l : List α} : scan p f 0 none 0 l = none ↔ ∀ b ∈ l, p b = true → f b = 0 := by
  obtain ⟨top, h⟩ := scan_from_start (p := p) (f := f) l
  cases hs : scan p f 0 none 0 l with
  | none =>
    rw [hs] at h
    exact iff_of_true rfl h.2
  | some i =>
    rw [hs] at h
    obtain ⟨a, ha, _⟩ := h
    refine iff_of_false (by simp) fun hall => ?_
    have hz := hall a (List.mem_of_getElem? ha.at_index) ha.passes
    have := ha.pos
    omega

end Veni.Lib.FirstMax
