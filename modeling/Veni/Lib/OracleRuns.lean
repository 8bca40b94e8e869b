import Mathlib.Tactic.Common

/-! Clients of a component that answers requests, and components that consult an oracle in order. -/

namespace Veni.Lib.OracleRuns

variable {σ τ Q A C : Type*}

/-- The first `n` requests of a client that sees the replies so far, the last one first; `none` when
the component cannot serve one of them. -/
def play (serve : σ → Q → Option (A × σ)) (client : List A → Q) : ℕ → σ → Option (List A × σ)
  | 0, s => some ([], s)
  | n + 1, s =>
    (play serve client n s).bind fun r => (serve r.2 (client r.1)).map fun a => (a.1 :: r.1, a.2)

lemma play_succ {serve : σ → Q → Option (A × σ)} {client : List A → Q} {n : ℕ} {s t : σ}
    {rs : List A} (h : play serve client n s = some (rs, t)) :
    play serve client (n + 1) s = (serve t (client rs)).map fun a => (a.1 :: rs, a.2) := by
  rw [play, h, Option.bind_some]

lemma play_invariant {serve : σ → Q → Option (A × σ)} {client : List A → Q} {I : σ → Prop}
    (hstep : ∀ s q a t, I s → serve s q = some (a, t) → I t) {n : ℕ} {s t : σ} {rs : List A}
    (hs : I s) (h : play serve client n s = some (rs, t)) : I t := by
  induction n generalizing t rs with
  | zero =>
    cases h
    exact hs
  | succ n ih =>
    obtain ⟨⟨ps, u⟩, hu, hq⟩ := Option.bind_eq_some_iff.mp h
    obtain ⟨⟨a, v⟩, hv, he⟩ := Option.map_eq_some_iff.mp hq
    cases he
    exact hstep _ _ _ _ (ih hu) hv

structure InOrder (serve : (ℕ → C) → τ → Q → Option (A × τ)) (pos : τ → ℕ) : Prop where
  later : ∀ o s q a t, serve o s q = some (a, t) → pos s ≤ pos t
  reads : ∀ o o' s q a t, serve o s q = some (a, t) →
    (∀ k, pos s ≤ k → k < pos t → o' k = o k) → serve o' s q = some (a, t)

variable {serve : (ℕ → C) → τ → Q → Option (A × τ)} {pos : τ → ℕ} {client : List A → Q}

lemma InOrder.play_reads (h : InOrder serve pos) {o o' : ℕ → C} {n : ℕ} {s t : τ} {rs : List A}
    (ht : play (serve o) client n s = some (rs, t)) (ho : ∀ k < pos t, o' k = o k) :
    play (serve o') client n s = some (rs, t) := by
  induction n generalizing t rs with
  | zero => exact ht
  | succ n ih =>
    obtain ⟨⟨ps, u⟩, hu, hq⟩ := Option.bind_eq_some_iff.mp ht
    obtain ⟨⟨a, v⟩, hv, he⟩ := Option.map_eq_some_iff.mp hq
    cases he
    have hle := h.later _ _ _ _ _ hv
    rw [play_succ (ih hu fun k hk => ho k (Nat.lt_of_lt_of_le hk hle)),
      h.reads _ o' _ _ _ _ hv fun k _ hk => ho k hk]
    rfl

theorem InOrder.simulates (h : InOrder serve pos) {concrete : σ → Q → Option (A × σ)}
    {R : σ → τ → Prop} {P : Q → Prop}
    (hstep : ∀ x s q, R x s → P q → ∀ o : ℕ → C, ∃ o', (∀ k < pos s, o' k = o k) ∧
      ∀ a t, serve o' s q = some (a, t) → ∃ y, concrete x q = some (a, y) ∧ R y t)
    (hclient : ∀ rs, P (client rs)) (o : ℕ → C) {x : σ} {s : τ} (hs : R x s) (n : ℕ) :
    ∃ o', ∀ rs t, play (serve o') client n s = some (rs, t) →
      ∃ y, play concrete client n x = some (rs, y) ∧ R y t := by
  induction n with
  | zero =>
    refine ⟨o, fun rs t ht => ?_⟩
    cases ht
    exact ⟨x, rfl, hs⟩
  | succ n ih =>
    obtain ⟨o₁, ho₁⟩ := ih
    cases hn : play (serve o₁) client n s with
    | none =>
      refine ⟨o₁, fun rs t ht => ?_⟩
      rw [play, hn, Option.bind_none] at ht
      cases ht
    | some r =>
      obtain ⟨rs, t⟩ := r
      obtain ⟨y, hy, hR⟩ := ho₁ rs t hn
      obtain ⟨o₂, hsame, hserve⟩ := hstep y t (client rs) hR (hclient rs) o₁
      refine ⟨o₂, fun rs' t' ht => ?_⟩
      rw [play_succ (h.play_reads hn hsame)] at ht
      obtain ⟨⟨a, v⟩, hv, he⟩ := Option.map_eq_some_iff.mp ht
      cases he
      obtain ⟨z, hz, hRz⟩ := hserve a v hv
      exact ⟨z, by rw [play_succ hy, hz]; rfl, hRz⟩

end Veni.Lib.OracleRuns
