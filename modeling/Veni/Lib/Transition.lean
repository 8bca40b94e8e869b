import Mathlib.Tactic.Common

/-! Finite runs of labelled transitions: invariants, guards and simulations. -/

namespace Veni.Lib.Transition

variable {σ τ Λ : Type*}

inductive Run (step : σ → Λ → σ → Prop) : σ → List Λ → σ → Prop
  | nil (s : σ) : Run step s [] s
  | cons {s t u : σ} {l : Λ} {ls : List Λ} :
      step s l t → Run step t ls u → Run step s (l :: ls) u

def Guarded (guard : σ → Λ → Prop) (step : σ → Λ → σ → Prop) (s : σ) (l : Λ) (t : σ) : Prop :=
  guard s l ∧ step s l t

variable {step : σ → Λ → σ → Prop}

lemma Run.single {s t : σ} {l : Λ} (h : step s l t) : Run step s [l] t :=
  .cons h (.nil t)

lemma Run.split {s u : σ} {ks ls : List Λ} (h : Run step s (ks ++ ls) u) :
    ∃ t, Run step s ks t ∧ Run step t ls u := by
  induction ks generalizing s with
  | nil => exact ⟨s, .nil s, h⟩
  | cons k ks ih =>
    cases h with
    | cons hs hr =>
      obtain ⟨t, hk, hl⟩ := ih hr
      exact ⟨t, .cons hs hk, hl⟩

lemma Run.unique (hstep : ∀ s l t t', step s l t → step s l t' → t = t') {s t t' : σ}
    {ls : List Λ} (h : Run step s ls t) (h' : Run step s ls t') : t = t' := by
  induction h with
  | nil =>
    cases h'
    rfl
  | cons he _ ih =>
    cases h' with
    | cons he' hr' =>
      cases hstep _ _ _ _ he he'
      exact ih hr'

lemma Run.invariant {I : σ → Prop} (hstep : ∀ s l t, I s → step s l t → I t)
    {s t : σ} {ls : List Λ} (h : Run step s ls t) (hs : I s) : I t := by
  induction h with
  | nil => exact hs
  | cons he _ ih => exact ih (hstep _ _ _ hs he)

lemma Run.simulation {M : Type*} {astep : τ → M → τ → Prop} {R : σ → τ → Prop} {f : Λ → M}
    (hstep : ∀ s l t a, R s a → step s l t → ∃ b, astep a (f l) b ∧ R t b)
    {s t : σ} {ls : List Λ} (h : Run step s ls t) {a : τ} (hs : R s a) :
    ∃ b, Run astep a (ls.map f) b ∧ R t b := by
  induction h generalizing a with
  | nil => exact ⟨a, .nil a, hs⟩
  | cons he _ ih =>
    obtain ⟨b, hb, hR⟩ := hstep _ _ _ a hs he
    obtain ⟨c, hc, hR'⟩ := ih hR
    exact ⟨c, .cons hb hc, hR'⟩

/-- A transition beside one of another system, which may depend on the state of the first. -/
def Beside (step : σ → Λ → σ → Prop) (astep : σ → τ → Λ → τ → Prop) (p : σ × τ) (l : Λ) (q : σ × τ) :
    Prop :=
  step p.1 l q.1 ∧ astep p.1 p.2 l q.2

lemma Run.beside {astep : σ → τ → Λ → τ → Prop} {R : σ → τ → Prop}
    (hstep : ∀ s l t a, R s a → step s l t → ∃ b, astep s a l b ∧ R t b)
    {s t : σ} {ls : List Λ} (h : Run step s ls t) {a : τ} (hs : R s a) :
    ∃ b, Run (Beside step astep) (s, a) ls (t, b) ∧ R t b := by
  induction h generalizing a with
  | nil => exact ⟨a, .nil _, hs⟩
  | cons he _ ih =>
    obtain ⟨b, hb, hR⟩ := hstep _ _ _ a hs he
    obtain ⟨c, hc, hR'⟩ := ih hR
    exact ⟨c, .cons ⟨he, hb⟩ hc, hR'⟩

def Steps (exec : σ → Λ → σ) (s : σ) (l : Λ) (t : σ) : Prop :=
  exec s l = t

variable (step) in
/-- `Q` holds of every transition of every run with these labels. -/
def Along (Q : σ → Λ → σ → Prop) : σ → List Λ → Prop
  | _, [] => True
  | s, l :: ls => ∀ t, step s l t → Q s l t ∧ Along Q t ls

lemma along_iff {I : σ → Prop} {H Q G : σ → Λ → σ → Prop}
    (hQ : ∀ s l t, I s → step s l t → H s l t → (Q s l t ↔ G s l t))
    (hI : ∀ s l t, I s → step s l t → H s l t → G s l t → I t) {s : σ} (hs : I s) {ls : List Λ}
    (hH : Along step H s ls) : Along step Q s ls ↔ Along step G s ls := by
  induction ls generalizing s with
  | nil => exact Iff.rfl
  | cons l ls ih =>
    constructor
    · intro hq t ht
      have hg := (hQ s l t hs ht (hH t ht).1).mp (hq t ht).1
      exact ⟨hg, (ih (hI s l t hs ht (hH t ht).1 hg) (hH t ht).2).mp (hq t ht).2⟩
    · intro hg t ht
      have hq := (hQ s l t hs ht (hH t ht).1).mpr (hg t ht).1
      exact ⟨hq, (ih (hI s l t hs ht (hH t ht).1 (hg t ht).1) (hH t ht).2).mpr (hg t ht).2⟩

lemma along_true (s : σ) (ls : List Λ) : Along step (fun _ _ _ => True) s ls := by
  induction ls generalizing s with
  | nil => trivial
  | cons l ls ih => exact fun t _ => ⟨trivial, ih t⟩

lemma along_of_forall {P : Λ → Prop} (s : σ) {ls : List Λ} (h : ∀ l ∈ ls, P l) :
    Along step (fun _ l _ => P l) s ls := by
  induction ls generalizing s with
  | nil => trivial
  | cons l ls ih => exact fun t _ => ⟨h l List.mem_cons_self, ih t fun k hk => h k (List.mem_cons_of_mem _ hk)⟩

lemma Along.left {Q : σ → Λ → σ → Prop} {s : σ} {ks ls : List Λ} (h : Along step Q s (ks ++ ls)) :
    Along step Q s ks := by
  induction ks generalizing s with
  | nil => trivial
  | cons k ks ih => exact fun t ht => ⟨(h t ht).1, ih (h t ht).2⟩

lemma Along.right {Q : σ → Λ → σ → Prop} {s t : σ} {ks ls : List Λ} (h : Along step Q s (ks ++ ls))
    (hr : Run step s ks t) : Along step Q t ls := by
  induction hr with
  | nil => exact h
  | cons he _ ih => exact ih (h _ he).2

lemma Along.run {Q : σ → Λ → σ → Prop} {s t u : σ} {ks ls : List Λ} {l : Λ}
    (h : Along step Q s (ks ++ l :: ls)) (hr : Run step s ks t) (hs : step t l u) : Q t l u := by
  induction hr with
  | nil => exact (h u hs).1
  | cons he _ ih => exact ih (h _ he).2 hs

lemma Run.invariant_along {I : σ → Prop} {Q : σ → Λ → σ → Prop}
    (hstep : ∀ s l t, I s → step s l t → Q s l t → I t)
    {s t : σ} {ls : List Λ} (h : Run step s ls t) (hq : Along step Q s ls) (hs : I s) : I t := by
  induction h with
  | nil => exact hs
  | cons he _ ih => exact ih (hq _ he).2 (hstep _ _ _ hs he (hq _ he).1)

lemma Run.of_exec {exec : σ → Λ → σ} (s : σ) (ls : List Λ) :
    Run (Steps exec) s ls (ls.foldl exec s) := by
  induction ls generalizing s with
  | nil => exact .nil s
  | cons l ls ih => exact .cons rfl (ih (exec s l))

lemma Run.append {s t u : σ} {ks ls : List Λ} (h : Run step s ks t) (h' : Run step t ls u) :
    Run step s (ks ++ ls) u := by
  induction h with
  | nil => exact h'
  | cons he _ ih => exact .cons he (ih h')

lemma Run.of_foldlM {next : σ → Λ → Option σ} {s t : σ} {ls : List Λ}
    (h : ls.foldlM next s = some t) : Run (fun s l t => next s l = some t) s ls t := by
  induction ls generalizing s with
  | nil =>
    cases h
    exact .nil _
  | cons l ls ih =>
    rw [List.foldlM_cons] at h
    obtain ⟨u, hu, ht⟩ := Option.bind_eq_some_iff.mp h
    exact .cons hu (ih ht)

end Veni.Lib.Transition
