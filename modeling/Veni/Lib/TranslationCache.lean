import Mathlib.Data.Set.Insert
import Mathlib.Logic.Function.Basic
import Mathlib.Logic.Relation

/-! A processor that caches the entries of two-level translation tables: when it may load and drop them,
and which stores to the tables make them stale. -/

namespace Veni.Lib.TranslationCache

open Relation

structure Tables (I U K V : Type*) where
  index : K → I
  upper : I → Option U
  lower : U → K → Option V

structure Caches (I U K V : Type*) where
  upper : I → Option U
  lower : K → Option V

variable {I U K V σ : Type*}

def Tables.walk (t : Tables I U K V) (k : K) : Option V := (t.upper (t.index k)).bind (t.lower · k)

namespace Caches

def empty : Caches I U K V := ⟨fun _ => none, fun _ => none⟩

def Translates (t : Tables I U K V) (c : Caches I U K V) (k : K) (v : V) : Prop :=
  c.lower k = some v ∨
    ∃ u, (c.upper (t.index k) = some u ∨ t.upper (t.index k) = some u) ∧ t.lower u k = some v

def invalidate [DecidableEq K] (c : Caches I U K V) (k : K) : Caches I U K V :=
  ⟨fun _ => none, Function.update c.lower k none⟩

end Caches

structure Coherent (t : Tables I U K V) (c : Caches I U K V) (pending : Set K) : Prop where
  upper : ∀ i u, c.upper i = some u → t.upper i = some u
  lower : ∀ k, k ∉ pending → ∀ v, c.lower k = some v → t.walk k = some v

structure Keeps (t t' : Tables I U K V) (pending : Set K) : Prop where
  upper : ∀ i u, t.upper i = some u → t'.upper i = some u
  walk : ∀ k, k ∉ pending → ∀ v, t.walk k = some v → t'.walk k = some v

variable {t t' : Tables I U K V} {c d : Caches I U K V} {pending : Set K}

lemma coherent_empty : Coherent t Caches.empty pending :=
  ⟨fun _ _ h => (Option.some_ne_none _ h.symm).elim, fun _ _ _ h => (Option.some_ne_none _ h.symm).elim⟩

lemma Coherent.walk (h : Coherent t c pending) {k : K} {u : U} {v : V}
    (hu : c.upper (t.index k) = some u ∨ t.upper (t.index k) = some u) (hv : t.lower u k = some v) :
    t.walk k = some v := by
  have hupper : t.upper (t.index k) = some u := hu.elim (h.upper _ _) id
  rw [Tables.walk, hupper]
  exact hv

lemma Coherent.translates_iff (h : Coherent t c ∅) (k : K) (v : V) :
    c.Translates t k v ↔ t.walk k = some v := by
  constructor
  · rintro (hc | ⟨u, hu, hv⟩)
    · exact h.lower k (Set.notMem_empty k) v hc
    · exact h.walk hu hv
  · intro hwalk
    obtain ⟨u, hu, hv⟩ := Option.bind_eq_some_iff.mp hwalk
    exact Or.inr ⟨u, Or.inr hu, hv⟩

lemma Coherent.store (h : Coherent t c pending) (hkeeps : Keeps t t' pending) : Coherent t' c pending :=
  ⟨fun i u hu => hkeeps.upper i u (h.upper i u hu),
    fun k hk v hv => hkeeps.walk k hk v (h.lower k hk v hv)⟩

lemma update_eq_some {A B : Type*} [DecidableEq A] {f : A → Option B} {a b : A} {x : Option B} {w : B}
    (h : Function.update f a x b = some w) : (b = a ∧ x = some w) ∨ b ≠ a ∧ f b = some w := by
  by_cases hb : b = a
  · rw [hb, Function.update_self] at h
    exact Or.inl ⟨hb, h⟩
  · rw [Function.update_of_ne hb] at h
    exact Or.inr ⟨hb, h⟩

variable [DecidableEq I] [DecidableEq K]

/-- What the processor does on its own at any moment. -/
inductive Moves (t : Tables I U K V) : Caches I U K V → Caches I U K V → Prop
  | loadUpper (c : Caches I U K V) {i : I} {u : U} : t.upper i = some u →
      Moves t c { c with upper := Function.update c.upper i (some u) }
  | loadLower (c : Caches I U K V) {k : K} {u : U} {v : V} :
      c.upper (t.index k) = some u ∨ t.upper (t.index k) = some u → t.lower u k = some v →
      Moves t c { c with lower := Function.update c.lower k (some v) }
  | dropUpper (c : Caches I U K V) (i : I) :
      Moves t c { c with upper := Function.update c.upper i none }
  | dropLower (c : Caches I U K V) (k : K) :
      Moves t c { c with lower := Function.update c.lower k none }

lemma Coherent.move (h : Coherent t c pending) (hmove : Moves t c d) : Coherent t d pending := by
  cases hmove with
  | loadUpper hu =>
    refine ⟨fun j w hw => ?_, h.lower⟩
    obtain ⟨rfl, hentry⟩ | ⟨_, hold⟩ := update_eq_some hw
    · exact hu.trans hentry
    · exact h.upper j w hold
  | loadLower hu hv =>
    refine ⟨h.upper, fun l hl w hw => ?_⟩
    obtain ⟨rfl, hentry⟩ | ⟨_, hold⟩ := update_eq_some hw
    · exact (h.walk hu hv).trans hentry
    · exact h.lower l hl w hold
  | dropUpper i =>
    refine ⟨fun j w hw => ?_, h.lower⟩
    obtain ⟨_, hentry⟩ | ⟨_, hold⟩ := update_eq_some hw
    · cases hentry
    · exact h.upper j w hold
  | dropLower k =>
    refine ⟨h.upper, fun l hl w hw => ?_⟩
    obtain ⟨_, hentry⟩ | ⟨_, hold⟩ := update_eq_some hw
    · cases hentry
    · exact h.lower l hl w hold

lemma Coherent.moves (h : Coherent t c pending) (hmoves : ReflTransGen (Moves t) c d) :
    Coherent t d pending := by
  induction hmoves with
  | refl => exact h
  | tail _ hmove ih => exact ih.move hmove

omit [DecidableEq I] in
lemma Coherent.invalidate {k : K} (h : Coherent t c {k}) : Coherent t (c.invalidate k) ∅ := by
  refine ⟨fun i u hu => (Option.some_ne_none _ hu.symm).elim, fun l _ v hv => ?_⟩
  obtain ⟨_, hentry⟩ | ⟨hl, hold⟩ := update_eq_some hv
  · cases hentry
  · exact h.lower l hl v hold

/-- Stores one after the other, with moves of the processor before each and after the last one. -/
inductive Executes (view : σ → Tables I U K V) :
    List (σ → σ) → σ → Caches I U K V → σ → Caches I U K V → Prop
  | done {s : σ} {c d : Caches I U K V} : ReflTransGen (Moves (view s)) c d → Executes view [] s c s d
  | store {s t : σ} {c d e : Caches I U K V} {f : σ → σ} {fs : List (σ → σ)} :
      ReflTransGen (Moves (view s)) c d → Executes view fs (f s) d t e → Executes view (f :: fs) s c t e

section Executes

variable {view : σ → Tables I U K V} {fs gs : List (σ → σ)} {s u : σ}

lemma Executes.state (h : Executes view fs s c u d) : u = fs.foldl (fun s f => f s) s := by
  induction h with
  | done _ => rfl
  | store _ _ ih => exact ih

lemma executes_still (view : σ → Tables I U K V) (fs : List (σ → σ)) (s : σ) (c : Caches I U K V) :
    Executes view fs s c (fs.foldl (fun s f => f s) s) c := by
  induction fs generalizing s with
  | nil => exact .done .refl
  | cons f fs ih => exact .store .refl (ih (f s))

lemma Executes.coherent {Q : σ → Prop}
    (hstore : ∀ f ∈ fs, ∀ s, Q s → Q (f s) ∧ Keeps (view s) (view (f s)) pending)
    (h : Executes view fs s c u d) (hs : Q s) (hc : Coherent (view s) c pending) :
    Q u ∧ Coherent (view u) d pending := by
  induction h with
  | done hmoves => exact ⟨hs, hc.moves hmoves⟩
  | @store s t c d e f fs hmoves _ ih =>
    obtain ⟨hnext, hkeeps⟩ := hstore f List.mem_cons_self s hs
    exact ih (fun g hg => hstore g (List.mem_cons_of_mem f hg)) hnext ((hc.moves hmoves).store hkeeps)

lemma executes_stale (view : σ → Tables I U K V) (f : σ → σ) (fs : List (σ → σ)) (c : Caches I U K V)
    {k : K} {v : V} (hwalk : (view (f s)).walk k = some v) :
    ∃ d, Executes view (f :: fs) s c (fs.foldl (fun s f => f s) (f s)) d ∧ d.lower k = some v := by
  obtain ⟨u, hu, hv⟩ := Option.bind_eq_some_iff.mp hwalk
  have hload : Moves (view (f s)) c { c with lower := Function.update c.lower k (some v) } :=
    .loadLower c (Or.inr hu) hv
  cases fs with
  | nil => exact ⟨_, .store .refl (.done (.single hload)), Function.update_self k _ _⟩
  | cons g fs =>
    exact ⟨_, .store .refl (.store (.single hload) (executes_still view fs _ _)),
      Function.update_self k _ _⟩

end Executes

end Veni.Lib.TranslationCache
