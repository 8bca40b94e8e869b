import Mathlib.Data.List.Infix
import Mathlib.Data.List.Nodup
import Mathlib.Logic.Function.Basic
import Mathlib.Tactic.Common

/-! Graphs of named links, walks along lists of names, and how one link more or less changes them. -/

namespace Veni.Lib.NameGraph

variable {ι ν : Type*} [DecidableEq ν]

def target (l : List (ν × ι)) (n : ν) : Option ι :=
  (l.find? fun e => decide (e.1 = n)).map Prod.snd

def walk (g : ι → List (ν × ι)) : ι → List ν → Option ι
  | i, [] => some i
  | i, n :: ns => (target (g i) n).bind fun j => walk g j ns

lemma mem_of_target {l : List (ν × ι)} {n : ν} {j : ι} (h : target l n = some j) : (n, j) ∈ l := by
  obtain ⟨e, he, rfl⟩ := Option.map_eq_some_iff.mp h
  have hn : e.1 = n := by simpa using List.find?_some he
  rw [← hn]
  exact List.mem_of_find?_eq_some he

lemma target_eq_none {l : List (ν × ι)} {n : ν} : target l n = none ↔ ∀ j, (n, j) ∉ l := by
  simp only [target, Option.map_eq_none_iff, List.find?_eq_none, decide_eq_true_eq]
  constructor
  · exact fun h j hj => h _ hj rfl
  · rintro h ⟨m, j⟩ hj rfl
    exact h j hj

lemma target_append (l k : List (ν × ι)) (n : ν) :
    target (l ++ k) n = (target l n).or (target k n) := by
  simp only [target, List.find?_append]
  cases l.find? fun e => decide (e.1 = n) <;> rfl

@[simp] lemma target_nil (n : ν) : target ([] : List (ν × ι)) n = none := rfl

lemma target_singleton (m n : ν) (j : ι) :
    target [(m, j)] n = if m = n then some j else none := by
  by_cases h : m = n <;> simp [target, h]

@[simp] lemma walk_nil (g : ι → List (ν × ι)) (i : ι) : walk g i [] = some i := rfl

lemma walk_cons (g : ι → List (ν × ι)) (i : ι) (n : ν) (ns : List ν) :
    walk g i (n :: ns) = (target (g i) n).bind fun j => walk g j ns := rfl

lemma walk_append (g : ι → List (ν × ι)) (i : ι) (ns ms : List ν) :
    walk g i (ns ++ ms) = (walk g i ns).bind fun j => walk g j ms := by
  induction ns generalizing i with
  | nil => rfl
  | cons n ns ih =>
    rw [List.cons_append, walk_cons, walk_cons]
    cases target (g i) n with
    | none => rfl
    | some j => exact ih j

lemma walk_concat (g : ι → List (ν × ι)) (i : ι) (ns : List ν) (n : ν) :
    walk g i (ns ++ [n]) = (walk g i ns).bind fun j => target (g j) n := by
  rw [walk_append]
  congr 1
  funext j
  rw [walk_cons]
  cases target (g j) n <;> rfl

lemma walk_of_nil {g : ι → List (ν × ι)} {i : ι} (h : g i = []) {ns : List ν} (hne : ns ≠ []) :
    walk g i ns = none := by
  cases ns with
  | nil => exact absurd rfl hne
  | cons n ns => simp [walk_cons, h]

lemma walk_dropLast {g : ι → List (ν × ι)} {i : ι} {ns : List ν} (h : walk g i ns ≠ none) :
    walk g i ns.dropLast ≠ none := by
  rcases List.eq_nil_or_concat ns with rfl | ⟨ms, n, rfl⟩
  · exact h
  · intro hnone
    rw [List.concat_eq_append, List.dropLast_concat] at hnone
    rw [List.concat_eq_append, walk_concat, hnone] at h
    exact h rfl

lemma walk_missing {g : ι → List (ν × ι)} {i n : ι} {cs : List ν} {t : ν} (hw : walk g i cs = some n)
    (ht : target (g n) t = none) (us : List ν) : walk g i (cs ++ t :: us) = none := by
  rw [walk_append, hw, Option.bind_some, walk_cons, ht]
  rfl

lemma missing_unique {g : ι → List (ν × ι)} {i n m : ι} {cs ds us vs : List ν} {t u : ν}
    (h : cs ++ t :: us = ds ++ u :: vs) (hn : walk g i cs = some n) (ht : target (g n) t = none)
    (hm : walk g i ds = some m) (hu : target (g m) u = none) : cs = ds ∧ t = u ∧ us = vs := by
  rcases List.append_eq_append_iff.mp h with ⟨as, rfl, has⟩ | ⟨as, rfl, has⟩
  · cases as with
    | nil => simpa using has
    | cons a as =>
      obtain ⟨rfl, _⟩ := List.cons.inj has
      rw [walk_missing hn ht] at hm
      cases hm
  · cases as with
    | nil => simpa [eq_comm] using has
    | cons a as =>
      obtain ⟨rfl, _⟩ := List.cons.inj has
      rw [walk_missing hm hu] at hn
      cases hn

lemma not_missing {g : ι → List (ν × ι)} {i n m : ι} {cs ds us : List ν} {t u w : ν}
    (h : cs ++ [t] = ds ++ u :: w :: us) (hn : walk g i cs = some n) (hm : walk g i ds = some m) :
    target (g m) u ≠ none := by
  intro hu
  obtain ⟨vs, x, hvs⟩ := (List.eq_nil_or_concat (w :: us)).resolve_left (List.cons_ne_nil w us)
  rw [hvs, List.concat_eq_append, ← List.cons_append, ← List.append_assoc] at h
  rw [(List.append_inj' h rfl).1, walk_missing hm hu] at hn
  cases hn

lemma walk_invariant {g : ι → List (ν × ι)} {I : ι → Prop}
    (hg : ∀ i n j, I i → (n, j) ∈ g i → I j) {i j : ι} {ns : List ν} (hi : I i)
    (h : walk g i ns = some j) : I j := by
  induction ns generalizing i with
  | nil =>
    cases h
    exact hi
  | cons n ns ih =>
    rw [walk_cons] at h
    obtain ⟨k, hk, h⟩ := Option.bind_eq_some_iff.mp h
    exact ih (hg i n k hi (mem_of_target hk)) h

lemma length_le_of_walk {g : ι → List (ν × ι)} {height : ι → ℕ}
    (hg : ∀ i n j, (n, j) ∈ g i → height j < height i) {i j : ι} {ns : List ν}
    (h : walk g i ns = some j) : ns.length ≤ height i := by
  induction ns generalizing i with
  | nil => exact Nat.zero_le _
  | cons n ns ih =>
    rw [walk_cons] at h
    obtain ⟨k, hk, h⟩ := Option.bind_eq_some_iff.mp h
    exact Nat.lt_of_le_of_lt (ih h) (hg i n k (mem_of_target hk))

lemma name_of_walk {g : ι → List (ν × ι)} {P : ν → Prop} (hg : ∀ i n j, (n, j) ∈ g i → P n) {i j : ι}
    {ns : List ν} (h : walk g i ns = some j) : ∀ n ∈ ns, P n := by
  induction ns generalizing i with
  | nil => simp
  | cons m ms ih =>
    rw [walk_cons] at h
    obtain ⟨k, hk, h⟩ := Option.bind_eq_some_iff.mp h
    rw [List.forall_mem_cons]
    exact ⟨hg i m k (mem_of_target hk), ih h⟩

/-- Every node has at most one link to it, and the root has none. -/
structure Tree (g : ι → List (ν × ι)) (root : ι) : Prop where
  unique : ∀ i i' n n' j, (n, j) ∈ g i → (n', j) ∈ g i' → i = i' ∧ n = n'
  root : ∀ i n, (n, root) ∉ g i

lemma Tree.walk_injective {g : ι → List (ν × ι)} {root : ι} (h : Tree g root) {ns ms : List ν}
    {j : ι} (hn : walk g root ns = some j) (hm : walk g root ms = some j) : ns = ms := by
  induction ns using List.reverseRecOn generalizing ms j with
  | nil =>
    cases hn
    rcases List.eq_nil_or_concat ms with rfl | ⟨ks, k, rfl⟩
    · rfl
    · rw [List.concat_eq_append, walk_concat] at hm
      obtain ⟨i, _, hi⟩ := Option.bind_eq_some_iff.mp hm
      exact absurd (mem_of_target hi) (h.root i k)
  | append_singleton ns n ih =>
    rw [walk_concat] at hn
    obtain ⟨i, hi, hn⟩ := Option.bind_eq_some_iff.mp hn
    rcases List.eq_nil_or_concat ms with rfl | ⟨ks, k, rfl⟩
    · cases hm
      exact absurd (mem_of_target hn) (h.root i n)
    · rw [List.concat_eq_append] at hm ⊢
      rw [walk_concat] at hm
      obtain ⟨i', hi', hk⟩ := Option.bind_eq_some_iff.mp hm
      obtain ⟨rfl, rfl⟩ := h.unique i i' n k j (mem_of_target hn) (mem_of_target hk)
      rw [ih hi hi']

section Link

variable [DecidableEq ι]

def link (g : ι → List (ν × ι)) (p : ι) (n : ν) (j : ι) : ι → List (ν × ι) :=
  Function.update g p (g p ++ [(n, j)])

omit [DecidableEq ν] in
lemma link_self (g : ι → List (ν × ι)) (p : ι) (n : ν) (j : ι) :
    link g p n j p = g p ++ [(n, j)] := by
  simp [link]

omit [DecidableEq ν] in
lemma link_of_ne {g : ι → List (ν × ι)} {p i : ι} (h : i ≠ p) (n : ν) (j : ι) :
    link g p n j i = g i := by
  simp [link, h]

omit [DecidableEq ν] in
lemma mem_link {g : ι → List (ν × ι)} {p i : ι} {n m : ν} {j k : ι} :
    (m, k) ∈ link g p n j i ↔ (m, k) ∈ g i ∨ (i = p ∧ m = n ∧ k = j) := by
  by_cases h : i = p
  · subst h
    simp [link_self]
  · simp [link_of_ne h, h]

lemma target_link {g : ι → List (ν × ι)} {p : ι} {n : ν} {j : ι} (i : ι) (m : ν) :
    target (link g p n j i) m =
      (target (g i) m).or (if i = p ∧ m = n then some j else none) := by
  by_cases hi : i = p
  · subst hi
    rw [link_self, target_append, target_singleton]
    by_cases hm : m = n
    · simp [hm]
    · simp [hm, Ne.symm hm]
  · simp [link_of_ne hi, hi]

lemma walk_link_of_some {g : ι → List (ν × ι)} {p : ι} {n : ν} {j i k : ι} {ns : List ν}
    (h : walk g i ns = some k) : walk (link g p n j) i ns = some k := by
  induction ns generalizing i with
  | nil => exact h
  | cons m ms ih =>
    rw [walk_cons] at h ⊢
    obtain ⟨l, hl, h⟩ := Option.bind_eq_some_iff.mp h
    rw [target_link, hl]
    exact ih h

lemma walk_link {g : ι → List (ν × ι)} {p : ι} {n : ν} {j : ι} (hj : g j = []) (hjp : j ≠ p)
    (i : ι) (ns : List ν) :
    walk (link g p n j) i ns = (walk g i ns).or
      (if ns.getLast? = some n ∧ walk g i ns.dropLast = some p ∧ target (g p) n = none then some j
        else none) := by
  induction ns generalizing i with
  | nil => simp
  | cons m ms ih =>
    rw [walk_cons, walk_cons, target_link]
    cases hm : target (g i) m with
    | some k =>
      rw [Option.some_or, Option.bind_some, Option.bind_some, ih]
      cases ms with
      | nil =>
        have hne : ¬ (m = n ∧ i = p ∧ target (g p) n = none) := by
          rintro ⟨rfl, rfl, h⟩
          rw [hm] at h
          cases h
        simp [hne]
      | cons l ls =>
        rw [List.dropLast_cons_cons, walk_cons g i, hm, List.getLast?_cons_cons, Option.bind_some]
    | none =>
      rw [Option.none_or, Option.bind_none, Option.none_or]
      cases ms with
      | nil =>
        by_cases h : i = p ∧ m = n
        · obtain ⟨rfl, rfl⟩ := h
          simp [hm]
        · have h' : ¬ (m = n ∧ i = p ∧ target (g p) n = none) := fun hc => h ⟨hc.2.1, hc.1⟩
          simp [h, h']
      | cons l ls =>
        have hnone : walk g i (m :: l :: ls).dropLast = none := by
          rw [List.dropLast_cons_cons, walk_cons, hm]
          rfl
        rw [hnone]
        by_cases h : i = p ∧ m = n
        · have hleaf : link g p n j j = [] := by rw [link_of_ne hjp, hj]
          rw [if_pos h, Option.bind_some, walk_of_nil hleaf (by simp)]
          simp
        · simp [h]

lemma Tree.walk_link_eq {g : ι → List (ν × ι)} {root p : ι} {n : ν} {j : ι} (h : Tree g root)
    (hj : g j = []) (hjp : j ≠ p) {ps : List ν} (hp : walk g root ps = some p)
    (hn : target (g p) n = none) (ns : List ν) :
    walk (link g p n j) root ns = if ns = ps ++ [n] then some j else walk g root ns := by
  rw [walk_link hj hjp]
  by_cases he : ns = ps ++ [n]
  · subst he
    simp [walk_concat, hp, hn]
  · have hne : ¬ (ns.getLast? = some n ∧ walk g root ns.dropLast = some p ∧ target (g p) n = none) := by
      rintro ⟨hlast, hwalk, _⟩
      apply he
      rw [← h.walk_injective hwalk hp]
      exact (List.dropLast_append_getLast? n hlast).symm
    rw [if_neg hne, if_neg he]
    cases walk g root ns <;> rfl

lemma Tree.walk_link_or {g : ι → List (ν × ι)} {root p : ι} {n : ν} {j : ι} (h : Tree g root)
    (hj : g j = []) (hjp : j ≠ p) {ps : List ν} (hp : walk g root ps = some p) (ns : List ν) :
    walk (link g p n j) root ns = (walk g root ns).or (if ns = ps ++ [n] then some j else none) := by
  cases hn : target (g p) n with
  | none =>
    rw [h.walk_link_eq hj hjp hp hn]
    by_cases he : ns = ps ++ [n]
    · rw [if_pos he, if_pos he, he, walk_concat, hp, Option.bind_some, hn, Option.none_or]
    · rw [if_neg he, if_neg he, Option.or_none]
  | some k =>
    have htaken : ¬ (ns.getLast? = some n ∧ walk g root ns.dropLast = some p ∧ target (g p) n = none) := by
      rw [hn]
      simp
    rw [walk_link hj hjp, if_neg htaken]
    by_cases he : ns = ps ++ [n]
    · rw [he, walk_concat, hp, Option.bind_some, hn, Option.some_or, Option.some_or]
    · rw [if_neg he]

lemma walk_link_of_unreached {g : ι → List (ν × ι)} {root p : ι} {n : ν} {j : ι} (hj : g j = [])
    (hjp : j ≠ p) (hp : ∀ ns, walk g root ns ≠ some p) (ns : List ν) :
    walk (link g p n j) root ns = walk g root ns := by
  rw [walk_link hj hjp, if_neg fun hc => hp _ hc.2.1, Option.or_none]

omit [DecidableEq ν] in
lemma Tree.link {g : ι → List (ν × ι)} {root p : ι} {n : ν} {j : ι} (h : Tree g root)
    (hfree : ∀ i m, (m, j) ∉ g i) (hroot : j ≠ root) : Tree (link g p n j) root where
  unique i i' m m' k hi hi' := by
    rw [mem_link] at hi hi'
    rcases hi with hi | ⟨rfl, rfl, rfl⟩
    · rcases hi' with hi' | ⟨_, _, rfl⟩
      · exact h.unique i i' m m' k hi hi'
      · exact absurd hi (hfree i m)
    · rcases hi' with hi' | ⟨rfl, rfl, _⟩
      · exact absurd hi' (hfree i' m')
      · exact ⟨rfl, rfl⟩
  root i m hi := by
    rw [mem_link] at hi
    rcases hi with hi | ⟨_, _, he⟩
    · exact h.root i m hi
    · exact hroot he.symm

end Link

section Cut

variable [DecidableEq ι]

def cut (g : ι → List (ν × ι)) (p : ι) (n : ν) (j : ι) (i : ι) : List (ν × ι) :=
  if i = j then [] else if i = p then (g p).eraseP fun e => decide (e.1 = n) else g i

lemma mem_of_mem_cut {g : ι → List (ν × ι)} {p i : ι} {n m : ν} {j k : ι}
    (h : (m, k) ∈ cut g p n j i) : (m, k) ∈ g i := by
  unfold cut at h
  split at h
  · simp at h
  · split at h
    · next hi =>
      rw [hi]
      exact List.mem_of_mem_eraseP h
    · exact h

omit [DecidableEq ι] in
lemma target_eraseP_of_ne {l : List (ν × ι)} {n m : ν} (h : m ≠ n) :
    target (l.eraseP fun e => decide (e.1 = n)) m = target l m := by
  induction l with
  | nil => rfl
  | cons e l ih =>
    by_cases he : e.1 = n
    · have hm : e.1 ≠ m := fun hem => h (hem.symm.trans he)
      simp [he, target, Ne.symm h]
    · by_cases hm : e.1 = m
      · simp [target, hm, h]
      · simp only [target] at ih
        simp [he, target, hm, ih]

omit [DecidableEq ι] in
lemma target_eraseP_self {l : List (ν × ι)} {n : ν} (h : (l.map Prod.fst).Nodup) :
    target (l.eraseP fun e => decide (e.1 = n)) n = none := by
  induction l with
  | nil => rfl
  | cons e l ih =>
    rw [List.map_cons, List.nodup_cons] at h
    by_cases he : e.1 = n
    · rw [List.eraseP_cons_of_pos (by simpa using he), target_eq_none]
      intro j hj
      exact h.1 (he ▸ List.mem_map_of_mem hj)
    · rw [List.eraseP_cons_of_neg (by simpa using he)]
      have hi := ih h.2
      simp only [target] at hi ⊢
      simpa [he] using hi

lemma target_cut_of_ne {g : ι → List (ν × ι)} {p i : ι} {n m : ν} {j : ι} (hi : i ≠ j)
    (hstep : ¬ (m = n ∧ i = p)) : target (NameGraph.cut g p n j i) m = target (g i) m := by
  rw [NameGraph.cut, if_neg hi]
  by_cases hip : i = p
  · subst hip
    rw [if_pos rfl]
    exact target_eraseP_of_ne fun he => hstep ⟨he, rfl⟩
  · rw [if_neg hip]

omit [DecidableEq ι] in
lemma Tree.ne_of_target {g : ι → List (ν × ι)} {root p i : ι} {n m : ν} {j k : ι} (h : Tree g root)
    (hp : target (g p) n = some j) (hstep : ¬ (m = n ∧ i = p)) (hk : target (g i) m = some k) :
    k ≠ j := by
  rintro rfl
  obtain ⟨rfl, rfl⟩ := h.unique i p m n k (mem_of_target hk) (mem_of_target hp)
  exact hstep ⟨rfl, rfl⟩

lemma Tree.walk_cut_of_not {g : ι → List (ν × ι)} {root p : ι} {n : ν} {j : ι} (h : Tree g root)
    (hp : target (g p) n = some j) {i : ι} (hi : i ≠ j) {ns : List ν}
    (hns : ¬ ∃ as bs, ns = as ++ n :: bs ∧ walk g i as = some p) :
    walk (NameGraph.cut g p n j) i ns = walk g i ns := by
  induction ns generalizing i with
  | nil => rfl
  | cons m ms ih =>
    have hstep : ¬ (m = n ∧ i = p) := by
      rintro ⟨rfl, rfl⟩
      exact hns ⟨[], ms, rfl, rfl⟩
    rw [walk_cons, walk_cons, target_cut_of_ne hi hstep]
    cases hk : target (g i) m with
    | none => rfl
    | some k =>
      refine ih (h.ne_of_target hp hstep hk) fun ⟨as, bs, he, hw⟩ =>
        hns ⟨m :: as, bs, by rw [he]; rfl, ?_⟩
      rw [walk_cons, hk]
      exact hw

open scoped Classical in
lemma Tree.walk_cut {g : ι → List (ν × ι)} {root p : ι} {n : ν} {j : ι} (h : Tree g root)
    (hp : target (g p) n = some j) (hnames : ((g p).map Prod.fst).Nodup) {i : ι} (hi : i ≠ j)
    (ns : List ν) :
    walk (NameGraph.cut g p n j) i ns =
      if ∃ as bs, ns = as ++ n :: bs ∧ walk g i as = some p then none else walk g i ns := by
  induction ns generalizing i with
  | nil => simp
  | cons m ms ih =>
    have hexists : (∃ as bs, m :: ms = as ++ n :: bs ∧ walk g i as = some p) ↔
        (m = n ∧ i = p) ∨ ∃ k, target (g i) m = some k ∧
          ∃ as bs, ms = as ++ n :: bs ∧ walk g k as = some p := by
      constructor
      · rintro ⟨as, bs, he, hw⟩
        cases as with
        | nil =>
          cases he
          cases hw
          exact .inl ⟨rfl, rfl⟩
        | cons a as =>
          cases he
          rw [walk_cons] at hw
          obtain ⟨k, hk, hw⟩ := Option.bind_eq_some_iff.mp hw
          exact .inr ⟨k, hk, as, bs, rfl, hw⟩
      · rintro (⟨rfl, rfl⟩ | ⟨k, hk, as, bs, rfl, hw⟩)
        · exact ⟨[], ms, rfl, rfl⟩
        · exact ⟨m :: as, bs, rfl, by rw [walk_cons, hk]; exact hw⟩
    rw [walk_cons, walk_cons]
    simp only [hexists]
    by_cases hstep : m = n ∧ i = p
    · obtain ⟨rfl, rfl⟩ := hstep
      have hnone : target (NameGraph.cut g i m j i) m = none := by
        rw [NameGraph.cut, if_neg hi, if_pos rfl]
        exact target_eraseP_self hnames
      simp [hnone]
    · rw [target_cut_of_ne hi hstep]
      cases hk : target (g i) m with
      | none => simp
      | some k =>
        have hkj := h.ne_of_target hp hstep hk
        simp only [Option.bind_some, ih hkj, hstep, false_or, Option.some.injEq, exists_eq_left']

omit [DecidableEq ι] in
lemma Tree.through_iff {g : ι → List (ν × ι)} {root p : ι} {n : ν} (h : Tree g root) {ps : List ν}
    (hps : walk g root ps = some p) (ns : List ν) :
    (∃ as bs, ns = as ++ n :: bs ∧ walk g root as = some p) ↔ ps ++ [n] <+: ns := by
  constructor
  · rintro ⟨as, bs, rfl, hw⟩
    rw [h.walk_injective hps hw]
    exact ⟨bs, by simp⟩
  · rintro ⟨bs, rfl⟩
    exact ⟨ps, bs, by simp, hps⟩

omit [DecidableEq ι] in
lemma Tree.root_ne {g : ι → List (ν × ι)} {root p : ι} {n : ν} {j : ι} (h : Tree g root)
    (hp : target (g p) n = some j) : root ≠ j := by
  rintro rfl
  exact h.root p n (mem_of_target hp)

lemma Tree.walk_cut_of_not_prefix {g : ι → List (ν × ι)} {root p : ι} {n : ν} {j : ι}
    (h : Tree g root) {ps : List ν} (hps : walk g root ps = some p) (hp : target (g p) n = some j)
    {ns : List ν} (hns : ¬ ps ++ [n] <+: ns) :
    walk (NameGraph.cut g p n j) root ns = walk g root ns :=
  h.walk_cut_of_not hp (h.root_ne hp) (mt (h.through_iff hps ns).mp hns)

open scoped Classical in
lemma Tree.walk_cut_eq {g : ι → List (ν × ι)} {root p : ι} {n : ν} {j : ι} (h : Tree g root)
    {ps : List ν} (hps : walk g root ps = some p) (hp : target (g p) n = some j)
    (hnames : ((g p).map Prod.fst).Nodup) (ns : List ν) :
    walk (NameGraph.cut g p n j) root ns = if ps ++ [n] <+: ns then none else walk g root ns := by
  rw [h.walk_cut hp hnames (h.root_ne hp)]
  simp only [h.through_iff hps]

end Cut

section Reached

def Reached (g : ι → List (ν × ι)) (i j : ι) : Prop := ∃ ns, walk g i ns = some j

lemma Reached.refl (g : ι → List (ν × ι)) (i : ι) : Reached g i i := ⟨[], rfl⟩

lemma Reached.trans {g : ι → List (ν × ι)} {i j k : ι} (h : Reached g i j) (hk : Reached g j k) :
    Reached g i k := by
  obtain ⟨ns, hns⟩ := h
  obtain ⟨ms, hms⟩ := hk
  exact ⟨ns ++ ms, by rw [walk_append, hns, Option.bind_some, hms]⟩

lemma Reached.of_target {g : ι → List (ν × ι)} {i j : ι} {n : ν} (h : target (g i) n = some j) :
    Reached g i j :=
  ⟨[n], by rw [walk_cons, h]; rfl⟩

lemma reached_of_nil {g : ι → List (ν × ι)} {i j : ι} (h : g i = []) (hr : Reached g i j) : j = i := by
  obtain ⟨ns, hns⟩ := hr
  cases ns with
  | nil =>
    cases hns
    rfl
  | cons n ns =>
    rw [walk_of_nil h (List.cons_ne_nil n ns)] at hns
    cases hns

lemma target_of_mem {l : List (ν × ι)} (h : (l.map Prod.fst).Nodup) {n : ν} {j : ι}
    (hj : (n, j) ∈ l) : target l n = some j := by
  cases ht : target l n with
  | none => exact absurd hj (target_eq_none.mp ht j)
  | some k =>
    have heq := List.inj_on_of_nodup_map h (mem_of_target ht) hj rfl
    cases heq
    rfl

lemma Tree.ne_of_reached {g : ι → List (ν × ι)} {root p j k : ι} {n : ν} (h : Tree g root)
    (hp : Reached g root p) (hn : target (g p) n = some j) (hk : Reached g j k) : k ≠ p := by
  rintro rfl
  obtain ⟨ps, hps⟩ := hp
  obtain ⟨ns, hns⟩ := hk
  have hloop : walk g root (ps ++ n :: ns) = some k := by
    rw [walk_append, hps, Option.bind_some, walk_cons, hn, Option.bind_some, hns]
  have hlen := congrArg List.length (h.walk_injective hloop hps)
  simp at hlen

variable [DecidableEq ι]

omit [DecidableEq ν] in
lemma nodup_names_link {g : ι → List (ν × ι)} (h : ∀ i, ((g i).map Prod.fst).Nodup) {p : ι} {n : ν}
    {j : ι} (hn : ∀ k, (n, k) ∉ g p) (i : ι) : ((NameGraph.link g p n j i).map Prod.fst).Nodup := by
  by_cases hi : i = p
  · subst hi
    rw [link_self, List.map_append]
    apply (h i).append (List.nodup_singleton _)
    intro m hm hm'
    obtain ⟨⟨_, k⟩, hk, rfl⟩ := List.mem_map.mp hm
    cases List.mem_singleton.mp hm'
    exact hn k hk
  · rw [link_of_ne hi]
    exact h i

lemma nodup_names_cut {g : ι → List (ν × ι)} (h : ∀ i, ((g i).map Prod.fst).Nodup) (p : ι) (n : ν)
    (j i : ι) : ((NameGraph.cut g p n j i).map Prod.fst).Nodup := by
  rw [NameGraph.cut]
  split
  · exact List.nodup_nil
  · split
    · exact (List.eraseP_sublist.map Prod.fst).nodup (h p)
    · exact h i

lemma Tree.reached_link {g : ι → List (ν × ι)} {root p j : ι} {n : ν} (h : Tree g root)
    (hj : g j = []) (hjp : j ≠ p) (hp : Reached g root p) (hn : target (g p) n = none) (k : ι) :
    Reached (NameGraph.link g p n j) root k ↔ Reached g root k ∨ k = j := by
  obtain ⟨ps, hps⟩ := hp
  constructor
  · rintro ⟨ns, hns⟩
    rw [h.walk_link_eq hj hjp hps hn] at hns
    split at hns
    · cases hns
      exact .inr rfl
    · exact .inl ⟨ns, hns⟩
  · rintro (⟨ns, hns⟩ | rfl)
    · exact ⟨ns, walk_link_of_some hns⟩
    · exact ⟨ps ++ [n], by rw [h.walk_link_eq hj hjp hps hn, if_pos rfl]⟩

lemma Tree.reached_cut {g : ι → List (ν × ι)} {root p j : ι} {n : ν} (h : Tree g root)
    (hp : Reached g root p) (hn : target (g p) n = some j) (hnames : ((g p).map Prod.fst).Nodup)
    (k : ι) : Reached (NameGraph.cut g p n j) root k ↔ Reached g root k ∧ ¬ Reached g j k := by
  obtain ⟨ps, hps⟩ := hp
  have hj : walk g root (ps ++ [n]) = some j := by rw [walk_concat, hps, Option.bind_some, hn]
  constructor
  · rintro ⟨ns, hns⟩
    rw [h.walk_cut_eq hps hn hnames] at hns
    split at hns
    · cases hns
    · next hnot =>
      refine ⟨⟨ns, hns⟩, fun ⟨ms, hms⟩ => hnot ⟨ms, ?_⟩⟩
      have hk : walk g root (ps ++ [n] ++ ms) = some k := by
        rw [walk_append, hj, Option.bind_some, hms]
      exact h.walk_injective hk hns
  · rintro ⟨⟨ns, hns⟩, hnot⟩
    refine ⟨ns, ?_⟩
    rw [h.walk_cut_eq hps hn hnames, if_neg, hns]
    rintro ⟨ms, rfl⟩
    rw [walk_append, hj, Option.bind_some] at hns
    exact hnot ⟨ms, hns⟩

end Reached

end Veni.Lib.NameGraph
