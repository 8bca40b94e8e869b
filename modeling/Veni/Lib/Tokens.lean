import Mathlib.Data.List.TakeWhile
import Mathlib.Tactic.Common

/-! Maximal runs of non-delimiters in a list, their joins, and the split at the last delimiter. -/

namespace Veni.Lib.Tokens

variable {α : Type*} (p : α → Bool)

def IsWord (t : List α) : Prop :=
  t ≠ [] ∧ ∀ c ∈ t, p c = false

def extendHead (c : α) : List (List α) → List (List α)
  | [] => [[c]]
  | t :: ts => (c :: t) :: ts

/-- The maximal non-empty runs of elements that fail `p`, in order. -/
def tokens : List α → List (List α)
  | [] => []
  | c :: cs =>
    if p c then tokens cs
    else match cs with
      | [] => [[c]]
      | d :: _ => if p d then [c] :: tokens cs else extendHead c (tokens cs)

@[simp] lemma tokens_nil : tokens p [] = [] := rfl

lemma tokens_delim {c : α} (hc : p c = true) (cs : List α) : tokens p (c :: cs) = tokens p cs := by
  rw [tokens.eq_def]
  simp [hc]

lemma tokens_cons_delim {c d : α} (hc : p c = false) (hd : p d = true) (cs : List α) :
    tokens p (c :: d :: cs) = [c] :: tokens p cs := by
  rw [tokens.eq_def]
  simp [hc, hd, tokens_delim]

lemma tokens_cons_cons {c d : α} (hc : p c = false) (hd : p d = false) (cs : List α) :
    tokens p (c :: d :: cs) = extendHead c (tokens p (d :: cs)) := by
  rw [tokens.eq_def]
  simp [hc, hd]

lemma tokens_singleton {c : α} (hc : p c = false) : tokens p [c] = [[c]] := by
  rw [tokens.eq_def]
  simp [hc]

lemma tokens_dropWhile (l : List α) : tokens p (l.dropWhile p) = tokens p l := by
  induction l with
  | nil => rfl
  | cons c cs ih =>
    cases hc : p c with
    | true => rw [List.dropWhile_cons_of_pos hc, tokens_delim p hc, ih]
    | false => rw [List.dropWhile_cons_of_neg (by simp [hc])]

lemma tokens_cons {c : α} (hc : p c = false) (cs : List α) :
    tokens p (c :: cs) =
      (c :: cs.takeWhile (fun x => !p x)) :: tokens p (cs.dropWhile (fun x => !p x)) := by
  induction cs generalizing c with
  | nil => simp [tokens_singleton p hc]
  | cons d ds ih =>
    cases hd : p d with
    | true => simp [tokens_cons_delim p hc hd, hd, tokens_delim p hd]
    | false => simp [tokens_cons_cons p hc hd, ih hd, hd, extendHead]

lemma tokens_word {t : List α} (h : IsWord p t) : tokens p t = [t] := by
  obtain ⟨hne, ht⟩ := h
  cases t with
  | nil => exact absurd rfl hne
  | cons c cs =>
    have hcs : ∀ x ∈ cs, (!p x) = true := fun x hx => by simp [ht x (by simp [hx])]
    rw [tokens_cons p (ht c (by simp)), List.takeWhile_eq_self_iff.mpr hcs,
      List.dropWhile_eq_nil_iff.mpr hcs, tokens_nil]

lemma tokens_append_delim {d : α} (hd : p d = true) (l r : List α) :
    tokens p (l ++ d :: r) = tokens p l ++ tokens p r := by
  induction l with
  | nil => simp [tokens_delim p hd]
  | cons c cs ih =>
    cases hc : p c with
    | true => rw [List.cons_append, tokens_delim p hc, tokens_delim p hc, ih]
    | false =>
      cases cs with
      | nil => simp [tokens_cons_delim p hc hd, tokens_singleton p hc]
      | cons e es =>
        cases he : p e with
        | true =>
          rw [List.cons_append] at ih
          rw [List.cons_append, List.cons_append, tokens_cons_delim p hc he,
            tokens_cons_delim p hc he, ← tokens_delim p he, ih, tokens_delim p he]
          rfl
        | false =>
          rw [List.cons_append] at ih
          rw [List.cons_append, List.cons_append, tokens_cons_cons p hc he,
            tokens_cons_cons p hc he, ih, tokens_cons p he]
          rfl

lemma isWord_of_mem {l t : List α} (h : t ∈ tokens p l) : IsWord p t := by
  induction hn : l.length using Nat.strongRecOn generalizing l with
  | ind n ih =>
    cases l with
    | nil => simp at h
    | cons c cs =>
      cases hc : p c with
      | true =>
        rw [tokens_delim p hc] at h
        exact ih cs.length (by simp [← hn]) h rfl
      | false =>
        rw [tokens_cons p hc] at h
        rcases List.mem_cons.mp h with rfl | h
        · refine ⟨by simp, fun x hx => ?_⟩
          rcases List.mem_cons.mp hx with rfl | hx
          · exact hc
          · simpa using List.mem_takeWhile_imp hx
        · have hlen := (List.dropWhile_suffix (l := cs) (fun x => !p x)).length_le
          exact ih _ (by simp only [List.length_cons] at hn; omega) h rfl

lemma length_tokens_le (l : List α) : (tokens p l).length ≤ l.length := by
  induction hn : l.length using Nat.strongRecOn generalizing l with
  | ind n ih =>
    cases l with
    | nil => simp
    | cons c cs =>
      simp only [List.length_cons] at hn
      cases hc : p c with
      | true =>
        rw [tokens_delim p hc]
        exact (ih cs.length (by omega) cs rfl).trans (by omega)
      | false =>
        have hlen := (List.dropWhile_suffix (l := cs) (fun x => !p x)).length_le
        have h := ih _ (by omega) (cs.dropWhile (fun x => !p x)) rfl
        rw [tokens_cons p hc, List.length_cons]
        omega

lemma tokens_eq_nil {l : List α} : tokens p l = [] ↔ ∀ c ∈ l, p c = true := by
  induction l with
  | nil => simp
  | cons c cs ih =>
    cases hc : p c with
    | true => rw [tokens_delim p hc, ih, List.forall_mem_cons, and_iff_right hc]
    | false =>
      rw [tokens_cons p hc]
      refine iff_of_false (List.cons_ne_nil _ _) fun h => ?_
      rw [h c List.mem_cons_self] at hc
      cases hc

lemma dropLast_tokens_prefix (l r : List α) : (tokens p l).dropLast <+: tokens p (l ++ r) := by
  induction l with
  | nil => exact List.nil_prefix
  | cons c cs ih =>
    cases hc : p c with
    | true =>
      rw [List.cons_append, tokens_delim p hc, tokens_delim p hc]
      exact ih
    | false =>
      cases cs with
      | nil =>
        rw [tokens_singleton p hc]
        exact List.nil_prefix
      | cons d ds =>
        rw [List.cons_append] at ih ⊢
        cases hd : p d with
        | true =>
          rw [List.cons_append, tokens_cons_delim p hc hd, tokens_cons_delim p hc hd,
            ← tokens_delim p hd ds, ← tokens_delim p hd (ds ++ r)]
          cases hts : tokens p (d :: ds) with
          | nil => exact List.nil_prefix
          | cons w ws =>
            rw [hts] at ih
            rw [List.dropLast_cons_cons]
            exact List.cons_prefix_cons.mpr ⟨rfl, ih⟩
        | false =>
          rw [List.cons_append, tokens_cons_cons p hc hd, tokens_cons_cons p hc hd]
          rw [tokens_cons p hd, tokens_cons p hd] at ih ⊢
          simp only [extendHead]
          cases hws : tokens p (ds.dropWhile fun x => !p x) with
          | nil => exact List.nil_prefix
          | cons w ws =>
            rw [hws, List.dropLast_cons_cons] at ih
            obtain ⟨hhead, htail⟩ := List.cons_prefix_cons.mp ih
            rw [List.dropLast_cons_cons, hhead]
            exact List.cons_prefix_cons.mpr ⟨rfl, htail⟩

def startHead (k : ℕ) (c : α) : List (ℕ × List α) → List (ℕ × List α)
  | [] => [(k, [c])]
  | (_, t) :: ts => (k, c :: t) :: ts

/-- The runs of `tokens` with the positions of their first elements, counted from `k`. -/
def runs : ℕ → List α → List (ℕ × List α)
  | _, [] => []
  | k, c :: cs =>
    if p c then runs (k + 1) cs
    else match cs with
      | [] => [(k, [c])]
      | d :: _ => if p d then (k, [c]) :: runs (k + 1) cs else startHead k c (runs (k + 1) cs)

lemma runs_delim {c : α} (hc : p c = true) (k : ℕ) (cs : List α) :
    runs p k (c :: cs) = runs p (k + 1) cs := by
  rw [runs.eq_def]
  simp [hc]

lemma runs_cons {c : α} (hc : p c = false) (k : ℕ) (cs : List α) :
    runs p k (c :: cs) =
      (k, c :: cs.takeWhile (fun x => !p x)) ::
        runs p (k + 1 + (cs.takeWhile (fun x => !p x)).length) (cs.dropWhile (fun x => !p x)) := by
  induction cs generalizing c k with
  | nil => simp [runs, hc]
  | cons d ds ih =>
    rw [runs.eq_def]
    cases hd : p d with
    | true => simp [hc, hd]
    | false =>
      simp only [hc, hd, ih hd, startHead, Bool.false_eq_true, if_false, Bool.not_false,
        List.takeWhile_cons_of_pos, List.dropWhile_cons_of_pos, List.length_cons]
      congr 2
      omega

lemma runs_dropWhile (k : ℕ) (l : List α) :
    runs p (k + (l.takeWhile p).length) (l.dropWhile p) = runs p k l := by
  induction l generalizing k with
  | nil => rfl
  | cons c cs ih =>
    cases hc : p c with
    | true =>
      rw [List.dropWhile_cons_of_pos hc, List.takeWhile_cons_of_pos hc, runs_delim p hc, ← ih,
        List.length_cons, Nat.add_assoc, Nat.add_comm 1]
    | false =>
      rw [List.dropWhile_cons_of_neg (by simp [hc]), List.takeWhile_cons_of_neg (by simp [hc])]
      rfl

lemma map_snd_runs (k : ℕ) (l : List α) : (runs p k l).map Prod.snd = tokens p l := by
  induction l generalizing k with
  | nil => rfl
  | cons c cs ih =>
    cases hc : p c with
    | true => rw [runs_delim p hc, tokens_delim p hc, ih]
    | false =>
      rw [runs.eq_def, tokens.eq_def]
      cases cs with
      | nil => simp [hc]
      | cons d ds =>
        cases hd : p d with
        | true => simpa [hc, hd] using ih (k + 1)
        | false =>
          simp [hc, hd, ← ih (k + 1)]
          cases runs p (k + 1) (d :: ds) <;> simp [startHead, extendHead]

def join (d : α) (ws : List (List α)) : List α :=
  List.intercalate [d] ws

@[simp] lemma join_nil (d : α) : join d [] = [] := rfl

@[simp] lemma join_singleton (d : α) (w : List α) : join d [w] = w := by
  simp [join]

lemma join_cons (d : α) (w : List α) {ws : List (List α)} (h : ws ≠ []) :
    join d (w :: ws) = w ++ d :: join d ws := by
  cases ws with
  | nil => exact absurd rfl h
  | cons v vs => simp [join, List.intercalate]

lemma join_concat (d : α) {ws : List (List α)} (h : ws ≠ []) (w : List α) :
    join d (ws ++ [w]) = join d ws ++ d :: w := by
  induction ws with
  | nil => exact absurd rfl h
  | cons v vs ih =>
    cases vs with
    | nil => simp [join_cons]
    | cons u us =>
      rw [List.cons_append, join_cons d v (by simp), ih (by simp), join_cons d v (by simp)]
      simp

lemma join_append (d : α) {ws vs : List (List α)} (hw : ws ≠ []) (hv : vs ≠ []) :
    join d (ws ++ vs) = join d ws ++ d :: join d vs := by
  induction ws with
  | nil => exact absurd rfl hw
  | cons w ws ih =>
    cases ws with
    | nil => rw [List.singleton_append, join_cons d w hv, join_singleton]
    | cons u us =>
      rw [List.cons_append, join_cons d w (by simp), ih (by simp), join_cons d w (by simp)]
      simp

lemma length_join_le_append (d : α) (ws vs : List (List α)) :
    (join d ws).length ≤ (join d (ws ++ vs)).length := by
  rcases eq_or_ne ws [] with rfl | hw
  · simp
  · rcases eq_or_ne vs [] with rfl | hv
    · simp
    · rw [join_append d hw hv, List.length_append]
      omega

lemma length_join_concat_le (d : α) (ws : List (List α)) {w v : List α} (h : w.length ≤ v.length) :
    (join d (ws ++ [w])).length ≤ (join d (ws ++ [v])).length := by
  by_cases hw : ws = []
  · subst hw
    simpa using h
  · rw [join_concat d hw, join_concat d hw, List.length_append, List.length_append, List.length_cons,
      List.length_cons]
    omega

lemma length_join_append_lt (d : α) {ws vs : List (List α)} (hv : vs ≠ []) (hne : ∀ v ∈ vs, v ≠ [])
    (hw : ws ≠ []) : (join d ws).length + 2 ≤ (join d (ws ++ vs)).length := by
  rw [join_append d hw hv, List.length_append, List.length_cons]
  obtain ⟨v, vs, rfl⟩ := List.exists_cons_of_ne_nil hv
  have hpos := List.length_pos_iff.mpr (hne v (by simp))
  have hle := length_join_le_append d [v] vs
  rw [join_singleton, List.singleton_append] at hle
  omega

lemma length_join_tokens_le (d : α) (l : List α) : (join d (tokens p l)).length ≤ l.length := by
  induction hn : l.length using Nat.strongRecOn generalizing l with
  | ind n ih =>
    cases l with
    | nil => simp
    | cons c cs =>
      simp only [List.length_cons] at hn
      cases hc : p c with
      | true =>
        rw [tokens_delim p hc]
        exact (ih cs.length (by omega) cs rfl).trans (by omega)
      | false =>
        have hsplit := congrArg List.length (List.takeWhile_append_dropWhile (p := fun x => !p x) (l := cs))
        rw [List.length_append] at hsplit
        rw [tokens_cons p hc]
        cases hd : cs.dropWhile fun x => !p x with
        | nil =>
          rw [tokens_nil, join_singleton, List.length_cons]
          omega
        | cons e es =>
          have he := List.head_dropWhile_not (fun x => !p x) (l := cs) (by simp [hd])
          simp only [hd, List.head_cons, Bool.not_eq_false'] at he
          rw [hd, List.length_cons] at hsplit
          have hes := ih es.length (by omega) es rfl
          rw [tokens_delim p he]
          rcases eq_or_ne (tokens p es) [] with hnil | hne
          · rw [hnil, join_singleton, List.length_cons]
            omega
          · rw [join_cons d _ hne, List.length_append, List.length_cons, List.length_cons]
            omega

lemma join_eq_nil {d : α} {ws : List (List α)} (h : ∀ w ∈ ws, IsWord p w) :
    join d ws = [] ↔ ws = [] := by
  cases ws with
  | nil => simp
  | cons w ws =>
    have hw := (h w (by simp)).1
    cases ws with
    | nil => simp [hw]
    | cons v vs => simp [join_cons]

lemma tokens_join {d : α} (hd : p d = true) {ws : List (List α)} (h : ∀ w ∈ ws, IsWord p w) :
    tokens p (join d ws) = ws := by
  induction ws with
  | nil => rfl
  | cons w ws ih =>
    have hw := h w (by simp)
    cases ws with
    | nil => rw [join_singleton, tokens_word p hw]
    | cons v vs =>
      rw [join_cons d w (by simp), tokens_append_delim p hd, tokens_word p hw,
        ih fun u hu => h u (List.mem_cons_of_mem _ hu)]
      rfl

def splitLast : List α → Option (List α × List α)
  | [] => none
  | c :: cs =>
    match splitLast cs with
    | some (l, r) => some (c :: l, r)
    | none => if p c then some ([], cs) else none

lemma splitLast_eq_none {l : List α} : splitLast p l = none ↔ ∀ c ∈ l, p c = false := by
  induction l with
  | nil => simp [splitLast]
  | cons c cs ih =>
    cases hs : splitLast p cs with
    | none => simp [splitLast, hs, ← ih]
    | some lr =>
      have : ¬ ∀ x ∈ cs, p x = false := by rw [← ih, hs]; simp
      simp only [splitLast, hs, reduceCtorEq, false_iff]
      exact fun h => this fun x hx => h x (by simp [hx])

lemma splitLast_eq_some {l a b : List α} (h : splitLast p l = some (a, b)) :
    ∃ d, p d = true ∧ l = a ++ d :: b ∧ ∀ c ∈ b, p c = false := by
  induction l generalizing a with
  | nil => simp [splitLast] at h
  | cons c cs ih =>
    cases hs : splitLast p cs with
    | none =>
      simp only [splitLast, hs] at h
      split at h
      · next hc =>
        simp only [Option.some.injEq, Prod.mk.injEq] at h
        obtain ⟨rfl, rfl⟩ := h
        exact ⟨c, hc, rfl, (splitLast_eq_none p).mp hs⟩
      · simp at h
    | some lr =>
      simp only [splitLast, hs, Option.some.injEq, Prod.mk.injEq] at h
      obtain ⟨rfl, rfl⟩ := h
      obtain ⟨d, hd, he, hb⟩ := ih hs
      exact ⟨d, hd, by simp [← he], hb⟩

lemma splitLast_append {d : α} (hd : p d = true) {b : List α} (hb : ∀ c ∈ b, p c = false)
    (a : List α) : splitLast p (a ++ d :: b) = some (a, b) := by
  induction a with
  | nil => simp [splitLast, (splitLast_eq_none p).mpr hb, hd]
  | cons c cs ih => simp [splitLast, ih]

end Veni.Lib.Tokens
