import Veni.Libc.StringMemory
import Mathlib.Data.List.Forall2

/-! `strtok` on the bytes of the string it takes apart, with its static pointer. -/

namespace Veni.Libc.Bytes

open Veni.Lib.Tokens

/-- The position in `s` that `strchr` returns; it finds the terminator too. -/
def strchr : CString → UInt8 → Option ℕ
  | [], c => if c = 0 then some 0 else none
  | d :: s, c => if d.val = c then some 0 else (strchr s c).map (· + 1)

/-- `while (*next && test(*next)) next++`, with at most `fuel` addresses to visit. -/
def skip (test : UInt8 → Bool) (m : Bytes) : ℕ → ℕ → Option ℕ
  | 0, _ => none
  | fuel + 1, next =>
    match m next with
    | none => none
    | some c => if c ≠ 0 ∧ test c = true then skip test m fuel (next + 1) else some next

/-- The memory, and the static pointer `next` with 0 for `NULL`. -/
structure Strtok where
  next : ℕ
  memory : Bytes

def addresses : ℕ := 2 ^ 32

def strtok (delim : CString) (str : ℕ) (t : Strtok) : Option (ℕ × Strtok) := do
  let next := if str ≠ 0 then str else t.next
  if next = 0 then return (0, t)
  let next ← skip (fun c => (strchr delim c).isSome) t.memory addresses next
  if (← t.memory next) = 0 then return (0, { t with next := next })
  let tokenStart := next
  let next ← skip (fun c => (strchr delim c).isNone) t.memory addresses next
  if (← t.memory next) ≠ 0 then
    return (tokenStart, ⟨next + 1, ← store t.memory next 0⟩)
  return (tokenStart, { t with next := next })

def strtokCalls (delim : CString) (str : ℕ) : ℕ → Strtok → Option (List ℕ × Strtok)
  | 0, t => some ([], t)
  | n + 1, t => do
    let (p, t) ← strtok delim str t
    let (ps, t) ← strtokCalls delim 0 n t
    return (p :: ps, t)

def inSet (delim : CString) (c : CChar) : Bool := delim.contains c

lemma strchr_isSome (delim : CString) (c : CChar) :
    (strchr delim c.val).isSome = inSet delim c := by
  induction delim with
  | nil => simp [strchr, inSet, c.property]
  | cons d ds ih =>
    by_cases hd : d.val = c.val
    · have hd : d = c := Subtype.ext hd
      simp [strchr, inSet, hd]
    · have hne : c ≠ d := fun h => hd (congrArg Subtype.val h).symm
      simp [strchr, hd, ih, inSet, hne]

lemma skip_eq {test : UInt8 → Bool} {p : CChar → Bool} (hp : ∀ c : CChar, test c.val = p c)
    {m : Bytes} {a fuel : ℕ} {s : CString} (h : StringAt m a s) (hf : s.length < fuel) :
    skip test m fuel a = some (a + (s.takeWhile p).length) := by
  induction fuel generalizing a s with
  | zero => exact absurd hf (Nat.not_lt_zero _)
  | succ fuel ih =>
    cases s with
    | nil =>
      have h : m a = some 0 := h
      simp [skip, h]
    | cons c cs =>
      have hc : m a = some c.val := h.1
      cases hpc : p c with
      | false => simp [skip, hc, hp, hpc]
      | true =>
        have hih := ih h.2 (Nat.lt_of_succ_lt_succ hf)
        simp only [skip, hc, hp, hpc, c.property, ne_eq, not_false_eq_true, and_self, if_true, hih,
          List.takeWhile_cons_of_pos, List.length_cons]
        congr 1
        omega

def Cleared (delim : CString) (a : ℕ) (s : CString) (m n : Bytes) : Prop :=
  ∀ b, n b = m b ∨ ∃ i c, s[i]? = some c ∧ inSet delim c = true ∧ b = a + i ∧ n b = some 0

structure Taken (delim : CString) (a : ℕ) (s : CString) (m : Bytes) (q : ℕ) (w : CString) (j : ℕ)
    (n : Bytes) : Prop where
  word : StringAt n q w
  rest : StringAt n (a + j) (s.drop j)
  apart : q + w.length < a + j ∨ s.drop j = []
  runs_eq : runs (inSet delim) a s = (q, w) :: runs (inSet delim) (a + j) (s.drop j)
  cleared : Cleared delim a s m n

variable {delim : CString} {str a : ℕ} {s : CString} {t : Strtok}

lemma skip_delims (delim : CString) (h : StringAt t.memory a s) (hf : s.length < addresses) :
    skip (fun c => (strchr delim c).isSome) t.memory addresses a =
      some (a + (s.takeWhile (inSet delim)).length) :=
  skip_eq (strchr_isSome delim) h hf

lemma skip_token (delim : CString) (h : StringAt t.memory a s) (hf : s.length < addresses) :
    skip (fun c => (strchr delim c).isNone) t.memory addresses a =
      some (a + (s.takeWhile fun c => !inSet delim c).length) :=
  skip_eq (fun c => by rw [← strchr_isSome delim c, Option.not_isSome]) h hf

lemma strtok_nil (hstart : (if str ≠ 0 then str else t.next) = a) (ha : a ≠ 0)
    (h : StringAt t.memory a s) (hf : s.length < addresses) (hs : s.dropWhile (inSet delim) = []) :
    strtok delim str t = some (0, ⟨a + s.length, t.memory⟩) := by
  have hskip := skip_delims delim h hf
  have hend := h.dropWhile (inSet delim)
  have htake : s.takeWhile (inSet delim) = s := by
    have := List.takeWhile_append_dropWhile (p := inSet delim) (l := s)
    rwa [hs, List.append_nil] at this
  rw [htake] at hskip hend
  rw [hs] at hend
  have hend : t.memory (a + s.length) = some 0 := hend
  simp only [strtok, hstart]
  simp [ha, hskip, hend]

section Taken

variable {m : Bytes} {d w : CString}

lemma taken_last (hs : s = d ++ w) (h : StringAt m a s)
    (hruns : runs (inSet delim) a s = [(a + d.length, w)]) :
    Taken delim a s m (a + d.length) w (d.length + w.length) m := by
  subst hs
  have hdrop : (d ++ w).drop (d.length + w.length) = [] := by simp
  have hword := h.append
  have hend : StringAt m (a + d.length + w.length) [] := by
    apply StringAt.append
    rwa [List.append_nil]
  refine ⟨hword, ?_, Or.inr hdrop, ?_, fun b => Or.inl rfl⟩
  · rw [hdrop, ← Nat.add_assoc]
    exact hend
  · rw [hruns, hdrop]
    rfl

lemma taken_delim {e : CChar} {es : CString} (hs : s = d ++ (w ++ e :: es)) (h : StringAt m a s)
    (he : inSet delim e = true)
    (hruns : runs (inSet delim) a s =
      (a + d.length, w) :: runs (inSet delim) (a + d.length + w.length) (e :: es)) :
    Taken delim a s m (a + d.length) w (d.length + w.length + 1)
      (Function.update m (a + d.length + w.length) (some 0)) := by
  have hdrop : s.drop (d.length + w.length + 1) = es := by
    rw [hs, ← List.append_assoc, ← List.length_append, ← List.drop_drop, List.drop_left]
    rfl
  rw [hs] at h
  have hword := h.append
  have hrest := hword.append
  refine ⟨hword.cut, ?_, Or.inl (by omega), ?_, fun b => ?_⟩
  · rw [hdrop, ← Nat.add_assoc, ← Nat.add_assoc]
    exact hrest.2.update (Nat.lt_succ_self _) _
  · rw [hruns, hdrop, runs_delim (inSet delim) he, ← Nat.add_assoc, ← Nat.add_assoc]
  · by_cases hb : b = a + d.length + w.length
    · subst hb
      refine Or.inr ⟨d.length + w.length, e, ?_, he, Nat.add_assoc _ _ _, Function.update_self _ _ _⟩
      rw [hs, ← List.append_assoc, ← List.length_append, List.getElem?_append_right (Nat.le_refl _)]
      simp
    · exact Or.inl (Function.update_of_ne hb _ _)

end Taken

lemma strtok_cons (hstart : (if str ≠ 0 then str else t.next) = a) (ha : a ≠ 0)
    (h : StringAt t.memory a s) (hf : s.length < addresses) {c : CChar} {cs : CString}
    (hs : s.dropWhile (inSet delim) = c :: cs) :
    ∃ j n, strtok delim str t =
        some (a + (s.takeWhile (inSet delim)).length, ⟨a + j, n⟩) ∧
      s.drop j = (cs.dropWhile fun x => !inSet delim x).drop 1 ∧
      Taken delim a s t.memory (a + (s.takeWhile (inSet delim)).length)
        (c :: cs.takeWhile fun x => !inSet delim x) j n := by
  have hc : inSet delim c = false := head_of_dropWhile hs
  have hskip := skip_delims delim h hf
  have hword := h.dropWhile (inSet delim)
  have hsplit := List.takeWhile_append_dropWhile (p := inSet delim) (l := s)
  rw [hs] at hword hsplit
  have hfw : (c :: cs).length < addresses := by
    rw [← hsplit, List.length_append] at hf
    omega
  have hskipw := skip_token delim hword hfw
  have hruns := runs_cons (inSet delim) hc (a + (s.takeWhile (inSet delim)).length) cs
  rw [← hs, runs_dropWhile] at hruns
  generalize s.takeWhile (inSet delim) = d at *
  have hcs := List.takeWhile_append_dropWhile (p := fun x => !inSet delim x) (l := cs)
  rw [List.takeWhile_cons_of_pos (by simp [hc])] at hskipw
  have hhead : t.memory (a + d.length) = some c.val := hword.1
  rw [← hcs, ← List.cons_append] at hword
  have hrest := hword.append
  have hlen : a + d.length + 1 + (cs.takeWhile fun x => !inSet delim x).length =
      a + d.length + (c :: cs.takeWhile fun x => !inSet delim x).length := by
    rw [List.length_cons]
    omega
  rw [hlen] at hruns
  generalize hw : (c :: cs.takeWhile fun x => !inSet delim x) = w at *
  have hsw : s = d ++ (w ++ cs.dropWhile fun x => !inSet delim x) := by
    rw [← hsplit, ← hw, List.cons_append, hcs]
  cases hr : cs.dropWhile fun x => !inSet delim x with
  | nil =>
    rw [hr] at hrest hsw hruns
    have hend : t.memory (a + d.length + w.length) = some 0 := hrest
    rw [List.append_nil] at hsw
    refine ⟨d.length + w.length, t.memory, ?_, by simp [hsw], taken_last hsw h hruns⟩
    rw [← Nat.add_assoc]
    simp only [strtok, hstart]
    simp [ha, hskip, hskipw, hhead, hend, c.property]
  | cons e es =>
    rw [hr] at hrest hsw hruns
    have he : inSet delim e = true := by simpa using head_of_dropWhile hr
    have hend : t.memory (a + d.length + w.length) = some e.val := hrest.1
    refine ⟨d.length + w.length + 1, _, ?_, ?_, taken_delim hsw h he hruns⟩
    · rw [← Nat.add_assoc, ← Nat.add_assoc]
      simp only [strtok, hstart]
      simp [ha, hskip, hskipw, hhead, hend, c.property, e.property, store]
    · rw [hsw, ← List.append_assoc, ← List.length_append, ← List.drop_drop, List.drop_left]

lemma Cleared.trans {m n o : Bytes} {j : ℕ} (h : Cleared delim a s m n)
    (h' : Cleared delim (a + j) (s.drop j) n o) : Cleared delim a s m o := by
  intro b
  rcases h' b with hb | ⟨i, c, hi, hc, rfl, hb⟩
  · rw [hb]
    exact h b
  · rw [List.getElem?_drop] at hi
    exact Or.inr ⟨j + i, c, hi, hc, Nat.add_assoc a j i, hb⟩

lemma Taken.word_later {m n o : Bytes} {q j : ℕ} {w : CString} (h : Taken delim a s m q w j n)
    (ho : Cleared delim (a + j) (s.drop j) n o) : StringAt o q w := by
  apply h.word.congr
  intro b _ hb
  rcases ho b with heq | ⟨i, c, hi, _, rfl, _⟩
  · exact heq
  · rcases h.apart with hlt | hnil
    · omega
    · rw [hnil] at hi
      cases hi

lemma strtokCalls_succ {n q : ℕ} {qs : List ℕ} {u v : Strtok}
    (h : strtok delim str t = some (q, u)) (hn : strtokCalls delim 0 n u = some (qs, v)) :
    strtokCalls delim str (n + 1) t = some (q :: qs, v) := by
  simp [strtokCalls, h, hn]

lemma strtokCalls_eq (n : ℕ) (hstart : (if str ≠ 0 then str else t.next) = a) (ha : a ≠ 0)
    (h : StringAt t.memory a s) (hf : s.length < addresses) :
    ∃ u, strtokCalls delim str n t =
        some (((runs (inSet delim) a s).map Prod.fst).take n ++
          List.replicate (n - (runs (inSet delim) a s).length) 0, u) ∧
      (∀ r ∈ (runs (inSet delim) a s).take n, StringAt u.memory r.1 r.2) ∧
      Cleared delim a s t.memory u.memory := by
  induction n generalizing str a s t with
  | zero => exact ⟨t, by simp [strtokCalls], by simp, fun b => Or.inl rfl⟩
  | succ n ih =>
    cases hs : s.dropWhile (inSet delim) with
    | nil =>
      have hruns : runs (inSet delim) a s = [] := by
        rw [← runs_dropWhile, hs]
        rfl
      have hend : StringAt t.memory (a + s.length) [] := by
        apply StringAt.append
        rwa [List.append_nil]
      obtain ⟨u, hu, _, hclear⟩ := @ih 0 (a + s.length) [] ⟨a + s.length, t.memory⟩ rfl (by omega)
        hend (by decide)
      refine ⟨u, ?_, by simp [hruns], fun b => ?_⟩
      · rw [strtokCalls_succ (strtok_nil hstart ha h hf hs) hu]
        simp [hruns, runs, List.replicate_succ]
      · rcases hclear b with hb | ⟨i, c, hi, _⟩
        · exact Or.inl hb
        · cases hi
    | cons c cs =>
      obtain ⟨j, m, hcall, _, htaken⟩ := strtok_cons hstart ha h hf hs
      have hlen : (s.drop j).length < addresses := by
        rw [List.length_drop]
        omega
      obtain ⟨u, hu, hwords, hclear⟩ := @ih 0 (a + j) (s.drop j) ⟨a + j, m⟩ rfl (by omega)
        htaken.rest hlen
      refine ⟨u, ?_, ?_, htaken.cleared.trans hclear⟩
      · rw [strtokCalls_succ hcall hu, htaken.runs_eq]
        simp
      · rw [htaken.runs_eq]
        intro r hr
        rcases List.mem_cons.mp hr with rfl | hr
        · exact htaken.word_later hclear
        · exact hwords r hr

/-- However many calls are made on a string, they return its maximal runs of characters outside
`delim` in order and then `NULL`. Each run is left terminated in place, and only delimiters of the
string have been overwritten. The memory need hold nothing but the string and its terminator. -/
theorem strtok_returns_runs (delim : CString) (t : Strtok) (p : ℕ) (s : CString) (n : ℕ)
    (hp : p ≠ 0) (hs : StringAt t.memory p s) (hlen : p + s.length < 2 ^ 32) :
    ∃ u, strtokCalls delim p n t =
        some (((runs (inSet delim) p s).map Prod.fst).take n ++
          List.replicate (n - (runs (inSet delim) p s).length) 0, u) ∧
      (∀ r ∈ (runs (inSet delim) p s).take n, StringAt u.memory r.1 r.2) ∧
      ∀ b, u.memory b = t.memory b ∨
        ∃ i c, s[i]? = some c ∧ inSet delim c = true ∧ b = p + i ∧ u.memory b = some 0 :=
  strtokCalls_eq n (if_pos hp) hp hs (Nat.lt_of_le_of_lt (Nat.le_add_left _ p) hlen)

def bytesOfPath : Bytes := fun b => ([97, 47, 98, 0] : List UInt8)[b - 8]?

theorem strtok_returns_runs_path :
    ∃ u, strtokCalls [slash] 8 3 ⟨0, bytesOfPath⟩ = some ([8, 10, 0], u) := by
  obtain ⟨u, hu, _⟩ := strtok_returns_runs [slash] ⟨0, bytesOfPath⟩ 8 (cstring "a/b") 3 (by decide)
    (by decide) (by decide)
  exact ⟨u, hu⟩

lemma inSet_slash : inSet [slash] = isSlash := by
  funext c
  simp [inSet, isSlash]

theorem strtokCalls_tokens (hp : a ≠ 0) (h : StringAt t.memory a s) (hf : s.length < addresses) :
    ∃ qs u, strtokCalls [slash] a (tokens isSlash s).length t = some (qs, u) ∧
      List.Forall₂ (StringAt u.memory) qs (tokens isSlash s) := by
  obtain ⟨u, hu, hwords, _⟩ :=
    @strtokCalls_eq [slash] a a s t (tokens isSlash s).length (if_pos hp) hp h hf
  rw [inSet_slash] at hu hwords
  have hcount : (runs isSlash a s).length = (tokens isSlash s).length := by
    rw [← map_snd_runs isSlash a s, List.length_map]
  rw [← hcount, Nat.sub_self, List.replicate_zero, List.append_nil, List.take_of_length_le (by simp)] at hu
  rw [← hcount, List.take_length] at hwords
  refine ⟨_, u, by rw [← hcount]; exact hu, ?_⟩
  rw [← map_snd_runs isSlash a s, List.forall₂_map_left_iff, List.forall₂_map_right_iff, List.forall₂_same]
  exact hwords

theorem strtok_tokenStep (hstart : (if str ≠ 0 then str else t.next) = a) (ha : a ≠ 0)
    (h : StringAt t.memory a s) (hf : s.length < addresses) :
    ∃ q u, strtok [slash] str t = some (q, u) ∧ u.next ≠ 0 ∧
      StringAt u.memory u.next (tokenStep s).2 ∧
      (∀ w, (tokenStep s).1 = some w → q ≠ 0 ∧ StringAt u.memory q w) ∧
      ((tokenStep s).1 = none → q = 0) := by
  have hset := inSet_slash
  cases hs : s.dropWhile isSlash with
  | nil =>
    have hend : StringAt t.memory (a + s.length) [] := by
      apply StringAt.append
      rwa [List.append_nil]
    refine ⟨0, _, strtok_nil hstart ha h hf (by rwa [hset]), ?_, ?_, ?_, fun _ => rfl⟩
    · show a + s.length ≠ 0
      omega
    · simpa [tokenStep, hs] using hend
    · simp [tokenStep, hs]
  | cons c cs =>
    obtain ⟨j, m, hcall, hdrop, htaken⟩ := strtok_cons hstart ha h hf (by rwa [hset])
    have hrest := htaken.rest
    have hword := htaken.word
    rw [hset] at hdrop hword hcall
    refine ⟨_, _, hcall, ?_, ?_, ?_, ?_⟩
    · show a + j ≠ 0
      omega
    · simpa [tokenStep, hs, hdrop] using hrest
    · intro w hw
      simp only [tokenStep, hs, Option.some.injEq] at hw
      subst hw
      exact ⟨by omega, hword⟩
    · simp [tokenStep, hs]

end Veni.Libc.Bytes
