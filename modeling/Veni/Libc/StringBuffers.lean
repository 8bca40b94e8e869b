import Veni.Libc.Strtok

/-! `strlen`, `strcpy` and `memcpy` between arrays of bytes. -/

namespace Veni.Libc.Bytes

def array (n : ℕ) (contents : ℕ → UInt8) : Bytes := fun i => if i < n then some (contents i) else none

def Sized (n : ℕ) (m : Bytes) : Prop := ∀ i, m i ≠ none ↔ i < n

def put (m : Bytes) (a : ℕ) : List UInt8 → Option Bytes
  | [] => some m
  | c :: cs =>
    match store m a c with
    | none => none
    | some m => put m (a + 1) cs

def strlen (m : Bytes) (str : ℕ) : Option ℕ := (skip (fun _ => true) m addresses str).map (· - str)

/-- `while ((*d++ = *src++) != '\0')`, with at most `fuel` characters to copy. -/
def strcpy (source : Bytes) : ℕ → Bytes → ℕ → ℕ → Option Bytes
  | 0, _, _, _ => none
  | fuel + 1, dest, d, src =>
    match source src with
    | none => none
    | some c =>
      match store dest d c with
      | none => none
      | some dest => if c ≠ 0 then strcpy source fuel dest (d + 1) (src + 1) else some dest

def stringFrom (m : Bytes) : ℕ → ℕ → Option CString
  | 0, _ => none
  | fuel + 1, a =>
    match m a with
    | none => none
    | some c => if h : c ≠ 0 then (stringFrom m fuel (a + 1)).map (⟨c, h⟩ :: ·) else some []

def terminated (s : CString) : List UInt8 := s.map Subtype.val ++ [0]

lemma sized_array (n : ℕ) (contents : ℕ → UInt8) : Sized n (array n contents) := by
  intro i
  by_cases hi : i < n <;> simp [array, hi]

variable {m dest : Bytes} {n a : ℕ} {s t : CString}

lemma length_terminated (s : CString) : (terminated s).length = s.length + 1 := by
  simp [terminated]

lemma store_eq (hm : Sized n m) (ha : a < n) (c : UInt8) :
    store m a c = some (Function.update m a (some c)) := by
  obtain ⟨b, hb⟩ := Option.ne_none_iff_exists'.mp ((hm a).mpr ha)
  rw [store, hb, Option.map_some]

lemma Sized.update (hm : Sized n m) (ha : a < n) (c : UInt8) :
    Sized n (Function.update m a (some c)) := by
  intro i
  by_cases hi : i = a
  · subst hi
    simp [ha]
  · rw [Function.update_of_ne hi]
    exact hm i

lemma put_eq (hm : Sized n m) {cs : List UInt8} (hle : a + cs.length ≤ n) :
    ∃ m', put m a cs = some m' ∧ Sized n m' ∧ ∀ b, b < a → m' b = m b := by
  induction cs generalizing m a with
  | nil => exact ⟨m, rfl, hm, fun _ _ => rfl⟩
  | cons c cs ih =>
    rw [List.length_cons] at hle
    obtain ⟨m', hput, hm', hkeep⟩ := ih (hm.update (show a < n by omega) c) (show a + 1 + cs.length ≤ n by omega)
    refine ⟨m', by simp only [put, store_eq hm (show a < n by omega), hput], hm', fun b hb => ?_⟩
    rw [hkeep b (Nat.lt_succ_of_lt hb)]
    exact Function.update_of_ne (Nat.ne_of_lt hb) _ _

lemma stringAt_put (hm : Sized n m) (hle : a + (terminated t).length ≤ n) {m' : Bytes}
    (h : put m a (terminated t) = some m') : StringAt m' a t := by
  induction t generalizing m a with
  | nil =>
    simp only [terminated, List.map_nil, List.nil_append, List.length_singleton] at hle h
    simp only [put, store_eq hm (show a < n by omega), Option.some.injEq] at h
    subst h
    exact Function.update_self _ _ _
  | cons c cs ih =>
    rw [length_terminated, List.length_cons] at hle
    have hsize := hm.update (show a < n by omega) c.val
    have hrest : a + 1 + (terminated cs).length ≤ n := by
      rw [length_terminated]
      omega
    have hput : put (Function.update m a (some c.val)) (a + 1) (terminated cs) = some m' := by
      simpa only [terminated, List.map_cons, List.cons_append, put,
        store_eq hm (show a < n by omega)] using h
    obtain ⟨m'', hput'', _, hkeep⟩ := put_eq hsize hrest
    cases hput.symm.trans hput''
    refine ⟨?_, ih hsize hrest hput⟩
    rw [hkeep a (Nat.lt_succ_self a)]
    exact Function.update_self _ _ _

lemma StringAt.extend {m' : Bytes} (h : StringAt m a s) (hkeep : ∀ b, b < a + s.length → m' b = m b)
    (ht : StringAt m' (a + s.length) t) : StringAt m' a (s ++ t) := by
  induction s generalizing a with
  | nil => exact ht
  | cons c cs ih =>
    rw [List.length_cons, Nat.add_comm cs.length, ← Nat.add_assoc] at hkeep ht
    exact ⟨(hkeep a (by omega)).trans h.1, ih h.2 hkeep ht⟩

lemma put_string (hm : Sized n m) (hs : StringAt m 0 s) (hle : s.length + t.length < n) :
    ∃ m', put m s.length (terminated t) = some m' ∧ Sized n m' ∧ StringAt m' 0 (s ++ t) := by
  have hfit : s.length + (terminated t).length ≤ n := by
    rw [length_terminated]
    omega
  obtain ⟨m', hput, hm', hkeep⟩ := put_eq hm hfit
  refine ⟨m', hput, hm', hs.extend ?_ ?_⟩
  · rw [Nat.zero_add]
    exact hkeep
  · rw [Nat.zero_add]
    exact stringAt_put hm hfit hput

lemma strlen_eq (h : StringAt m a s) (hlen : s.length < addresses) : strlen m a = some s.length := by
  have hskip : skip (fun _ => true) m addresses a = some (a + (s.takeWhile fun _ => true).length) :=
    skip_eq (fun _ => rfl) h hlen
  rw [strlen, hskip, List.takeWhile_eq_self_iff.mpr fun _ _ => rfl, Option.map_some,
    Nat.add_sub_cancel_left]

lemma stringFrom_eq {fuel : ℕ} (h : StringAt m a s) (hlen : s.length < fuel) :
    stringFrom m fuel a = some s := by
  induction fuel generalizing a s with
  | zero => exact absurd hlen (Nat.not_lt_zero _)
  | succ fuel ih =>
    cases s with
    | nil =>
      have h : m a = some 0 := h
      simp [stringFrom, h]
    | cons c cs =>
      rw [List.length_cons] at hlen
      have hc : m a = some c.val := h.1
      simp only [stringFrom, hc, dif_pos c.property, ih h.2 (Nat.lt_of_succ_lt_succ hlen), Option.map_some]

lemma strcpy_eq {fuel d : ℕ} (h : StringAt m a s) (hlen : s.length < fuel) :
    strcpy m fuel dest d a = put dest d (terminated s) := by
  induction fuel generalizing a d s dest with
  | zero => exact absurd hlen (Nat.not_lt_zero _)
  | succ fuel ih =>
    cases s with
    | nil =>
      have h : m a = some 0 := h
      simp only [strcpy, h, terminated, List.map_nil, List.nil_append, put]
      cases store dest d 0 <;> rfl
    | cons c cs =>
      rw [List.length_cons] at hlen
      have hc : m a = some c.val := h.1
      simp only [strcpy, hc, terminated, List.map_cons, List.cons_append, put]
      cases store dest d c.val with
      | none => rfl
      | some dest' =>
        simp only [if_pos c.property]
        exact ih h.2 (Nat.lt_of_succ_lt_succ hlen)

end Veni.Libc.Bytes
