import Veni.Libc.StringOrder

/-! `strncpy`, `memset`, `memcpy` and `strrchr` on bytes. -/

namespace Veni.Libc.Bytes

open Veni.Lib.Tokens

def memset (m : Bytes) (bufptr : ℕ) (value : UInt8) : ℕ → Option Bytes
  | 0 => some m
  | size + 1 => do memset (← store m bufptr value) (bufptr + 1) value size

def memcpy (m : Bytes) (dst src : ℕ) : ℕ → Option Bytes
  | 0 => some m
  | size + 1 => do
    let c ← m src
    memcpy (← store m dst c) (dst + 1) (src + 1) size

/-- From its terminator on the string is not read any more; the rest is set to zero. -/
def strncpy (m : Bytes) (dest src : ℕ) : ℕ → Option Bytes
  | 0 => some m
  | n + 1 => do
    let c ← m src
    if c ≠ 0 then strncpy (← store m dest c) (dest + 1) (src + 1) n
    else memset m dest 0 (n + 1)

/-- `while (*s)`, with at most `fuel` characters to visit; `last` is 0 for `NULL`. -/
def strrchr (m : Bytes) (c : UInt8) : ℕ → ℕ → ℕ → Option ℕ
  | 0, _, _ => none
  | fuel + 1, s, last => do
    let d ← m s
    if d ≠ 0 then strrchr m c fuel (s + 1) (if d = c then s else last) else return last

def Writable (m : Bytes) (a n : ℕ) : Prop := ∀ i < n, m (a + i) ≠ none

structure Frame (a n : ℕ) (m m' : Bytes) : Prop where
  same : ∀ b, b < a ∨ a + n ≤ b → m' b = m b
  defined : ∀ b, m b ≠ none → m' b ≠ none

def Apart (a n b k : ℕ) : Prop := a + n ≤ b ∨ b + k ≤ a

variable {m m' : Bytes} {a b n : ℕ} {s t : CString}

lemma Writable.store (h : Writable m a (n + 1)) (c : UInt8) :
    store m a c = some (Function.update m a (some c)) ∧
      Writable (Function.update m a (some c)) (a + 1) n := by
  obtain ⟨x, hx⟩ := Option.ne_none_iff_exists'.mp (h 0 (Nat.succ_pos n))
  refine ⟨by rw [Bytes.store, ← Nat.add_zero a, hx, Option.map_some], fun i hi => ?_⟩
  rw [Function.update_of_ne (by omega), Nat.add_assoc]
  exact h (1 + i) (by omega)

lemma Frame.refl (a n : ℕ) (m : Bytes) : Frame a n m m := ⟨fun _ _ => rfl, fun _ => id⟩

lemma Frame.trans {m'' : Bytes} (h : Frame a n m m') (h' : Frame a n m' m'') : Frame a n m m'' :=
  ⟨fun x hx => (h'.same x hx).trans (h.same x hx), fun x hx => h'.defined x (h.defined x hx)⟩

lemma frame_update {x : ℕ} (hax : a ≤ x) (hxn : x < a + n) (v : UInt8) :
    Frame a n m (Function.update m x (some v)) := by
  refine ⟨fun y hy => Function.update_of_ne (by omega) _ _, fun y hy => ?_⟩
  by_cases he : y = x
  · rw [he, Function.update_self]
    exact Option.some_ne_none v
  · rw [Function.update_of_ne he]
    exact hy

lemma Frame.mono {c k : ℕ} (h : Frame c k m m') (hac : a ≤ c) (hck : c + k ≤ a + n) : Frame a n m m' :=
  ⟨fun x hx => h.same x (by omega), h.defined⟩

lemma Frame.step {v : UInt8} (h : Frame (a + 1) n (Function.update m a (some v)) m') :
    Frame a (n + 1) m m' :=
  (frame_update (Nat.le_refl a) (by omega) v).trans (h.mono (Nat.le_succ a) (by omega))

lemma Frame.first {x : UInt8} (h : Frame (a + 1) n (Function.update m a (some x)) m') :
    m' a = some x := by
  rw [h.same a (Or.inl (Nat.lt_succ_self a)), Function.update_self]

lemma Frame.writable {c k : ℕ} (h : Frame a n m m') (hw : Writable m c k) : Writable m' c k :=
  fun i hi => h.defined _ (hw i hi)

lemma Frame.stringAt (h : Frame a n m m') (hs : StringAt m b s) (hapart : Apart a n b (s.length + 1)) :
    StringAt m' b s := by
  apply hs.congr
  intro x hx hxs
  apply h.same
  rw [Apart] at hapart
  omega

lemma memset_spec (value : UInt8) (h : Writable m a n) :
    ∃ m', memset m a value n = some m' ∧ (∀ i < n, m' (a + i) = some value) ∧ Frame a n m m' := by
  induction n generalizing m a with
  | zero => exact ⟨m, rfl, fun i hi => absurd hi (Nat.not_lt_zero i), Frame.refl _ _ _⟩
  | succ n ih =>
    obtain ⟨hstore, hrest⟩ := h.store value
    obtain ⟨m', hset, hbytes, hframe⟩ := ih hrest
    refine ⟨m', by simp [memset, hstore, hset], fun i hi => ?_, hframe.step⟩
    cases i with
    | zero => exact hframe.first
    | succ i =>
      rw [Nat.add_comm i, ← Nat.add_assoc]
      exact hbytes i (by omega)

lemma memcpy_spec (h : Writable m a n) (hreads : Writable m b n) (hapart : Apart a n b n) :
    ∃ m', memcpy m a b n = some m' ∧ (∀ i < n, m' (a + i) = m (b + i)) ∧ Frame a n m m' := by
  induction n generalizing m a b with
  | zero => exact ⟨m, rfl, fun i hi => absurd hi (Nat.not_lt_zero i), Frame.refl _ _ _⟩
  | succ n ih =>
    rw [Apart] at hapart
    obtain ⟨c, hc⟩ := Option.ne_none_iff_exists'.mp (hreads 0 (Nat.succ_pos n))
    rw [Nat.add_zero] at hc
    obtain ⟨hstore, hrest⟩ := h.store c
    have hkeep : ∀ i < n, Function.update m a (some c) (b + 1 + i) = m (b + (i + 1)) := by
      intro i hi
      rw [Function.update_of_ne (by omega), Nat.add_assoc, Nat.add_comm 1]
    have hnext : Writable (Function.update m a (some c)) (b + 1) n := by
      intro i hi
      rw [hkeep i hi]
      exact hreads (i + 1) (by omega)
    obtain ⟨m', hcopy, hbytes, hframe⟩ := ih hrest hnext (by rw [Apart]; omega)
    refine ⟨m', by simp [memcpy, hc, hstore, hcopy], fun i hi => ?_, hframe.step⟩
    cases i with
    | zero =>
      rw [Nat.add_zero, Nat.add_zero, hc]
      exact hframe.first
    | succ i =>
      have hi : i < n := Nat.lt_of_succ_lt_succ hi
      have hat : a + (i + 1) = a + 1 + i := by omega
      rw [hat, hbytes i hi, hkeep i hi]

def padded (s : CString) (i : ℕ) : UInt8 := (s.map Subtype.val).getD i 0

lemma strncpy_spec (hs : StringAt m b s) (h : Writable m a n) (hapart : Apart a n b (s.length + 1)) :
    ∃ m', strncpy m a b n = some m' ∧ (∀ i < n, m' (a + i) = some (padded s i)) ∧ Frame a n m m' := by
  induction n generalizing m a b s with
  | zero => exact ⟨m, rfl, fun i hi => absurd hi (Nat.not_lt_zero i), Frame.refl _ _ _⟩
  | succ n ih =>
    cases s with
    | nil =>
      have hs : m b = some 0 := hs
      obtain ⟨m', hset, hbytes, hframe⟩ := memset_spec 0 h
      refine ⟨m', by simp [strncpy, hs, hset], fun i hi => ?_, hframe⟩
      rw [hbytes i hi]
      rfl
    | cons c cs =>
      obtain ⟨hstore, hrest⟩ := h.store c.val
      have hnext : StringAt (Function.update m a (some c.val)) (b + 1) cs := by
        apply hs.2.congr
        intro x hx hxs
        apply Function.update_of_ne
        rw [Apart, List.length_cons] at hapart
        omega
      have hapart' : Apart (a + 1) n (b + 1) (cs.length + 1) := by
        rw [Apart, List.length_cons] at hapart
        rw [Apart]
        omega
      obtain ⟨m', hcopy, hbytes, hframe⟩ := ih hnext hrest hapart'
      refine ⟨m', by simp [strncpy, hs.1, c.property, hstore, hcopy], fun i hi => ?_, hframe.step⟩
      cases i with
      | zero => exact hframe.first
      | succ i =>
        rw [Nat.add_comm i, ← Nat.add_assoc, hbytes i (by omega), Nat.add_comm 1]
        rfl

lemma stringAt_of_bytes (h : ∀ i < s.length, m (a + i) = some (padded s i))
    (hend : m (a + s.length) = some 0) : StringAt m a s := by
  induction s generalizing a with
  | nil => exact hend
  | cons c cs ih =>
    rw [List.length_cons] at h hend
    refine ⟨h 0 (Nat.succ_pos _), ih (fun i hi => ?_) ?_⟩
    · rw [Nat.add_assoc, Nat.add_comm 1, h (i + 1) (by omega)]
      rfl
    · rw [Nat.add_assoc, Nat.add_comm 1]
      exact hend

lemma StringAt.moved (h : StringAt m b s) (hbytes : ∀ i ≤ s.length, m' (a + i) = m (b + i)) :
    StringAt m' a s := by
  induction s generalizing a b with
  | nil => exact (hbytes 0 (Nat.le_refl 0)).trans h
  | cons c cs ih =>
    refine ⟨(hbytes 0 (Nat.zero_le _)).trans h.1, ih h.2 fun i hi => ?_⟩
    rw [Nat.add_assoc, Nat.add_assoc, Nat.add_comm 1]
    exact hbytes (i + 1) (by rw [List.length_cons]; omega)

lemma strrchr_eq {fuel last : ℕ} {c : CChar} (hs : StringAt m a s) (hf : s.length < fuel) :
    strrchr m c.val fuel a last =
      some ((splitLast (fun d => decide (d = c)) s).elim last fun parts => a + parts.1.length) := by
  induction fuel generalizing a s last with
  | zero => exact absurd hf (Nat.not_lt_zero _)
  | succ fuel ih =>
    cases s with
    | nil =>
      have hs : m a = some 0 := hs
      simp [strrchr, hs, splitLast]
    | cons d ds =>
      have hnext := @ih (a + 1) ds (if d.val = c.val then a else last) hs.2
        (Nat.lt_of_succ_lt_succ hf)
      have hstep : strrchr m c.val (fuel + 1) a last =
          strrchr m c.val fuel (a + 1) (if d.val = c.val then a else last) := by
        simp [strrchr, hs.1, d.property]
      rw [hstep, hnext, splitLast]
      cases splitLast (fun x => decide (x = c)) ds with
      | some found =>
        simp only [Option.elim_some, List.length_cons]
        congr 1
        omega
      | none =>
        by_cases hd : d = c
        · simp [hd]
        · have hval : d.val ≠ c.val := fun h => hd (Subtype.ext h)
          simp [hd, hval]

lemma strncpy_terminated {k : ℕ} (hk : n ≤ k) (hk' : k ≤ n + 1) (hs : StringAt m b s)
    (h : Writable m a (n + 1)) (hapart : Apart a (n + 1) b (s.length + 1)) :
    ∃ m', (strncpy m a b k).bind (Bytes.store · (a + n) 0) = some m' ∧ StringAt m' a (s.take n) ∧
      Frame a (n + 1) m m' := by
  have hwrite : Writable m a k := fun i hi => h i (by omega)
  rw [Apart] at hapart
  obtain ⟨m₁, hcopy, hbytes, hframe⟩ := strncpy_spec hs hwrite (by rw [Apart]; omega)
  obtain ⟨x, hlast⟩ := Option.ne_none_iff_exists'.mp (hframe.writable h n (Nat.lt_succ_self n))
  refine ⟨Function.update m₁ (a + n) (some 0), ?_, ?_, ?_⟩
  · rw [hcopy, Option.bind_some, Bytes.store, hlast, Option.map_some]
  · have hlength : (s.take n).length ≤ n := List.length_take_le n s
    apply stringAt_of_bytes
    · intro i hi
      have hin : i < n := by omega
      rw [Function.update_of_ne (by omega), hbytes i (by omega), padded, padded, List.map_take]
      congr 1
      rw [List.getD_eq_getElem?_getD, List.getD_eq_getElem?_getD, List.getElem?_take_of_lt hin]
    · by_cases hfull : n ≤ s.length
      · rw [List.length_take_of_le hfull, Function.update_self]
      · have hshort : s.take n = s := List.take_of_length_le (by omega)
        rw [hshort, Function.update_of_ne (by omega), hbytes s.length (by omega), padded,
          List.getD_eq_getElem?_getD, List.getElem?_eq_none (by rw [List.length_map])]
        rfl
  · exact (hframe.mono (Nat.le_refl a) (by omega)).trans (frame_update (by omega) (by omega) 0)

end Veni.Libc.Bytes
