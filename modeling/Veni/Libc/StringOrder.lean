import Veni.Libc.StringBuffers
import Mathlib.Order.Compare

/-! `strcmp`, `strncmp` and `memcmp` compare as lists of character codes do. -/

namespace Veni.Libc.Bytes

/-- `while (*s1 && (*s1 == *s2))`, with at most `fuel` characters to visit. -/
def strcmp (m : Bytes) : ℕ → ℕ → ℕ → Option ℤ
  | 0, _, _ => none
  | fuel + 1, s1, s2 => do
    let c1 ← m s1
    let c2 ← m s2
    if c1 ≠ 0 ∧ c1 = c2 then strcmp m fuel (s1 + 1) (s2 + 1)
    else return (c1.toNat : ℤ) - (c2.toNat : ℤ)

def strncmp (m : Bytes) : ℕ → ℕ → ℕ → Option ℤ
  | 0, _, _ => some 0
  | n + 1, s1, s2 => do
    let u1 ← m s1
    let u2 ← m s2
    if u1 ≠ u2 then return (u1.toNat : ℤ) - (u2.toNat : ℤ)
    else if u1 = 0 then return 0
    else strncmp m n (s1 + 1) (s2 + 1)

def memcmp (m : Bytes) : ℕ → ℕ → ℕ → Option ℤ
  | 0, _, _ => some 0
  | size + 1, aptr, bptr => do
    let x ← m aptr
    let y ← m bptr
    if x < y then return -1
    else if y < x then return 1
    else memcmp m size (aptr + 1) (bptr + 1)

def Reads (m : Bytes) (a : ℕ) : List UInt8 → Prop
  | [] => True
  | c :: cs => m a = some c ∧ Reads m (a + 1) cs

def codes (s : List UInt8) : List ℕ := s.map UInt8.toNat

def charCodes (s : CString) : List ℕ := s.map fun c => c.val.toNat

@[simp] lemma charCodes_cons (c : CChar) (s : CString) :
    charCodes (c :: s) = c.val.toNat :: charCodes s := rfl

variable {m : Bytes} {a b : ℕ} {s t : CString} {xs ys : List UInt8}

lemma compare_difference (x y : ℕ) : compare ((x : ℤ) - (y : ℤ)) 0 = compare x y := by
  obtain h | h | h := Nat.lt_trichotomy x y
  · rw [compare_lt_iff_lt.mpr h]
    exact compare_lt_iff_lt.mpr (by omega)
  · rw [compare_eq_iff_eq.mpr h]
    exact compare_eq_iff_eq.mpr (by omega)
  · rw [compare_gt_iff_gt.mpr h]
    exact compare_gt_iff_gt.mpr (by omega)

lemma compare_cons_of_ne {x y : ℕ} (h : x ≠ y) (xs ys : List ℕ) :
    compare (x :: xs) (y :: ys) = compare x y := by
  rw [List.compare_cons_cons]
  obtain hlt | hgt := Nat.lt_or_gt_of_ne h
  · rw [compare_lt_iff_lt.mpr hlt]
    rfl
  · rw [compare_gt_iff_gt.mpr hgt]
    rfl

lemma compare_cons_self (x : ℕ) (xs ys : List ℕ) : compare (x :: xs) (x :: ys) = compare xs ys := by
  rw [List.compare_cons_cons, compare_eq_iff_eq.mpr rfl]
  rfl

lemma code_ne {c d : UInt8} (h : c ≠ d) : c.toNat ≠ d.toNat := fun he => h (UInt8.toNat_inj.mp he)

lemma strcmp_compare {fuel : ℕ} (hs : StringAt m a s) (ht : StringAt m b t) (hf : s.length < fuel) :
    ∃ r, strcmp m fuel a b = some r ∧ compare r 0 = compare (charCodes s) (charCodes t) := by
  induction fuel generalizing a b s t with
  | zero => exact absurd hf (Nat.not_lt_zero _)
  | succ fuel ih =>
    cases s with
    | nil =>
      have hs : m a = some 0 := hs
      cases t with
      | nil =>
        have ht : m b = some 0 := ht
        exact ⟨0, by simp [strcmp, hs, ht], rfl⟩
      | cons d ds =>
        refine ⟨-(d.val.toNat : ℤ), by simp [strcmp, hs, ht.1], ?_⟩
        have hpos : 0 < d.val.toNat := Nat.pos_of_ne_zero (code_ne d.property)
        exact compare_lt_iff_lt.mpr (by omega)
    | cons c cs =>
      have hpos : 0 < c.val.toNat := Nat.pos_of_ne_zero (code_ne c.property)
      cases t with
      | nil =>
        have ht : m b = some 0 := ht
        refine ⟨(c.val.toNat : ℤ), by simp [strcmp, hs.1, ht], ?_⟩
        exact compare_gt_iff_gt.mpr (by omega)
      | cons d ds =>
        by_cases hcd : c.val = d.val
        · obtain ⟨r, hr, hcompare⟩ := ih hs.2 ht.2 (Nat.lt_of_succ_lt_succ hf)
          refine ⟨r, by simp [strcmp, hs.1, ht.1, hcd, d.property, hr], ?_⟩
          rw [hcompare, charCodes_cons, charCodes_cons, hcd, compare_cons_self]
        · refine ⟨(c.val.toNat : ℤ) - (d.val.toNat : ℤ), by simp [strcmp, hs.1, ht.1, hcd], ?_⟩
          rw [charCodes_cons, charCodes_cons, compare_cons_of_ne (code_ne hcd)]
          exact compare_difference _ _

lemma strcmp_eq_zero {fuel : ℕ} (hs : StringAt m a s) (ht : StringAt m b t) (hf : s.length < fuel) :
    ∃ r, strcmp m fuel a b = some r ∧ (r = 0 ↔ s = t) := by
  obtain ⟨r, hr, hcompare⟩ := strcmp_compare hs ht hf
  refine ⟨r, hr, ?_⟩
  have hinj : Function.Injective fun c : CChar => c.val.toNat :=
    fun c d h => Subtype.ext (UInt8.toNat_inj.mp h)
  rw [← compare_eq_iff_eq, hcompare, Std.LawfulEqOrd.compare_eq_iff_eq]
  exact (List.map_injective_iff.mpr hinj).eq_iff

lemma strncmp_compare {n : ℕ} (hs : StringAt m a s) (ht : StringAt m b t) :
    ∃ r, strncmp m n a b = some r ∧
      compare r 0 = compare (charCodes (s.take n)) (charCodes (t.take n)) := by
  induction n generalizing a b s t with
  | zero => exact ⟨0, rfl, rfl⟩
  | succ n ih =>
    cases s with
    | nil =>
      have hs : m a = some 0 := hs
      cases t with
      | nil =>
        have ht : m b = some 0 := ht
        exact ⟨0, by simp [strncmp, hs, ht], rfl⟩
      | cons d ds =>
        refine ⟨-(d.val.toNat : ℤ), by simp [strncmp, hs, ht.1, d.property.symm], ?_⟩
        have hpos : 0 < d.val.toNat := Nat.pos_of_ne_zero (code_ne d.property)
        exact compare_lt_iff_lt.mpr (by omega)
    | cons c cs =>
      have hpos : 0 < c.val.toNat := Nat.pos_of_ne_zero (code_ne c.property)
      cases t with
      | nil =>
        have ht : m b = some 0 := ht
        refine ⟨(c.val.toNat : ℤ), by simp [strncmp, hs.1, ht, c.property], ?_⟩
        exact compare_gt_iff_gt.mpr (by omega)
      | cons d ds =>
        rw [List.take_succ_cons, List.take_succ_cons, charCodes_cons, charCodes_cons]
        by_cases hcd : c.val = d.val
        · obtain ⟨r, hr, hcompare⟩ := ih hs.2 ht.2
          refine ⟨r, by simp [strncmp, hs.1, ht.1, hcd, d.property, hr], ?_⟩
          rw [hcompare, hcd, compare_cons_self]
        · refine ⟨(c.val.toNat : ℤ) - (d.val.toNat : ℤ), by simp [strncmp, hs.1, ht.1, hcd], ?_⟩
          rw [compare_cons_of_ne (code_ne hcd)]
          exact compare_difference _ _

lemma memcmp_compare (hx : Reads m a xs) (hy : Reads m b ys) (hlength : xs.length = ys.length) :
    ∃ r, memcmp m xs.length a b = some r ∧ compare r 0 = compare (codes xs) (codes ys) := by
  induction xs generalizing a b ys with
  | nil =>
    rw [List.length_eq_zero_iff.mp hlength.symm]
    exact ⟨0, rfl, rfl⟩
  | cons x xs ih =>
    cases ys with
    | nil => cases hlength
    | cons y ys =>
      obtain ⟨r, hr, hcompare⟩ := ih hx.2 hy.2 (Nat.succ.inj hlength)
      have hcodes : codes (x :: xs) = x.toNat :: codes xs ∧ codes (y :: ys) = y.toNat :: codes ys :=
        ⟨rfl, rfl⟩
      rw [hcodes.1, hcodes.2]
      obtain hlt | heq | hgt := Nat.lt_trichotomy x.toNat y.toNat
      · refine ⟨-1, by simp [memcmp, hx.1, hy.1, UInt8.lt_iff_toNat_lt.mpr hlt], ?_⟩
        rw [compare_cons_of_ne (Nat.ne_of_lt hlt), compare_lt_iff_lt.mpr hlt]
        rfl
      · have hxy : x = y := UInt8.toNat_inj.mp heq
        refine ⟨r, by simp [memcmp, hx.1, hy.1, hxy, hr], ?_⟩
        rw [hcompare, hxy, compare_cons_self]
      · have hnot : ¬ x < y := fun h => Nat.lt_asymm (UInt8.lt_iff_toNat_lt.mp h) hgt
        refine ⟨1, by simp [memcmp, hx.1, hy.1, hnot, UInt8.lt_iff_toNat_lt.mpr hgt], ?_⟩
        rw [compare_cons_of_ne (Nat.ne_of_gt hgt), compare_gt_iff_gt.mpr hgt]
        rfl

/-- The memory need hold nothing but what is compared. -/
theorem comparisons_order (hs : StringAt m a s) (ht : StringAt m b t) (hlen : s.length < 2 ^ 32) (n : ℕ) :
    (∃ r, strcmp m addresses a b = some r ∧ compare r 0 = compare (charCodes s) (charCodes t)) ∧
      (∃ r, strncmp m n a b = some r ∧
        compare r 0 = compare (charCodes (s.take n)) (charCodes (t.take n))) ∧
      ∀ p q xs ys, Reads m p xs → Reads m q ys → xs.length = ys.length →
        ∃ r, memcmp m xs.length p q = some r ∧ compare r 0 = compare (codes xs) (codes ys) :=
  ⟨strcmp_compare hs ht hlen, strncmp_compare hs ht, fun _ _ _ _ => memcmp_compare⟩

def twoNames : Bytes := fun i =>
  if i < 16 then ([97, 98, 0] : List UInt8)[i - 8]? else ([97, 195, 167, 0] : List UInt8)[i - 16]?

theorem comparisons_order_accent : ∃ r, strcmp twoNames addresses 8 16 = some r ∧ compare r 0 = .lt := by
  obtain ⟨⟨r, hr, hcompare⟩, _⟩ := @comparisons_order twoNames 8 16 (cstring "ab")
    [⟨97, by decide⟩, ⟨195, by decide⟩, ⟨167, by decide⟩] (by decide) (by decide) (by decide) 0
  exact ⟨r, hr, hcompare.trans (by decide)⟩

end Veni.Libc.Bytes
