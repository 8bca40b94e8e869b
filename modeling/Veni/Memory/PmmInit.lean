import Veni.Memory.PmmNull

/-! The pages that are free after `pmm_init`. -/

namespace Veni.Memory.Pmm

open Veni.Lib Transition

def handedOut : ℕ → Pmm → List ℕ
  | 0, _ => []
  | n + 1, p => (pmmAllocPage p).1 :: handedOut n (pmmAllocPage p).2

/-- All pages are free, come out in order, and the free pages are 0 exactly when a call takes nothing. -/
structure AllFree (p : Pmm) : Prop where
  unused : ∀ i < p.totalPages, p.pageUsed i = false
  handed : handedOut p.totalPages p = (List.range p.totalPages).map fun i => i * pageSize
  exhausted : ∀ (ops : List Op) (q : Pmm), Run (Steps exec) p ops q →
    (pmmGetFreePages q = 0 ↔ (pmmAllocPage q).2 = q)

/-- The bits of pages in the word that `pmm_init` does not clear are 0. -/
def TailClear (storage : ℕ → BitVec 32) (size : ℕ) : Prop :=
  ∀ i < size / pageSize, bitmapIndex (size / pageSize) ≤ bitmapIndex i → BitSet.test storage i = false

lemma init_pageUsed (storage : ℕ → BitVec 32) (start size i : ℕ) :
    (pmmInit storage start size).pageUsed i =
      if bitmapIndex i < bitmapIndex (size / pageSize) then false else BitSet.test storage i := by
  split
  · next hlt => simp [pageUsed, pmmInit, hlt]
  · next hle =>
    simp only [pageUsed, pmmInit, hle, if_false]
    rfl

lemma init_unused_iff (storage : ℕ → BitVec 32) (start size : ℕ) :
    (∀ i < size / pageSize, (pmmInit storage start size).pageUsed i = false) ↔
      TailClear storage size := by
  constructor
  · intro h i hi hle
    have hu := h i hi
    rwa [init_pageUsed, if_neg (not_lt.mpr hle)] at hu
  · intro h i hi
    rw [init_pageUsed]
    split
    · rfl
    · next hle => exact h i hi (not_lt.mp hle)

lemma inv_of_unused {p : Pmm} (ht : p.totalPages ≤ 2 ^ 20) (hu : p.usedPages = 0)
    (h : ∀ i < p.totalPages, p.pageUsed i = false) : Inv p where
  total_le := ht
  used_eq := by
    rw [hu]
    exact (BitSet.count_eq_zero h).symm

lemma Taken.handedOut {p : Pmm} {k n : ℕ} (h : Taken p k) (hn : k + n ≤ p.totalPages) :
    handedOut n p = (List.range n).map fun i => (k + i) * pageSize := by
  induction n generalizing p k with
  | zero => rfl
  | succ n ih =>
    obtain ⟨ha, ht, hs⟩ := h.alloc (by omega)
    rw [Pmm.handedOut, ha, ih hs (by omega), List.range_succ_eq_map, List.map_cons, List.map_map]
    refine congrArg _ (List.map_congr_left fun i _ => ?_)
    simp only [Function.comp_apply, Nat.succ_eq_add_one]
    congr 1
    omega

lemma Inv.exhausted {p : Pmm} (h : Inv p) : pmmGetFreePages p = 0 ↔ (pmmAllocPage p).2 = p := by
  rw [h.free_eq_zero_iff]
  rcases alloc_cases h with ⟨hall, ha⟩ | ⟨i, q, ha, ht⟩
  · rw [ha]
    exact iff_of_true hall rfl
  · refine iff_of_false (fun hall => ?_) fun he => ?_
    · have hu := hall i ht.lt
      rw [ht.unused] at hu
      cases hu
    · have hused := ht.used_eq
      rw [ha] at he
      simp only at he
      rw [he] at hused
      omega

/-- After `pmm_init` all pages are free if and only if the memory of the bitmap's last, partial word
was clear for the pages in it. -/
theorem init_free_iff (storage : ℕ → BitVec 32) (start : ℕ) {size : ℕ} (hs : size < 2 ^ 32) :
    AllFree (pmmInit storage start size) ↔ TailClear storage size := by
  constructor
  · intro h
    exact (init_unused_iff storage start size).mp h.unused
  · intro h
    have hunused := (init_unused_iff storage start size).mpr h
    have htotal : (pmmInit storage start size).totalPages ≤ 2 ^ 20 := by
      simp only [pmmInit, pageSize]
      omega
    have hinv : Inv (pmmInit storage start size) := inv_of_unused htotal rfl hunused
    have htaken : Taken (pmmInit storage start size) 0 := ⟨hinv, fun i hi => by simp [hunused i hi]⟩
    refine ⟨hunused, ?_, fun ops q hrun => (run_inv hrun hinv).exhausted⟩
    rw [htaken.handedOut (by omega)]
    simp only [Nat.zero_add]

theorem init_free_iff_partial :
    AllFree (pmmInit (fun _ => 0xFFFFFFFE#32) 0x110000 0x21000) ↔
      TailClear (fun _ => 0xFFFFFFFE#32) 0x21000 :=
  init_free_iff (fun _ => 0xFFFFFFFE#32) 0x110000 (by decide)

/-- 33 pages, with the bit of the last one set in the memory under the bitmap. -/
theorem last_page_used : ¬ AllFree (pmmInit (fun _ => 1#32) 0x110000 0x21000) := by
  intro h
  have hu := h.unused 32 (by decide)
  cases hu

end Veni.Memory.Pmm
