import Veni.Lib.Transition
import Veni.Memory.Pmm

/-! The pages that are handed out, and the counter of the bitmap allocator. -/

namespace Veni.Memory.Pmm

open Veni.Lib Transition

/-- The allocator and the pages handed out that were not released since. -/
structure Account where
  pmm : Pmm
  outstanding : List ℕ

namespace Account

def exec (a : Account) : Op → Account
  | .alloc =>
    { pmm := (pmmAllocPage a.pmm).2
      outstanding :=
        if a.pmm.usedPages < a.pmm.totalPages then (pmmAllocPage a.pmm).1 :: a.outstanding
        else a.outstanding }
  | .free page =>
    { pmm := pmmFreePage a.pmm page
      outstanding := a.outstanding.erase (page / pageSize * pageSize) }

structure Tracks (a : Account) : Prop where
  inv : Inv a.pmm
  nodup : a.outstanding.Nodup
  mem : ∀ i, i * pageSize ∈ a.outstanding ↔ i < a.pmm.totalPages ∧ a.pmm.pageUsed i = true
  aligned : ∀ p ∈ a.outstanding, p / pageSize * pageSize = p

variable {a : Account}

lemma mul_pageSize_inj {i j : ℕ} : i * pageSize = j * pageSize ↔ i = j :=
  Nat.mul_left_inj (by decide)

lemma Tracks.length_eq (h : Tracks a) : a.outstanding.length = a.pmm.usedPages := by
  have hnodup : (((List.range a.pmm.totalPages).filter (BitSet.test a.pmm.bitmap)).map
      fun i => i * pageSize).Nodup :=
    (List.nodup_range.filter _).map fun i j he => mul_pageSize_inj.mp he
  have hperm := (List.perm_ext_iff_of_nodup h.nodup hnodup).mpr fun p => by
    rw [List.mem_map]
    constructor
    · intro hp
      have hi := h.mem (p / pageSize)
      rw [h.aligned p hp] at hi
      obtain ⟨hlt, hu⟩ := hi.mp hp
      exact ⟨p / pageSize, List.mem_filter.mpr ⟨List.mem_range.mpr hlt, hu⟩, h.aligned p hp⟩
    · rintro ⟨i, hi, rfl⟩
      obtain ⟨hlt, hu⟩ := List.mem_filter.mp hi
      exact (h.mem i).mpr ⟨List.mem_range.mp hlt, hu⟩
  rw [hperm.length_eq, List.length_map, ← List.countP_eq_length_filter, h.inv.used_eq, BitSet.count]

lemma Tracks.takes (h : Tracks a) (hu : a.pmm.usedPages < a.pmm.totalPages) :
    ∃ i q, pmmAllocPage a.pmm = (i * pageSize, q) ∧ Takes a.pmm q i := by
  rcases alloc_cases h.inv with ⟨hall, _⟩ | hi
  · have hcount := (BitSet.count_eq_iff _ _).mpr hall
    have := h.inv.used_eq
    omega
  · exact hi

lemma Tracks.alloc (h : Tracks a) : Tracks (exec a .alloc) := by
  by_cases hu : a.pmm.usedPages < a.pmm.totalPages
  · obtain ⟨i, q, ha, ht⟩ := h.takes hu
    have hnew : i * pageSize ∉ a.outstanding := by
      intro hmem
      have hused := ((h.mem i).mp hmem).2
      rw [ht.unused] at hused
      cases hused
    simp only [exec, ha, hu, if_true]
    refine ⟨ht.inv h.inv, List.nodup_cons.mpr ⟨hnew, h.nodup⟩, fun j => ?_, fun p hp => ?_⟩
    · rw [List.mem_cons, mul_pageSize_inj, h.mem j, ht.total_eq, ht.pageUsed, Bool.or_eq_true,
        decide_eq_true_eq]
      have := ht.lt
      constructor
      · rintro (rfl | ⟨hlt, hj⟩)
        · exact ⟨ht.lt, .inr rfl⟩
        · exact ⟨hlt, .inl hj⟩
      · rintro ⟨hlt, hj | rfl⟩
        · exact .inr ⟨hlt, hj⟩
        · exact .inl rfl
    · rcases List.mem_cons.mp hp with rfl | hp
      · rw [Nat.mul_div_cancel i (by decide)]
      · exact h.aligned p hp
  · have hfull : pmmAllocPage a.pmm = (0, a.pmm) := by
      rw [pmmAllocPage, if_pos (not_lt.mp hu)]
    simp only [exec, hfull, hu, if_false]
    exact h

lemma Tracks.free (h : Tracks a) (page : ℕ) : Tracks (exec a (.free page)) where
  inv := free_inv h.inv page
  nodup := h.nodup.erase _
  mem i := by
    simp only [exec]
    rw [h.nodup.mem_erase_iff, ne_eq, mul_pageSize_inj, h.mem i, free_total]
    constructor
    · rintro ⟨hne, hlt, hu⟩
      rw [free_pageUsed a.pmm page i hlt]
      exact ⟨hlt, by simp [hu, Ne.symm hne]⟩
    · rintro ⟨hlt, hu⟩
      rw [free_pageUsed a.pmm page i hlt, Bool.and_eq_true, Bool.not_eq_true', decide_eq_false_iff_not] at hu
      exact ⟨Ne.symm hu.2, hlt, hu.1⟩
  aligned p hp := h.aligned p (List.mem_of_mem_erase hp)

lemma Tracks.step (h : Tracks a) (op : Op) : Tracks (exec a op) := by
  cases op with
  | alloc => exact h.alloc
  | free page => exact h.free page

lemma exec_total (h : Tracks a) (op : Op) : (exec a op).pmm.totalPages = a.pmm.totalPages := by
  cases op with
  | alloc => exact Pmm.exec_total h.inv .alloc
  | free page => exact free_total a.pmm page

end Account

def initAccount (storage : ℕ → BitVec 32) (start size : ℕ) : Account :=
  ⟨pmmInit storage start size, []⟩

structure Accounted (a : Account) (total : ℕ) : Prop where
  total_eq : a.pmm.totalPages = total
  used_eq : a.pmm.usedPages = BitSet.count a.pmm.bitmap total
  used_le : a.pmm.usedPages ≤ total
  free_eq : pmmGetFreePages a.pmm = total - a.outstanding.length
  nodup : a.outstanding.Nodup
  bounded : ∀ p ∈ a.outstanding, p < total * pageSize
  lowest : a.pmm.usedPages < total → ∃ i < total, (pmmAllocPage a.pmm).1 = i * pageSize ∧
    a.pmm.pageUsed i = false ∧ i * pageSize ∉ a.outstanding ∧
    ∀ j < i, a.pmm.pageUsed j = true ∧ j * pageSize ∈ a.outstanding
  found : a.pmm.usedPages < total →
    (List.range a.pmm.totalPages).find? (fun i => !a.pmm.pageUsed i) ≠ none

lemma Account.Tracks.accounted {a : Account} (h : Tracks a) : Accounted a a.pmm.totalPages := by
  have hle : a.pmm.usedPages ≤ a.pmm.totalPages := h.inv.used_eq ▸ BitSet.count_le _ _
  have htotal := h.inv.total_le
  refine ⟨rfl, h.inv.used_eq, hle, ?_, h.nodup, fun p hp => ?_, fun hu => ?_, fun hu hnone => ?_⟩
  · rw [h.length_eq, pmmGetFreePages]
    omega
  · have hi := h.mem (p / pageSize)
    rw [h.aligned p hp] at hi
    rw [← h.aligned p hp]
    exact Nat.mul_lt_mul_of_pos_right (hi.mp hp).1 (by decide)
  · obtain ⟨i, q, ha, ht⟩ := h.takes hu
    refine ⟨i, ht.lt, by rw [ha], ht.unused, fun hmem => ?_, fun j hj => ⟨ht.lowest j hj, ?_⟩⟩
    · have hused := ((h.mem i).mp hmem).2
      rw [ht.unused] at hused
      cases hused
    · exact (h.mem j).mpr ⟨hj.trans ht.lt, ht.lowest j hj⟩
  · obtain ⟨i, q, _, ht⟩ := h.takes hu
    have hused := List.find?_eq_none.mp hnone i (List.mem_range.mpr ht.lt)
    rw [ht.unused] at hused
    exact hused rfl

/-- In every run the counter counts the pages handed out, and a page that is free is found. -/
theorem pages_accounted (storage : ℕ → BitVec 32) (start : ℕ) {size : ℕ} (hs : size < 2 ^ 32)
    (hd : 32 ∣ size / pageSize) {ops : List Op} {a : Account}
    (hrun : Run (Steps Account.exec) (initAccount storage start size) ops a) :
    Accounted a (size / pageSize) := by
  have hinit : (initAccount storage start size).Tracks := by
    refine ⟨init_inv storage start hs hd, List.nodup_nil, fun i => ?_, fun p hp => by cases hp⟩
    refine iff_of_false List.not_mem_nil fun ⟨hlt, hu⟩ => ?_
    simp only [initAccount] at hlt hu
    rw [init_unused storage start hd hlt] at hu
    cases hu
  have hinv := hrun.invariant (I := fun a => a.Tracks ∧ a.pmm.totalPages = size / pageSize)
    (fun a op b hI hb => by
      rw [← hb]
      exact ⟨hI.1.step op, (Account.exec_total hI.1 op).trans hI.2⟩) ⟨hinit, rfl⟩
  rw [← hinv.2]
  exact hinv.1.accounted

theorem pages_accounted_twice :
    Accounted ([.alloc, .alloc, .free 0x1234, .free 0x1000, .free 0xFFFFFFFF, .alloc].foldl Account.exec
      (initAccount (fun _ => 7#32) 0x110000 0x1000000)) (0x1000000 / pageSize) :=
  pages_accounted (fun _ => 7#32) 0x110000 (by decide) (by decide) (Run.of_exec _ _)

end Veni.Memory.Pmm
