import Veni.Lib.BitSet

/-! The bitmap allocator of physical page frames, `kernel/kernel/memory/pmm.c`. -/

namespace Veni.Memory

open Veni.Lib

def pageSize : ℕ := 4096

structure Pmm where
  start : ℕ
  bitmap : ℕ → BitVec 32
  totalPages : ℕ
  usedPages : ℕ

namespace Pmm

def bitmapIndex (x : ℕ) : ℕ := x / 32

def bitmapBit (x : ℕ) : ℕ := x % 32

/-- `storage` is what the memory at `start` held before. -/
def pmmInit (storage : ℕ → BitVec 32) (start size : ℕ) : Pmm where
  start := start
  bitmap i := if i < bitmapIndex (size / pageSize) then 0#32 else storage i
  totalPages := size / pageSize
  usedPages := 0

def pageUsed (p : Pmm) (i : ℕ) : Bool :=
  p.bitmap (bitmapIndex i) &&& (1#32 <<< bitmapBit i) != 0#32

def pmmAllocPage (p : Pmm) : ℕ × Pmm :=
  if p.usedPages ≥ p.totalPages then (0, p)
  else
    match (List.range p.totalPages).find? (fun i => !p.pageUsed i) with
    | some i =>
      (i * pageSize % 2 ^ 32,
        { p with
          bitmap := Function.update p.bitmap (bitmapIndex i)
            (p.bitmap (bitmapIndex i) ||| (1#32 <<< bitmapBit i))
          usedPages := (p.usedPages + 1) % 2 ^ 32 })
    | none => (0, p)

def pmmFreePage (p : Pmm) (page : ℕ) : Pmm :=
  let pageNum := page / pageSize
  if pageNum ≥ p.totalPages then p
  else if p.pageUsed pageNum then
    { p with
      bitmap := Function.update p.bitmap (bitmapIndex pageNum)
        (p.bitmap (bitmapIndex pageNum) &&& ~~~(1#32 <<< bitmapBit pageNum))
      usedPages := (p.usedPages + (2 ^ 32 - 1)) % 2 ^ 32 }
  else p

def pmmGetFreePages (p : Pmm) : ℕ :=
  (p.totalPages + 2 ^ 32 - p.usedPages) % 2 ^ 32

inductive Op
  | alloc
  | free (page : ℕ)

def exec (p : Pmm) : Op → Pmm
  | .alloc => (pmmAllocPage p).2
  | .free page => pmmFreePage p page

structure Inv (p : Pmm) : Prop where
  total_le : p.totalPages ≤ 2 ^ 20
  used_eq : p.usedPages = BitSet.count p.bitmap p.totalPages

lemma pageUsed_eq (p : Pmm) (i : ℕ) : p.pageUsed i = BitSet.test p.bitmap i := rfl

lemma init_unused (storage : ℕ → BitVec 32) (start : ℕ) {size i : ℕ}
    (hd : 32 ∣ size / pageSize) (hi : i < size / pageSize) :
    (pmmInit storage start size).pageUsed i = false := by
  have hlt : i / 32 < size / pageSize / 32 := by omega
  simp [pageUsed, pmmInit, bitmapIndex, hlt]

lemma init_inv (storage : ℕ → BitVec 32) (start : ℕ) {size : ℕ} (hs : size < 2 ^ 32)
    (hd : 32 ∣ size / pageSize) : Inv (pmmInit storage start size) where
  total_le := by
    simp only [pmmInit, pageSize]
    omega
  used_eq := (BitSet.count_eq_zero fun _ hi => init_unused storage start hd hi).symm

structure Takes (p q : Pmm) (i : ℕ) : Prop where
  lt : i < p.totalPages
  unused : p.pageUsed i = false
  lowest : ∀ j < i, p.pageUsed j = true
  start_eq : q.start = p.start
  total_eq : q.totalPages = p.totalPages
  bitmap_eq : q.bitmap = BitSet.set p.bitmap i
  used_eq : q.usedPages = p.usedPages + 1

lemma alloc_cases {p : Pmm} (h : Inv p) :
    ((∀ i < p.totalPages, p.pageUsed i = true) ∧ pmmAllocPage p = (0, p)) ∨
      ∃ i q, pmmAllocPage p = (i * pageSize, q) ∧ Takes p q i := by
  have htotal := h.total_le
  unfold pmmAllocPage
  split
  · next hfull =>
    left
    have hle := BitSet.count_le p.bitmap p.totalPages
    have hcount : BitSet.count p.bitmap p.totalPages = p.totalPages := by
      have := h.used_eq
      omega
    exact ⟨(BitSet.count_eq_iff _ _).mp hcount, rfl⟩
  · next hfree =>
    right
    split
    · next i hfind =>
      obtain ⟨hi, hrange, hlow⟩ := List.find?_range_eq_some.mp hfind
      have hlt := List.mem_range.mp hrange
      have haddr : i * pageSize % 2 ^ 32 = i * pageSize :=
        Nat.mod_eq_of_lt (by simp only [pageSize]; omega)
      have hused : (p.usedPages + 1) % 2 ^ 32 = p.usedPages + 1 := Nat.mod_eq_of_lt (by omega)
      refine ⟨i, { p with bitmap := BitSet.set p.bitmap i, usedPages := p.usedPages + 1 }, ?_,
        hlt, by simpa using hi, fun j hj => by simpa using hlow j hj, rfl, rfl, rfl, rfl⟩
      rw [haddr, hused]
      rfl
    · next hfind =>
      have hall : ∀ i < p.totalPages, p.pageUsed i = true := by
        intro i hi
        simpa using List.find?_eq_none.mp hfind i (List.mem_range.mpr hi)
      have hcount := (BitSet.count_eq_iff _ _).mpr hall
      have := h.used_eq
      omega

lemma alloc_takes {p : Pmm} (h : Inv p) {i : ℕ} (hi : i < p.totalPages)
    (hu : p.pageUsed i = false) : ∃ j q, j ≤ i ∧ pmmAllocPage p = (j * pageSize, q) ∧ Takes p q j := by
  rcases alloc_cases h with ⟨hall, _⟩ | ⟨j, q, ha, ht⟩
  · simp [hall i hi] at hu
  · refine ⟨j, q, ?_, ha, ht⟩
    by_contra hlt
    simp [ht.lowest i (by omega)] at hu

lemma Takes.pageUsed {p q : Pmm} {i : ℕ} (h : Takes p q i) (j : ℕ) :
    q.pageUsed j = (p.pageUsed j || decide (i = j)) := by
  rw [pageUsed_eq, h.bitmap_eq, BitSet.test_set, pageUsed_eq]

lemma Takes.inv {p q : Pmm} {i : ℕ} (h : Takes p q i) (hp : Inv p) : Inv q where
  total_le := h.total_eq ▸ hp.total_le
  used_eq := by
    rw [h.used_eq, h.bitmap_eq, h.total_eq, BitSet.count_set h.lt h.unused, hp.used_eq]

lemma alloc_inv {p : Pmm} (h : Inv p) : Inv (pmmAllocPage p).2 := by
  rcases alloc_cases h with ⟨_, ha⟩ | ⟨i, q, ha, ht⟩
  · rw [ha]
    exact h
  · rw [ha]
    exact ht.inv h

structure Taken (p : Pmm) (k : ℕ) : Prop where
  inv : Inv p
  used_iff : ∀ i < p.totalPages, p.pageUsed i = decide (i < k)

lemma Taken.alloc {p : Pmm} {k : ℕ} (h : Taken p k) (hk : k < p.totalPages) :
    (pmmAllocPage p).1 = k * pageSize ∧ (pmmAllocPage p).2.totalPages = p.totalPages ∧
      Taken (pmmAllocPage p).2 (k + 1) := by
  obtain ⟨j, q, hj, ha, ht⟩ := alloc_takes h.inv hk (by simp [h.used_iff k hk])
  have hjk : j = k := by
    have hu := h.used_iff j ht.lt
    rw [ht.unused] at hu
    simp only [Bool.false_eq, decide_eq_false_iff_not] at hu
    omega
  subst hjk
  rw [ha]
  refine ⟨rfl, ht.total_eq, ht.inv h.inv, fun i hi => ?_⟩
  rw [ht.total_eq] at hi
  rw [ht.pageUsed, h.used_iff i hi, Bool.eq_iff_iff]
  simp only [Bool.or_eq_true, decide_eq_true_eq]
  omega

lemma free_cases (p : Pmm) (page : ℕ) :
    (page / pageSize < p.totalPages ∧ p.pageUsed (page / pageSize) = true ∧
        pmmFreePage p page =
          { p with
            bitmap := BitSet.clear p.bitmap (page / pageSize)
            usedPages := (p.usedPages + (2 ^ 32 - 1)) % 2 ^ 32 }) ∨
      ((p.totalPages ≤ page / pageSize ∨ p.pageUsed (page / pageSize) = false) ∧
        pmmFreePage p page = p) := by
  by_cases hge : p.totalPages ≤ page / pageSize
  · exact .inr ⟨.inl hge, by simp [pmmFreePage, hge]⟩
  · cases hu : p.pageUsed (page / pageSize) with
    | false => exact .inr ⟨.inr rfl, by simp [pmmFreePage, hu]⟩
    | true =>
      refine .inl ⟨by omega, rfl, ?_⟩
      simp only [pmmFreePage, ge_iff_le, hge, hu, if_true, if_false]
      rfl

lemma free_pageUsed (p : Pmm) (page i : ℕ) (hi : i < p.totalPages) :
    (pmmFreePage p page).pageUsed i = (p.pageUsed i && !decide (page / pageSize = i)) := by
  rcases free_cases p page with ⟨_, _, he⟩ | ⟨hn, he⟩
  · rw [he]
    exact BitSet.test_clear p.bitmap (page / pageSize) i
  · rw [he]
    by_cases hi' : page / pageSize = i
    · subst hi'
      rcases hn with hn | hn
      · omega
      · simp [hn]
    · simp [hi']

lemma free_total (p : Pmm) (page : ℕ) : (pmmFreePage p page).totalPages = p.totalPages := by
  rcases free_cases p page with ⟨_, _, he⟩ | ⟨_, he⟩ <;> rw [he]

lemma free_inv {p : Pmm} (h : Inv p) (page : ℕ) : Inv (pmmFreePage p page) := by
  rcases free_cases p page with ⟨hlt, hu, he⟩ | ⟨_, he⟩
  · have hcount := BitSet.count_clear hlt hu
    have hle := BitSet.count_le p.bitmap p.totalPages
    have htotal := h.total_le
    have hused := h.used_eq
    rw [he]
    refine ⟨htotal, ?_⟩
    change (p.usedPages + (2 ^ 32 - 1)) % 2 ^ 32 =
      BitSet.count (BitSet.clear p.bitmap (page / pageSize)) p.totalPages
    omega
  · rw [he]
    exact h

lemma exec_inv {p : Pmm} (h : Inv p) (op : Op) : Inv (exec p op) := by
  cases op with
  | alloc => exact alloc_inv h
  | free page => exact free_inv h page

lemma exec_total {p : Pmm} (h : Inv p) (op : Op) : (exec p op).totalPages = p.totalPages := by
  cases op with
  | alloc =>
    rcases alloc_cases h with ⟨_, ha⟩ | ⟨i, q, ha, ht⟩
    · simp [exec, ha]
    · simp [exec, ha, ht.total_eq]
  | free page => exact free_total p page

end Pmm

end Veni.Memory
