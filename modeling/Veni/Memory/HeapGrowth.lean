import Veni.Memory.HeapAllocations
import Veni.Memory.HeapPages

/-! Growing the heap: which extensions keep the pages that are already mapped. -/

namespace Veni.Memory.Heap

open Veni.Lib.Transition Vmm

variable {π : Type*} (L : PageLayer π)

def NoFit (h : Heap π) (size : ℕ) : Prop :=
  size ≠ 0 ∧ findFreeBlock h.memory (alignedSize size) walkBound h.start = some 0

def growth (size : ℕ) : ℕ := max (alignedSize size) pageSize

variable {L} in
lemma kmalloc_pages {h : Heap π} {size : ℕ} {r : ℕ × Heap π} (hr : kmalloc L h size = some r) :
    (¬ NoFit h size ∧ r.2.currentBreak = h.currentBreak ∧ r.2.pages = h.pages) ∨
      (NoFit h size ∧ r.2.currentBreak = (sbrk L h (growth size)).2.currentBreak ∧
        r.2.pages = (sbrk L h (growth size)).2.pages) := by
  by_cases hzero : size = 0
  · rw [kmalloc, if_pos hzero] at hr
    cases hr
    exact .inl ⟨fun hn => hn.1 hzero, rfl, rfl⟩
  simp only [kmalloc, hzero, if_false] at hr
  obtain ⟨found, hfound, hr⟩ := Option.bind_eq_some_iff.mp hr
  obtain ⟨q, hq, hr⟩ := Option.map_eq_some_iff.mp hr
  have hbreak : r.2.currentBreak = q.2.currentBreak ∧ r.2.pages = q.2.pages := by
    rw [← hr]
    split
    · exact ⟨rfl, rfl⟩
    · exact ⟨rfl, rfl⟩
  by_cases hf : found = 0
  · right
    rw [if_pos hf] at hq
    rw [hf] at hfound
    have halloc : (if alignedSize size > pageSize then alignedSize size else pageSize) = growth size := by
      rw [growth]
      split <;> omega
    simp only [extend, halloc] at hq
    refine ⟨⟨hzero, hfound⟩, ?_⟩
    rw [hbreak.1, hbreak.2]
    split at hq
    · cases hq
      exact ⟨rfl, rfl⟩
    · split at hq
      · cases hq
        exact ⟨rfl, rfl⟩
      · obtain ⟨l, _, hq⟩ := Option.map_eq_some_iff.mp hq
        cases hq
        exact ⟨rfl, rfl⟩
  · left
    rw [if_neg hf] at hq
    cases hq
    refine ⟨fun hn => hf ?_, hbreak⟩
    rw [hn.2] at hfound
    cases hfound
    rfl

lemma kfree_pages {h h' : Heap π} {ptr : ℕ} (hr : kfree h ptr = some h') :
    h'.currentBreak = h.currentBreak ∧ h'.pages = h.pages := by
  simp only [kfree] at hr
  split at hr
  · cases hr
    exact ⟨rfl, rfl⟩
  · split at hr
    · cases hr
      exact ⟨rfl, rfl⟩
    · obtain ⟨m, _, hr⟩ := Option.map_eq_some_iff.mp hr
      cases hr
      exact ⟨rfl, rfl⟩

/-- Every page that intersects the heap is mapped, and no heap page that was mapped changes its
frame. -/
structure PagesKept (s t : Vmm × Frames) (brk : ℕ) : Prop where
  present : ∀ page, heapStart < (page + 1) * pageSize → page * pageSize < brk →
    t.1.walk page ≠ none
  kept : ∀ page f, heapStart < (page + 1) * pageSize → page * pageSize < heapEnd →
    s.1.walk page = some f → t.1.walk page = some f

structure HeapMapped (s : Vmm × Frames) (brk : ℕ) : Prop where
  backed : Backed s
  lower : heapStart ≤ brk
  upper : brk ≤ heapEnd
  covered : ∀ page, heapStart < (page + 1) * pageSize → page * pageSize < brk →
    s.1.walk page ≠ none
  clear : ∀ page, brk ≤ page * pageSize → page * pageSize < heapEnd → s.1.walk page = none

lemma HeapMapped.pagesKept {s : Vmm × Frames} {brk : ℕ} (h : HeapMapped s brk) :
    PagesKept s s brk :=
  ⟨h.covered, fun _ _ _ _ hf => hf⟩

lemma HeapMapped.grow {s t : Vmm × Frames} {brk n : ℕ} (h : HeapMapped s brk)
    (hend : brk + n ≤ heapEnd) (hr : MapsRange s t brk (brk + n)) (ha : brk % pageSize = 0) :
    HeapMapped t (brk + n) ∧ PagesKept s t (brk + n) := by
  have hlower := h.lower
  simp only [heapStart, heapEnd, pageSize] at hend hlower ha
  have hpage : ∀ page, page * pageSize < heapEnd → page < 2 ^ 20 := by
    intro page hp
    simp only [pageSize, heapEnd] at hp
    omega
  have htouched : ∀ page, Touched brk (brk + n) page ↔
      brk ≤ page * pageSize ∧ page * pageSize < brk + n := by
    intro page
    simp only [Touched, pageSize]
    omega
  have hcovered : ∀ page, heapStart < (page + 1) * pageSize → page * pageSize < brk + n →
      t.1.walk page ≠ none := by
    intro page hlo hhi
    have hp := hpage page (by simp only [heapEnd]; omega)
    by_cases ht : Touched brk (brk + n) page
    · obtain ⟨f, _, hw⟩ := hr.fresh page hp ht
      simp [hw]
    · rw [hr.kept page hp ht]
      rw [htouched] at ht
      exact h.covered page hlo (by omega)
  refine ⟨⟨hr.backed, by simp only [heapStart]; omega, by simp only [heapEnd]; omega, hcovered,
    fun page hlo hhi => ?_⟩, hcovered, fun page f hlo hhi hf => ?_⟩
  · have ht : ¬ Touched brk (brk + n) page := by
      rw [htouched]
      omega
    rw [hr.kept page (hpage page hhi) ht]
    exact h.clear page (by omega) hhi
  · by_cases ht : Touched brk (brk + n) page
    · rw [htouched] at ht
      rw [h.clear page ht.1 hhi] at hf
      cases hf
    · rw [hr.kept page (hpage page hhi) ht]
      exact hf

lemma HeapMapped.not_kept {s t : Vmm × Frames} {brk n : ℕ} (h : HeapMapped s brk) (hn : 0 < n)
    (hend : brk + n ≤ heapEnd) (hr : MapsRange s t brk (brk + n)) (ha : brk % pageSize ≠ 0) :
    ¬ PagesKept s t (brk + n) := by
  intro hk
  have hlower := h.lower
  simp only [heapStart, heapEnd, pageSize] at hend hlower ha
  have hlo : heapStart < (brk / 4096 + 1) * pageSize := by
    simp only [heapStart, pageSize]
    omega
  have hhi : brk / 4096 * pageSize < brk := by
    simp only [pageSize]
    omega
  obtain ⟨f, hf⟩ := Option.ne_none_iff_exists'.mp (h.covered _ hlo hhi)
  obtain ⟨g, hg, hw⟩ := hr.fresh (brk / 4096) (by omega) ⟨le_rfl, by omega⟩
  have hkept := hk.kept _ f hlo (by simp only [pageSize, heapEnd]; omega) hf
  rw [hw] at hkept
  cases hkept
  exact hg (h.backed.frames _ (by omega) (by omega) _ hf)

section Runs

def Calls (x : Session (Vmm × Frames)) (c : Call) (y : Session (Vmm × Frames)) : Prop :=
  exec kernelPages x c = some y

/-- No 32-bit addition of the call wraps, and it finds a frame whenever it asks for one. -/
def Plenty (x : Session (Vmm × Frames)) (c : Call) (y : Session (Vmm × Frames)) : Prop :=
  (∀ size, c = .kmalloc size → size + 27 < 2 ^ 32 ∧ x.heap.currentBreak + growth size < 2 ^ 32) ∧
    y.heap.pages.2.exhausted = false

def KeepsPages (x : Session (Vmm × Frames)) (_ : Call) (y : Session (Vmm × Frames)) : Prop :=
  PagesKept x.heap.pages y.heap.pages y.heap.currentBreak

/-- A call that extends the heap does so from a break at a page boundary. -/
def AlignedGrowth (x : Session (Vmm × Frames)) (c : Call) (_ : Session (Vmm × Frames)) : Prop :=
  ∀ size, c = .kmalloc size → NoFit x.heap size →
    x.heap.currentBreak + growth size ≤ heapEnd → x.heap.currentBreak % pageSize = 0

def Mapped (x : Session (Vmm × Frames)) : Prop := HeapMapped x.heap.pages x.heap.currentBreak

lemma calls_cases {x y : Session (Vmm × Frames)} {c : Call} (hI : Mapped x) (h : Calls x c y)
    (hH : Plenty x c y) :
    ((∀ size, c = .kmalloc size → NoFit x.heap size →
          heapEnd < x.heap.currentBreak + growth size) ∧
        y.heap.currentBreak = x.heap.currentBreak ∧ y.heap.pages = x.heap.pages) ∨
      ∃ size, c = .kmalloc size ∧ NoFit x.heap size ∧
        x.heap.currentBreak + growth size ≤ heapEnd ∧
        y.heap.currentBreak = x.heap.currentBreak + growth size ∧
        MapsRange x.heap.pages y.heap.pages x.heap.currentBreak
          (x.heap.currentBreak + growth size) := by
  cases c with
  | kmalloc size =>
    obtain ⟨r, hr, rfl⟩ := Option.map_eq_some_iff.mp h
    obtain ⟨_, hsum⟩ := hH.1 size rfl
    rcases kmalloc_pages hr with ⟨hfit, hbrk, hpages⟩ | ⟨hfit, hbrk, hpages⟩
    · refine .inl ⟨fun size' he hn => ?_, hbrk, hpages⟩
      cases he
      exact absurd hn hfit
    · have hx : (sbrk kernelPages x.heap (growth size)).2.pages.2.exhausted = false := by
        rw [← hpages]
        exact hH.2
      rcases sbrk_pages hI.backed hsum hx with ⟨hend, hs⟩ | ⟨hend, p, hs, hrange⟩
      · rw [hs] at hbrk hpages
        refine .inl ⟨fun size' he _ => ?_, hbrk, hpages⟩
        cases he
        exact hend
      · rw [hs] at hbrk hpages
        refine .inr ⟨size, rfl, hfit, hend, hbrk, ?_⟩
        simp only [hpages]
        exact hrange
  | kfree ptr =>
    obtain ⟨h', hr, rfl⟩ := Option.map_eq_some_iff.mp h
    obtain ⟨hbrk, hpages⟩ := kfree_pages hr
    exact .inl ⟨fun size he => (by cases he), hbrk, hpages⟩
  | write m =>
    cases h
    exact .inl ⟨fun size he => (by cases he), rfl, rfl⟩

lemma growth_pos (size : ℕ) : 0 < growth size :=
  lt_of_lt_of_le (by decide : 0 < pageSize) (Nat.le_max_right _ _)

lemma keeps_iff_aligned {x y : Session (Vmm × Frames)} {c : Call} (hI : Mapped x)
    (h : Calls x c y) (hH : Plenty x c y) : KeepsPages x c y ↔ AlignedGrowth x c y := by
  rcases calls_cases hI h hH with ⟨hg, hbrk, hpages⟩ | ⟨size, rfl, hfit, hend, hbrk, hrange⟩
  · have hk : KeepsPages x c y := by
      rw [KeepsPages, hbrk, hpages]
      exact HeapMapped.pagesKept hI
    exact iff_of_true hk fun size he hfit hle => absurd (hg size he hfit) (by omega)
  · rw [KeepsPages, hbrk]
    constructor
    · intro hk size' he _ _
      cases he
      by_contra ha
      exact HeapMapped.not_kept hI (growth_pos size) hend hrange ha hk
    · intro hg
      exact (HeapMapped.grow hI hend hrange (hg size rfl hfit hend)).2

lemma Mapped.step {x y : Session (Vmm × Frames)} {c : Call} (hI : Mapped x)
    (h : Calls x c y) (hH : Plenty x c y) (hg : AlignedGrowth x c y) : Mapped y := by
  rcases calls_cases hI h hH with ⟨_, hbrk, hpages⟩ | ⟨size, rfl, hfit, hend, hbrk, hrange⟩
  · rw [Mapped, hbrk, hpages]
    exact hI
  · rw [Mapped, hbrk]
    exact (HeapMapped.grow hI hend hrange (hg size rfl hfit hend)).1

def heapOn (m : ℕ → UInt8) (s : Vmm × Frames) : Session (Vmm × Frames) :=
  ⟨kheapInit kernelPages (unused m s), []⟩

lemma heapOn_heap (m : ℕ → UInt8) (s : Vmm × Frames) :
    (heapOn m s).heap = kheapInit kernelPages (unused m s) := by
  simp only [heapOn]

lemma kheapInit_pages (h : Heap π) :
    (kheapInit L h).pages = (sbrk L h pageSize).2.pages ∧
      (kheapInit L h).currentBreak = (sbrk L h pageSize).2.currentBreak := by
  simp only [kheapInit]
  generalize sbrk L h pageSize = r
  split
  · exact ⟨rfl, rfl⟩
  · exact ⟨rfl, rfl⟩

lemma heapOn_exhausted {s : Vmm × Frames} {m : ℕ → UInt8}
    (hx : (heapOn m s).heap.pages.2.exhausted = false) : s.2.exhausted = false := by
  rw [heapOn_heap, (kheapInit_pages kernelPages _).1] at hx
  exact sbrk_exhausted hx

lemma heapOn_mapped {s : Vmm × Frames} (m : ℕ → UInt8) (hb : Backed s)
    (hclear : ∀ page < 2 ^ 20, 1024 ≤ page → s.1.walk page = none)
    (hx : (heapOn m s).heap.pages.2.exhausted = false) :
    (heapOn m s).heap.currentBreak = heapStart + pageSize ∧ Mapped (heapOn m s) ∧
      PagesKept s (heapOn m s).heap.pages (heapOn m s).heap.currentBreak := by
  have hempty : HeapMapped s heapStart := by
    refine ⟨hb, le_rfl, by decide, fun page hlo hhi => ?_, fun page hlo hhi => ?_⟩
    · simp only [heapStart, pageSize] at hlo hhi
      omega
    · simp only [heapStart, heapEnd, pageSize] at hlo hhi
      exact hclear page (by omega) (by omega)
  obtain ⟨hpages, hbrk⟩ := kheapInit_pages kernelPages (unused m s)
  rw [heapOn, Mapped] at *
  simp only [hpages, hbrk] at hx ⊢
  have hsum : (unused m s).currentBreak + pageSize < 2 ^ 32 := by
    simp only [unused]
    decide
  have hend : heapStart + pageSize ≤ heapEnd := by decide
  rcases sbrk_pages (h := unused m s) hb hsum hx with ⟨hgt, _⟩ | ⟨_, p, hs, hrange⟩
  · exact absurd hend (Nat.not_le.mpr hgt)
  · simp only [hs]
    exact ⟨rfl, HeapMapped.grow hempty hend hrange (by decide : heapStart % pageSize = 0)⟩

structure Frugal (L : PageLayer (Vmm × Frames)) : Prop where
  alloc : ∀ s, Owned s → s.2.exhausted = false → s.2.pmm.usedPages < s.2.pmm.totalPages →
    Spends s (L.pmmAllocPage s).2 1
  mapPage : L.mapPage = kernelPages.mapPage

lemma kernelPages_frugal : Frugal kernelPages where
  alloc s h hx hu := by
    obtain ⟨i, ha, ht, hax⟩ := Frames.alloc_takes h.inv hu
    exact ⟨(h.alloc (hax.trans hx)).1, hax.trans hx, ht.total_eq, ht.used_eq.le⟩
  mapPage := rfl

lemma tablePages_frugal : Frugal tablePages where
  alloc s h hx hu := by
    obtain ⟨i, ha, ht, hax⟩ := Frames.alloc_takes h.inv hu
    exact ⟨(h.alloc (hax.trans hx)).1.congr rfl rfl, hx, ht.total_eq, ht.used_eq.le⟩
  mapPage := rfl

section Frugal

variable {L : PageLayer (Vmm × Frames)} (hL : Frugal L)

include hL

lemma mapNewPages_spends {n k : ℕ} {s : Vmm × Frames} (h : Owned s) (hx : s.2.exhausted = false)
    {addr brk : ℕ} (hk : brk ≤ addr + 4096 * k)
    (hu : s.2.pmm.usedPages + 2 * k ≤ s.2.pmm.totalPages) :
    Spends s (mapNewPages L n s addr brk).1 (2 * k) := by
  induction n generalizing s addr k with
  | zero => exact (h.spends hx).mono (Nat.zero_le _)
  | succ n ih =>
    simp only [mapNewPages]
    by_cases hlt : addr < brk
    · rw [if_pos hlt]
      cases k with
      | zero => omega
      | succ k =>
        have halloc := hL.alloc s h hx (by omega)
        have hused := halloc.used_le
        have htotal := halloc.total_eq
        by_cases hzero : (L.pmmAllocPage s).1 = 0
        · rw [if_pos hzero]
          exact halloc.mono (by omega)
        · rw [if_neg hzero, hL.mapPage]
          have hmap := halloc.trans (halloc.owned.map_spends halloc.exhausted (by omega)
            (BitVec.ofNat 32 addr) (BitVec.ofNat 32 (L.pmmAllocPage s).1) (ptePresent ||| pteRw))
          have hused' := hmap.used_le
          have htotal' := hmap.total_eq
          have hpage : pageSize = 4096 := rfl
          exact (hmap.trans (ih hmap.owned hmap.exhausted (k := k) (by omega) (by omega))).mono
            (by omega)
    · rw [if_neg hlt]
      exact (h.spends hx).mono (Nat.zero_le _)

lemma sbrk_spends {h : Heap (Vmm × Frames)} {size k : ℕ} (hb : Owned h.pages)
    (hx : h.pages.2.exhausted = false) (hk : size ≤ 4096 * k)
    (hu : h.pages.2.pmm.usedPages + 2 * k ≤ h.pages.2.pmm.totalPages) :
    Spends h.pages (sbrk L h size).2.pages (2 * k) := by
  have hloop : Spends h.pages (mapNewPages L size h.pages h.currentBreak
      ((h.currentBreak + size) % 2 ^ 32)).1 (2 * k) := by
    apply mapNewPages_spends hL hb hx _ hu
    have := Nat.mod_le (h.currentBreak + size) (2 ^ 32)
    omega
  simp only [sbrk]
  split
  · exact (hb.spends hx).mono (Nat.zero_le _)
  · split
    · exact hloop
    · exact hloop

lemma kmalloc_spends {h : Heap (Vmm × Frames)} {size k : ℕ} {r : ℕ × Heap (Vmm × Frames)}
    (hr : kmalloc L h size = some r) (hb : Owned h.pages)
    (hx : h.pages.2.exhausted = false) (hk : growth size ≤ 4096 * k)
    (hu : h.pages.2.pmm.usedPages + 2 * k ≤ h.pages.2.pmm.totalPages) :
    Spends h.pages r.2.pages (2 * k) := by
  rcases kmalloc_pages hr with ⟨_, _, hpages⟩ | ⟨_, _, hpages⟩
  · rw [hpages]
    exact (hb.spends hx).mono (Nat.zero_le _)
  · rw [hpages]
    exact sbrk_spends hL hb hx hk hu

end Frugal

lemma noFit_of_total {h : Heap π} {bs : List Lib.Blocks.Block} {size : ℕ} (hl : Layout h bs)
    (hpos : size ≠ 0) (hlt : h.currentBreak < heapStart + alignedSize size) : NoFit h size := by
  refine ⟨hpos, ?_⟩
  rw [hl.start]
  rcases findFreeBlock_spec (n := alignedSize size) (by decide) hl.seg hl.length_lt with
    ⟨pre, b, post, rfl, _, hfit, _⟩ | ⟨_, hfind⟩
  · have hbrk := hl.brk
    have hb := hfit.2
    simp only [Lib.Blocks.total_append, Lib.Blocks.total_cons] at hbrk
    omega
  · exact hfind

lemma boot_spends (storage : ℕ → BitVec 32) (start : ℕ) (memory : ℕ → BitVec 32) :
    Owned (bootPages storage start 0x1000000 memory) ∧
      (bootPages storage start 0x1000000 memory).2.exhausted = false ∧
      (bootPages storage start 0x1000000 memory).2.pmm.usedPages ≤ 1025 ∧
      (bootPages storage start 0x1000000 memory).2.pmm.totalPages = 4096 := by
  obtain ⟨_, howned, hx, hused, htotal⟩ := emptyDirectory_owned storage start
    (by decide : 0x1000000 < 2 ^ 32) (by decide) (by decide) memory
  have hpages : 0x1000000 / pageSize = 4096 := rfl
  rw [hpages] at htotal
  have hspends := howned.run_spends hx
    (by rw [hused, htotal, identityOps_length]; decide)
  rw [bootPages, vmmInit_eq]
  have hle := hspends.used_le
  rw [hused, identityOps_length] at hle
  exact ⟨hspends.owned, hspends.exhausted, hle, hspends.total_eq.trans htotal⟩

def bootHeap : Session (Vmm × Frames) :=
  heapOn (fun _ => 0) (bootPages (fun _ => 0) 0x110000 0x1000000 (fun _ => 0))

lemma bootHeap_spends :
    Spends (bootPages (fun _ => 0) 0x110000 0x1000000 (fun _ => 0)) bootHeap.heap.pages 2 := by
  obtain ⟨howned, hx, hused, htotal⟩ := boot_spends (fun _ => 0) 0x110000 (fun _ => 0)
  rw [bootHeap, heapOn_heap, (kheapInit_pages kernelPages _).1]
  generalize bootPages (fun _ => 0) 0x110000 0x1000000 (fun _ => 0) = s at *
  exact sbrk_spends kernelPages_frugal (h := unused (fun _ => 0) s) (k := 1) howned hx (by decide)
    (by simp only [unused]; omega)

structure Ready (x : Session (Vmm × Frames)) (brk k : ℕ) : Prop where
  inv : Inv x
  brk_eq : x.heap.currentBreak = brk
  owned : Owned x.heap.pages
  frames : x.heap.pages.2.exhausted = false
  room : x.heap.pages.2.pmm.usedPages + 2 * k ≤ x.heap.pages.2.pmm.totalPages

lemma Ready.kmalloc {x y : Session (Vmm × Frames)} {brk k n size : ℕ} (h : Ready x brk (k + n))
    (hpos : size ≠ 0) (hmax : size ≤ heapMaxSize) (hlt : brk < heapStart + alignedSize size)
    (hn : growth size ≤ 4096 * n) (hwrap : brk + growth size < 2 ^ 32)
    (hc : Calls x (.kmalloc size) y) :
    NoFit x.heap size ∧ Plenty x (.kmalloc size) y ∧ Inv y ∧
      Spends x.heap.pages y.heap.pages (2 * n) := by
  obtain ⟨r, hr, rfl⟩ := Option.map_eq_some_iff.mp hc
  have hroom := h.room
  have hspends := kmalloc_spends kernelPages_frugal hr h.owned h.frames hn (by omega)
  obtain ⟨z, hz, hinv⟩ := h.inv.step kernelPages (c := .kmalloc size) hmax
  have hplenty : Plenty x (.kmalloc size)
      ⟨r.2, if r.1 = 0 then x.outstanding else (r.1, size) :: x.outstanding⟩ := by
    refine ⟨fun size' he => ?_, hspends.exhausted⟩
    cases he
    simp only [heapMaxSize, heapEnd, heapStart] at hmax
    rw [h.brk_eq]
    exact ⟨by omega, hwrap⟩
  obtain ⟨bs, hl, _⟩ := h.inv
  refine ⟨noFit_of_total hl hpos (by rw [h.brk_eq]; exact hlt), hplenty, ?_, hspends⟩
  rw [Calls, hz] at hc
  cases hc
  exact hinv

lemma Ready.remapped {x : Session (Vmm × Frames)} (h : Ready x (heapStart + 4096) 5)
    (hm : Mapped x) :
    Along Calls Plenty x [.kmalloc 5000, .kmalloc 10000] ∧
      ¬ Along Calls KeepsPages x [.kmalloc 5000, .kmalloc 10000] := by
  have hfirst : ∀ y, Calls x (.kmalloc 5000) y →
      Plenty x (.kmalloc 5000) y ∧ Ready y (heapStart + 9116) 3 ∧ Mapped y := by
    intro y hy
    obtain ⟨hfit, hplenty, hinv, hspends⟩ := Ready.kmalloc (k := 3) (n := 2) h (by decide) (by decide)
      (by decide) (by decide) (by decide) hy
    have haligned : AlignedGrowth x (.kmalloc 5000) y := by
      intro _ _ _ _
      rw [h.brk_eq]
      decide
    have hbrk : y.heap.currentBreak = heapStart + 9116 := by
      rcases calls_cases hm hy hplenty with ⟨hfull, _⟩ | ⟨size, he, _, _, hbrk, _⟩
      · have hgt := hfull 5000 rfl hfit
        rw [h.brk_eq] at hgt
        exact absurd hgt (by decide)
      · cases he
        rw [hbrk, h.brk_eq]
        decide
    have hroom := h.room
    have hused := hspends.used_le
    have htotal := hspends.total_eq
    exact ⟨hplenty, ⟨hinv, hbrk, hspends.owned, hspends.exhausted, by omega⟩,
      hm.step hy hplenty haligned⟩
  have hsecond : ∀ y z, Ready y (heapStart + 9116) 3 → Calls y (.kmalloc 10000) z →
      NoFit y.heap 10000 ∧ Plenty y (.kmalloc 10000) z := by
    intro y z hr hz
    obtain ⟨hfit, hplenty, _⟩ := Ready.kmalloc (k := 0) (n := 3) hr (by decide) (by decide)
      (by decide) (by decide) (by decide) hz
    exact ⟨hfit, hplenty⟩
  refine ⟨fun y hy => ?_, fun hk => ?_⟩
  · obtain ⟨hplenty, hr, _⟩ := hfirst y hy
    exact ⟨hplenty, fun z hz => ⟨(hsecond y z hr hz).2, trivial⟩⟩
  · obtain ⟨y, hy, _⟩ := h.inv.step kernelPages (c := .kmalloc 5000) (by decide : 5000 ≤ heapMaxSize)
    obtain ⟨_, hr, hm'⟩ := hfirst y hy
    obtain ⟨z, hz, _⟩ := hr.inv.step kernelPages (c := .kmalloc 10000)
      (by decide : 10000 ≤ heapMaxSize)
    obtain ⟨hfit, hplenty⟩ := hsecond y z hr hz
    have hkeeps := ((hk y hy).2 z hz).1
    have ha := (keeps_iff_aligned hm' hz hplenty).mp hkeeps 10000 rfl hfit
      (by rw [hr.brk_eq]; decide)
    rw [hr.brk_eq] at ha
    exact absurd ha (by decide)

lemma bootHeap_ready : Ready bootHeap (heapStart + 4096) 5 ∧ Mapped bootHeap := by
  obtain ⟨_, hx, hused, htotal⟩ := boot_spends (fun _ => 0) 0x110000 (fun _ => 0)
  obtain ⟨hb, hclear⟩ := boot_backed (fun _ => 0) 0x110000 (fun _ => 0)
    (by decide : 0x1000000 < 2 ^ 32) (by decide) hx
  have hspends := bootHeap_spends
  rw [bootHeap] at *
  generalize bootPages (fun _ => 0) 0x110000 0x1000000 (fun _ => 0) = s at *
  obtain ⟨hbrk, hmapped, _⟩ := heapOn_mapped (fun _ => 0) hb hclear hspends.exhausted
  have hle := hspends.used_le
  have hsame := hspends.total_eq
  exact ⟨⟨inv_kheapInit kernelPages (fun _ => 0) s, hbrk, hspends.owned, hspends.exhausted,
    by omega⟩, hmapped⟩

/-- Along a run that never misses a frame, every page of the heap is mapped and keeps its frame
exactly when the heap is only ever extended from a page boundary. -/
theorem keeps_pages_iff (storage : ℕ → BitVec 32) (start : ℕ) {size : ℕ} (hs : size < 2 ^ 32)
    (hd : 32 ∣ size / pageSize) (memory : ℕ → BitVec 32) (m : ℕ → UInt8)
    (hx : (heapOn m (bootPages storage start size memory)).heap.pages.2.exhausted = false)
    {cs : List Call}
    (hp : Along Calls Plenty (heapOn m (bootPages storage start size memory)) cs) :
    PagesKept (bootPages storage start size memory)
        (heapOn m (bootPages storage start size memory)).heap.pages
        (heapOn m (bootPages storage start size memory)).heap.currentBreak ∧
      (Along Calls KeepsPages (heapOn m (bootPages storage start size memory)) cs ↔
        Along Calls AlignedGrowth (heapOn m (bootPages storage start size memory)) cs) := by
  obtain ⟨hb, hclear⟩ := boot_backed storage start memory hs hd (heapOn_exhausted hx)
  obtain ⟨_, hmapped, hkept⟩ := heapOn_mapped m hb hclear hx
  refine ⟨hkept, along_iff (I := Mapped) (H := Plenty) ?_ ?_ hmapped hp⟩
  · exact fun x c y hI h hH => keeps_iff_aligned hI h hH
  · exact fun x c y hI h hH hg => hI.step h hH hg

theorem keeps_pages_iff_boot :
    PagesKept (bootPages (fun _ => 0) 0x110000 0x1000000 (fun _ => 0)) bootHeap.heap.pages
        bootHeap.heap.currentBreak ∧
      (Along Calls KeepsPages bootHeap [.kmalloc 5000, .kmalloc 10000] ↔
        Along Calls AlignedGrowth bootHeap [.kmalloc 5000, .kmalloc 10000]) := by
  obtain ⟨hready, hmapped⟩ := bootHeap_ready
  have hplenty := (hready.remapped hmapped).1
  have hframes := hready.frames
  rw [bootHeap] at *
  exact keeps_pages_iff (fun _ => 0) 0x110000 (by decide) (by decide) (fun _ => 0) (fun _ => 0)
    hframes hplenty

theorem heap_page_remapped :
    Along Calls Plenty bootHeap [.kmalloc 5000, .kmalloc 10000] ∧
      ¬ Along Calls KeepsPages bootHeap [.kmalloc 5000, .kmalloc 10000] := by
  obtain ⟨hready, hmapped⟩ := bootHeap_ready
  exact hready.remapped hmapped

end Runs

end Veni.Memory.Heap
