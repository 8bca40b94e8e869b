import Veni.Memory.HeapGrowth

/-! No frame is behind two pages of the heap, and none of them is a page table. -/

namespace Veni.Memory

open Veni.Lib Veni.Lib.Transition Vmm

def HeapPage (page : ℕ) : Prop := heapStart ≤ page * pageSize ∧ page * pageSize < heapEnd

structure Exclusive (s : Vmm × Frames) : Prop where
  injective : ∀ p q f, HeapPage p → HeapPage q → s.1.walk p = some f → s.1.walk q = some f → p = q
  apart : ∀ p f, HeapPage p → s.1.walk p = some f → ¬ InUse s.1 f.toNat

section Frames

variable {s : Vmm × Frames} {f : ℕ}

lemma HeapPage.lt {page : ℕ} (h : HeapPage page) : page < 2 ^ 20 ∧ 1024 ≤ page := by
  have hlo := h.1
  have hhi := h.2
  simp only [heapStart, heapEnd, pageSize] at hlo hhi
  omega

lemma Owned.inUse_map (h : Owned s) {va pa flags : BitVec 32}
    (hx : (mapPage Frames.alloc s va pa flags).2.exhausted = false)
    (hf : InUse (mapPage Frames.alloc s va pa flags).1 f) : InUse s.1 f ∨ ¬ FrameUsed s.2.pmm f := by
  have hi := pdIndex_lt va
  have hj := ptIndex_lt va
  cases hp : s.1.present (pdIndex va) with
  | true =>
    simp only [mapPage, hp, if_true] at hf
    exact .inl (InUse.of_same (by rfl) (h.tables.setEntry hi hj hp _).2 hf)
  | false =>
    simp only [mapPage, hp, Bool.false_eq_true, if_false] at hx hf
    obtain ⟨hframe, hunused⟩ := h.fresh (Frames.room_of_alloc hx).1
    obtain ⟨_, _, hfresh, _⟩ := h.alloc hx
    obtain ⟨htables, hpres, htable, hother, _⟩ := h.tables.fresh hi hp hframe hunused
    rw [createTable_eq Frames.alloc s _ hframe] at hf
    rcases InUse.of_same (by rfl) (htables.setEntry hi hj hpres _).2 hf with hdir | ⟨k, hk, hkp, hkt⟩
    · exact .inl (.inl (by simpa using hdir))
    · by_cases hki : k = pdIndex va
      · rw [hki, htable] at hkt
        exact .inr (hkt ▸ hfresh)
      · rw [(hother k hk hki).1] at hkp
        rw [(hother k hk hki).2] at hkt
        exact .inl (.inr ⟨k, hk, hkp, hkt⟩)

lemma Backed.takes (h : Backed s) {q : Pmm} {i : ℕ} (ht : Pmm.Takes s.2.pmm q i) :
    Backed (s.1, { s.2 with pmm := q }) where
  owned := ⟨ht.inv h.owned.inv, h.owned.tables, fun g hg => (h.owned.used g hg).takes ht⟩
  zero := h.zero.takes ht
  frames page hp hge g hg := (h.frames page hp hge g hg).takes ht

structure Spare (s : Vmm × Frames) (f : ℕ) : Prop where
  used : FrameUsed s.2.pmm f
  unmapped : ∀ page g, HeapPage page → s.1.walk page = some g → g.toNat ≠ f
  notTable : ¬ InUse s.1 f

lemma Exclusive.map (he : Exclusive s) (hb : Backed s) (hf : Spare s f) {addr : ℕ} (hhi : addr < heapEnd)
    (hx : (kernelPages.mapPage s addr f).2.exhausted = false) :
    Backed (kernelPages.mapPage s addr f) ∧ Exclusive (kernelPages.mapPage s addr f) := by
  obtain ⟨hbacked, _, x, hxf, hwalk⟩ := hb.mapFrame hf.used (lt_trans hhi (by decide)) hx
  have hinUse : ∀ g, InUse (kernelPages.mapPage s addr f).1 g → InUse s.1 g ∨ ¬ FrameUsed s.2.pmm g :=
    fun g => hb.owned.inUse_map hx
  refine ⟨hbacked, fun p q g hp hq hpg hqg => ?_, fun p g hp hpg huse => ?_⟩
  · rw [hwalk p hp.lt.1] at hpg
    rw [hwalk q hq.lt.1] at hqg
    split at hpg
    · next hpa =>
      split at hqg
      · next hqa => exact hpa.trans hqa.symm
      · cases hpg
        exact absurd hxf (hf.unmapped q _ hq hqg)
    · split at hqg
      · cases hqg
        exact absurd hxf (hf.unmapped p _ hp hpg)
      · exact he.injective p q g hp hq hpg hqg
  · rw [hwalk p hp.lt.1] at hpg
    split at hpg
    · cases hpg
      rw [hxf] at huse
      rcases hinUse f huse with hold | hnew
      · exact hf.notTable hold
      · exact hnew hf.used
    · rcases hinUse g.toNat huse with hold | hnew
      · exact he.apart p g hp hpg hold
      · exact hnew (hb.frames p hp.lt.1 hp.lt.2 g hpg)

lemma Exclusive.takes (he : Exclusive s) (hb : Backed s) {q : Pmm} {i : ℕ}
    (ht : Pmm.Takes s.2.pmm q i) :
    Exclusive (s.1, { s.2 with pmm := q }) ∧ Spare (s.1, { s.2 with pmm := q }) (i * pageSize) := by
  have hfresh := not_frameUsed_taken ht
  refine ⟨⟨he.injective, he.apart⟩, frameUsed_taken ht, fun page g hp hg hgi => ?_, fun huse => ?_⟩
  · exact hfresh (hgi ▸ hb.frames page hp.lt.1 hp.lt.2 g hg)
  · exact hfresh (hb.owned.used _ huse)

end Frames

namespace Heap

lemma tablePages_exhausted {n : ℕ} {s : Vmm × Frames} {addr brk : ℕ}
    (hx : (mapNewPages tablePages n s addr brk).1.2.exhausted = false) : s.2.exhausted = false :=
  loop_exhausted (fun _ h => h) (fun _ _ _ h => mapPage_exhausted h) hx

lemma mapNewPages_exclusive {n : ℕ} {s : Vmm × Frames} (hb : Backed s) (he : Exclusive s)
    {addr brk : ℕ} (hlo : heapStart ≤ addr) (hend : brk ≤ heapEnd)
    (hx : (mapNewPages tablePages n s addr brk).1.2.exhausted = false) :
    Backed (mapNewPages tablePages n s addr brk).1 ∧
      Exclusive (mapNewPages tablePages n s addr brk).1 := by
  induction n generalizing s addr with
  | zero => exact ⟨hb, he⟩
  | succ n ih =>
    simp only [mapNewPages] at hx ⊢
    by_cases hlt : addr < brk
    · rw [if_pos hlt] at hx ⊢
      rcases Pmm.alloc_cases hb.owned.inv with ⟨_, ha⟩ | ⟨i, q, ha, ht⟩
      · simp only [tablePages, ha, if_true] at hx ⊢
        exact ⟨hb, he⟩
      · simp only [tablePages, ha] at hx ⊢
        by_cases hzero : i * pageSize = 0
        · exact absurd (hzero ▸ hb.zero) (not_frameUsed_taken ht)
        · rw [if_neg hzero] at hx ⊢
          obtain ⟨he', hspare⟩ := he.takes hb ht
          obtain ⟨hb'', he''⟩ := he'.map (hb.takes ht) hspare (lt_of_lt_of_le hlt hend)
            (tablePages_exhausted hx)
          exact ih hb'' he'' (by omega) hx
    · rw [if_neg hlt]
      exact ⟨hb, he⟩

structure Confined (x : Session (Vmm × Frames)) : Prop where
  lower : heapStart ≤ x.heap.currentBreak
  upper : x.heap.currentBreak ≤ heapEnd
  pages : x.heap.pages.2.exhausted = false → Backed x.heap.pages ∧ Exclusive x.heap.pages

lemma sbrk_confined {h : Heap (Vmm × Frames)} {size : ℕ} {outs : List (ℕ × ℕ)}
    (hc : Confined ⟨h, outs⟩) (hsum : h.currentBreak + size < 2 ^ 32) :
    heapStart ≤ (sbrk tablePages h size).2.currentBreak ∧
      (sbrk tablePages h size).2.currentBreak ≤ heapEnd ∧
      ((sbrk tablePages h size).2.pages.2.exhausted = false →
        Backed (sbrk tablePages h size).2.pages ∧ Exclusive (sbrk tablePages h size).2.pages) := by
  have hlower := hc.lower
  have hupper := hc.upper
  simp only at hlower hupper
  have hmod : (h.currentBreak + size) % 2 ^ 32 = h.currentBreak + size := Nat.mod_eq_of_lt hsum
  simp only [sbrk, hmod]
  by_cases hend : h.currentBreak + size > heapEnd
  · rw [if_pos hend]
    exact ⟨hlower, hupper, hc.pages⟩
  · rw [if_neg hend]
    have hloop : (mapNewPages tablePages size h.pages h.currentBreak
        (h.currentBreak + size)).1.2.exhausted = false → _ := fun hx =>
      have hpages := hc.pages (tablePages_exhausted hx)
      mapNewPages_exclusive hpages.1 hpages.2 hlower (by omega) hx
    split
    · exact ⟨by simp only; omega, by simp only; omega, hloop⟩
    · exact ⟨hlower, hupper, hloop⟩

def Bounded (_ : Session (Vmm × Frames)) : Call → Prop
  | .kmalloc size => size ≤ heapMaxSize
  | _ => True

def TableCalls (x : Session (Vmm × Frames)) (c : Call) (y : Session (Vmm × Frames)) : Prop :=
  exec tablePages x c = some y

lemma growth_lt {size : ℕ} (h : size ≤ heapMaxSize) : growth size < 0x10000000 + 4096 := by
  simp only [heapMaxSize, heapEnd, heapStart] at h
  have hbounds := alignedSize_bounds (show size < 2 ^ 32 - 27 by omega)
  simp only [growth, pageSize]
  omega

lemma Confined.step {x y : Session (Vmm × Frames)} {c : Call} (h : Confined x) (hc : Bounded x c)
    (hy : TableCalls x c y) : Confined y := by
  have hupper := h.upper
  simp only [heapEnd] at hupper
  cases c with
  | kmalloc size =>
    obtain ⟨r, hr, rfl⟩ := Option.map_eq_some_iff.mp hy
    rcases kmalloc_pages hr with ⟨_, hbrk, hpages⟩ | ⟨_, hbrk, hpages⟩
    · exact ⟨by rw [hbrk]; exact h.lower, by rw [hbrk]; exact h.upper, by rw [hpages]; exact h.pages⟩
    · have hlt := growth_lt hc
      obtain ⟨hlo, hhi, hp⟩ := sbrk_confined (show Confined ⟨x.heap, x.outstanding⟩ from h)
        (show x.heap.currentBreak + growth size < 2 ^ 32 by omega)
      exact ⟨by rw [hbrk]; exact hlo, by rw [hbrk]; exact hhi, by rw [hpages]; exact hp⟩
  | kfree ptr =>
    obtain ⟨h', hr, rfl⟩ := Option.map_eq_some_iff.mp hy
    obtain ⟨hbrk, hpages⟩ := kfree_pages hr
    exact ⟨by rw [hbrk]; exact h.lower, by rw [hbrk]; exact h.upper, by rw [hpages]; exact h.pages⟩
  | write m =>
    cases hy
    exact ⟨h.lower, h.upper, h.pages⟩

def tableHeap (m : ℕ → UInt8) (s : Vmm × Frames) : Session (Vmm × Frames) :=
  ⟨kheapInit tablePages (unused m s), []⟩

lemma tableHeap_confined {s : Vmm × Frames} (m : ℕ → UInt8) (hb : Backed s)
    (hclear : ∀ page < 2 ^ 20, 1024 ≤ page → s.1.walk page = none) : Confined (tableHeap m s) := by
  have hexclusive : Exclusive s := by
    refine ⟨fun p q f hp _ hpf => ?_, fun p f hp hpf => ?_⟩
    · rw [hclear p hp.lt.1 hp.lt.2] at hpf
      cases hpf
    · rw [hclear p hp.lt.1 hp.lt.2] at hpf
      cases hpf
  have hunused : Confined ⟨unused m s, []⟩ :=
    ⟨le_rfl, (by decide : heapStart ≤ heapEnd), fun _ => ⟨hb, hexclusive⟩⟩
  obtain ⟨hpages, hbrk⟩ := kheapInit_pages tablePages (unused m s)
  have hsum : (unused m s).currentBreak + pageSize < 2 ^ 32 := (by decide : heapStart + pageSize < 2 ^ 32)
  obtain ⟨hlo, hhi, hp⟩ := sbrk_confined hunused hsum
  exact ⟨by rw [tableHeap, hbrk]; exact hlo, by rw [tableHeap, hbrk]; exact hhi,
    by rw [tableHeap, hpages]; exact hp⟩

/-- In every run in which `map_page` finds a frame for each table it creates, no frame is behind two
heap pages, and none behind a heap page is the directory or a table. -/
theorem frames_exclusive (storage : ℕ → BitVec 32) (start : ℕ) (memory : ℕ → BitVec 32)
    (m : ℕ → UInt8) {cs : List Call} {x : Session (Vmm × Frames)}
    (hrun : Run (Guarded Bounded TableCalls) (tableHeap m (bootPages storage start 0x1000000 memory))
      cs x) (hx : x.heap.pages.2.exhausted = false) : Exclusive x.heap.pages := by
  obtain ⟨hb, hclear⟩ := boot_backed storage start memory (by decide : 0x1000000 < 2 ^ 32) (by decide)
    (boot_spends storage start memory).2.1
  have hinv := hrun.invariant (I := Confined) (fun _ _ _ h hs => h.step hs.1 hs.2)
    (tableHeap_confined m hb hclear)
  exact (hinv.pages hx).2

lemma TableCalls.spends {x y : Session (Vmm × Frames)} {size k : ℕ}
    (hy : TableCalls x (.kmalloc size) y) (ho : Owned x.heap.pages)
    (hx : x.heap.pages.2.exhausted = false) (hk : growth size ≤ 4096 * k)
    (hu : x.heap.pages.2.pmm.usedPages + 2 * k ≤ x.heap.pages.2.pmm.totalPages) :
    Spends x.heap.pages y.heap.pages (2 * k) := by
  obtain ⟨r, hr, rfl⟩ := Option.map_eq_some_iff.mp hy
  exact kmalloc_spends tablePages_frugal hr ho hx hk hu

lemma tableHeap_kmalloc {s : Vmm × Frames} (m : ℕ → UInt8) {size k : ℕ} (ho : Owned s)
    (hx : s.2.exhausted = false) (hsize : size ≤ heapMaxSize) (hk : growth size ≤ 4096 * k)
    (hu : s.2.pmm.usedPages + 2 + 2 * k ≤ s.2.pmm.totalPages) :
    ∃ x, TableCalls (tableHeap m s) (.kmalloc size) x ∧ x.heap.pages.2.exhausted = false := by
  have hinit : Spends s (tableHeap m s).heap.pages 2 := by
    rw [tableHeap, (kheapInit_pages tablePages (unused m s)).1]
    exact sbrk_spends tablePages_frugal (h := unused m s) (k := 1) ho hx le_rfl
      (by simp only [unused]; omega)
  have hle := hinit.used_le
  have hsame := hinit.total_eq
  obtain ⟨x, hcall, _⟩ := (inv_kheapInit tablePages m s).step tablePages (c := .kmalloc size) hsize
  exact ⟨x, hcall, (TableCalls.spends (x := tableHeap m s) hcall hinit.owned hinit.exhausted hk
    (by omega)).exhausted⟩

theorem frames_exclusive_kmalloc :
    ∃ x, Run (Guarded Bounded TableCalls)
        (tableHeap (fun _ => 0) (bootPages (fun _ => 0) 0x110000 0x1000000 (fun _ => 0)))
        [.kmalloc 5000] x ∧ Exclusive x.heap.pages := by
  obtain ⟨howned, hflag, hused, htotal⟩ := boot_spends (fun _ => 0) 0x110000 (fun _ => 0)
  obtain ⟨x, hx, hflag'⟩ := tableHeap_kmalloc (fun _ => 0) howned hflag
    (show 5000 ≤ heapMaxSize by decide) (show growth 5000 ≤ 4096 * 2 by decide) (by omega)
  have hrun : Run (Guarded Bounded TableCalls)
      (tableHeap (fun _ => 0) (bootPages (fun _ => 0) 0x110000 0x1000000 (fun _ => 0)))
      [.kmalloc 5000] x := .single ⟨(by decide : 5000 ≤ heapMaxSize), hx⟩
  exact ⟨x, hrun, frames_exclusive (fun _ => 0) 0x110000 (fun _ => 0) (fun _ => 0) hrun hflag'⟩

end Heap

end Veni.Memory
