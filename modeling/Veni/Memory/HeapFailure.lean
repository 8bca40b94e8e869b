import Veni.Memory.HeapBounds
import Veni.Memory.HeapPaging

/-! Calls of `kmalloc` that return NULL: what the rollback of `sbrk` leaves behind. -/

namespace Veni.Memory.Heap

open Veni.Lib Veni.Lib.Transition Vmm

section Null

variable {π : Type*} {L : PageLayer π} {h : Heap π}

lemma sbrk_fst (n : ℕ) : (sbrk L h n).1 = 0 ∨ (sbrk L h n).1 = h.currentBreak := by
  simp only [sbrk]
  split
  · exact .inl rfl
  · split
    · exact .inr rfl
    · exact .inl rfl

lemma extend_fst {n : ℕ} {r : ℕ × Heap π} (hr : extend L h n = some r) :
    r.1 = (sbrk L h (max n pageSize)).1 ∧ (r.1 = 0 → r.2 = (sbrk L h (max n pageSize)).2) := by
  have halloc : (if n > pageSize then n else pageSize) = max n pageSize := by
    split <;> omega
  simp only [extend, halloc] at hr
  split at hr
  · next hnull =>
    cases hr
    exact ⟨hnull.symm, fun _ => rfl⟩
  · next hne =>
    split at hr
    · cases hr
      exact ⟨rfl, fun hnull => absurd hnull hne⟩
    · obtain ⟨l, _, hr⟩ := Option.map_eq_some_iff.mp hr
      cases hr
      exact ⟨rfl, fun hnull => absurd hnull hne⟩

lemma NoFit.kmalloc_eq {size : ℕ} (hn : NoFit h size) :
    kmalloc L h size = (extend L h (alignedSize size)).map fun r =>
      if r.1 = 0 then (0, r.2)
      else ((r.1 + sizeofBlockHeader) % 2 ^ 32, { r.2 with
        memory := setIsFree (splitBlock r.2.memory r.1 (alignedSize size)) r.1 0 }) := by
  simp only [kmalloc, hn.1, if_false, hn.2, Option.bind_some, if_true]

lemma Layout.kmalloc_null {bs : List Blocks.Block} (hl : Layout h bs) {size : ℕ} {r : ℕ × Heap π}
    (hr : kmalloc L h size = some r) (hnull : r.1 = 0) :
    (size = 0 ∧ r.2 = h) ∨ (NoFit h size ∧ sbrk L h (growth size) = r) := by
  by_cases hzero : size = 0
  · rw [kmalloc, if_pos hzero] at hr
    cases hr
    exact .inl ⟨hzero, rfl⟩
  right
  rcases findFreeBlock_spec (n := alignedSize size) (by decide) hl.seg hl.length_lt with
    ⟨pre, b, post, rfl, _, _, hfind⟩ | ⟨_, hfind⟩
  · have hne : heapStart + Blocks.total pre ≠ 0 := by
      rw [heapStart]
      omega
    simp only [kmalloc, hzero, if_false, hl.start, hfind, Option.bind_some, hne, Option.map_some,
      Option.some.injEq] at hr
    rw [← hr] at hnull
    simp only [hl.payload_mod] at hnull
    omega
  · have hn : NoFit h size := by
      refine ⟨hzero, ?_⟩
      rw [hl.start]
      exact hfind
    rw [hn.kmalloc_eq] at hr
    obtain ⟨q, hq, hr⟩ := Option.map_eq_some_iff.mp hr
    obtain ⟨hfst, hsnd⟩ := extend_fst hq
    by_cases hq0 : q.1 = 0
    · rw [if_pos hq0] at hr
      refine ⟨hn, ?_⟩
      rw [← hr, hsnd hq0, growth]
      exact Prod.ext (hfst.symm.trans hq0) rfl
    · rw [if_neg hq0] at hr
      rw [← hr] at hnull
      have hb := hl.bounded
      rcases sbrk_fst (L := L) (h := h) (max (alignedSize size) pageSize) with hs | hs
      · exact absurd (hfst.trans hs) hq0
      · rw [hfst, hs] at hnull
        simp only [heapEnd, sizeofBlockHeader] at hb hnull
        have hbrk := hl.brk
        simp only [heapStart] at hbrk
        omega

lemma NoFit.kmalloc_of_null {size : ℕ} (hn : NoFit h size) (hs : (sbrk L h (growth size)).1 = 0) :
    kmalloc L h size = some (0, (sbrk L h (growth size)).2) := by
  have halloc : (if alignedSize size > pageSize then alignedSize size else pageSize) = growth size := by
    rw [growth]
    split <;> omega
  rw [hn.kmalloc_eq]
  simp only [extend, halloc, hs, if_true, Option.map_some]

end Null

section Extensions

variable {h : Heap (Option (Vmm × Frames))} {s : Vmm × Frames} {n : ℕ}

lemma live_sbrk (hs : h.pages = some s) (hl : Live s) (hbrk : heapStart ≤ h.currentBreak)
    (hend : h.currentBreak + n ≤ heapEnd) :
    (Faults s h.currentBreak (h.currentBreak + n) ∧ (sbrk pagedPages h n).2.pages = none) ∨
      (¬ Faults s h.currentBreak (h.currentBreak + n) ∧ ∃ t, (sbrk pagedPages h n).2.pages = some t ∧
        ((sbrk pagedPages h n).1 = 0 ↔ ¬ FramesFit s h.currentBreak (h.currentBreak + n)) ∧
          Extends s t h.currentBreak (h.currentBreak + n)) := by
  have hmod : (h.currentBreak + n) % 2 ^ 32 = h.currentBreak + n :=
    Nat.mod_eq_of_lt (by simp only [heapEnd] at hend; omega)
  have hturns : h.currentBreak + n ≤ h.currentBreak + n * pageSize := by
    simp only [pageSize]
    omega
  have hloop := live_mapNewPages hl hturns (by simp only [pageSize, heapStart] at hbrk ⊢; omega) hend
  simp only [sbrk, hmod, if_neg (Nat.not_lt.mpr hend), hs]
  rcases hloop with ⟨hfault, hnone⟩ | ⟨hfine, t, b, hloop, hb, hext⟩
  · refine .inl ⟨hfault, ?_⟩
    split
    · exact hnone
    · exact hnone
  · refine .inr ⟨hfine, t, ?_⟩
    rw [hloop, ← hb]
    cases b with
    | true => exact ⟨rfl, iff_of_false (by simp only [heapStart] at hbrk; simp; omega) (by simp), hext⟩
    | false => exact ⟨rfl, iff_of_true rfl (by simp), hext⟩

lemma sbrk_limit {π : Type*} {L : PageLayer π} {h : Heap π} (hlt : h.currentBreak + n < 2 ^ 32)
    (hend : heapEnd < h.currentBreak + n) : sbrk L h n = (0, h) := by
  rw [sbrk, Nat.mod_eq_of_lt hlt, if_pos hend]

end Extensions

/-- The heap and the pages under it, and the frames that other callers of `pmm_alloc_page` hold. -/
structure Machine where
  session : Session (Option (Vmm × Frames))
  held : List ℕ

namespace Machine

inductive Event
  | heap (c : Call)
  | pmmAllocPage
  | pmmFreePage (page : ℕ)

def pages (x : Machine) : Option (Vmm × Frames) := x.session.heap.pages

def setPages (x : Machine) (pages : Option (Vmm × Frames)) (held : List ℕ) : Machine :=
  ⟨⟨{ x.session.heap with pages := pages }, x.session.outstanding⟩, held⟩

def exec (x : Machine) : Event → Option Machine
  | .heap c => (Heap.exec pagedPages x.session c).map fun y => ⟨y, x.held⟩
  | .pmmAllocPage =>
    let r := pagedPages.pmmAllocPage x.pages
    some (x.setPages r.2 (if r.1 = 0 then x.held else r.1 :: x.held))
  | .pmmFreePage page =>
    some (x.setPages (x.pages.map fun s => (s.1, { s.2 with pmm := s.2.pmm.pmmFreePage page }))
      (x.held.erase page))

/-- No page fault has stopped the machine, and the directory has not been overwritten. -/
def Running (x : Machine) : Prop := ∃ s, x.pages = some s ∧ Alive s.1

/-- What callers promise: requests that no addition wraps for, and only frames given back that they
hold. -/
def Permitted (x : Machine) : Event → Prop
  | .heap c => Promised x.session c ∧ ∀ size, c = .kmalloc size → Unwrapped x.session.heap size
  | .pmmAllocPage => True
  | .pmmFreePage page => page ∈ x.held

def Step : Machine → Event → Machine → Prop :=
  Guarded (fun x e => x.Running ∧ x.Permitted e) fun x e y => x.exec e = some y

end Machine

/-- The free frames, the translation, the break and the memory of the block list are the same. -/
structure Unchanged (h h' : Heap (Option (Vmm × Frames))) : Prop where
  free : h'.pages.map (fun s => s.2.pmm.pmmGetFreePages) = h.pages.map fun s => s.2.pmm.pmmGetFreePages
  translation : ∀ va, h'.pages.map (fun s => s.1.getPhysicalAddress va) =
    h.pages.map fun s => s.1.getPhysicalAddress va
  currentBreak : h'.currentBreak = h.currentBreak
  blocks : h'.start = h.start ∧ h'.memory = h.memory

/-- A call of `kmalloc` that gets to its end and returns NULL changes nothing. -/
def NullKeeps (x : Machine) (e : Machine.Event) (y : Machine) : Prop :=
  ∀ size, e = .heap (.kmalloc size) → y.pages ≠ none →
    (kmalloc pagedPages x.session.heap size).map Prod.fst = some 0 →
      Unchanged x.session.heap y.session.heap

/-- A call that extends the heap finds a frame for every page, or for none, or it faults. -/
def AllOrNone (x : Machine) (e : Machine.Event) (_ : Machine) : Prop :=
  ∀ size s, e = .heap (.kmalloc size) → x.pages = some s → NoFit x.session.heap size →
    x.session.heap.currentBreak + growth size ≤ heapEnd →
      s.2.pmm.pmmGetFreePages = 0 ∨
        FramesFit s x.session.heap.currentBreak (x.session.heap.currentBreak + growth size) ∨
        Faults s x.session.heap.currentBreak (x.session.heap.currentBreak + growth size)

structure Kept (x : Machine) : Prop where
  inv : Inv x.session
  live : ∀ s, x.pages = some s → Alive s.1 → Live s ∧ ∀ f ∈ x.held, Held s f
  nodup : x.held.Nodup

lemma Unchanged.refl (h : Heap (Option (Vmm × Frames))) : Unchanged h h :=
  ⟨rfl, fun _ => rfl, rfl, rfl, rfl⟩

lemma Unchanged.of_pages {h : Heap (Option (Vmm × Frames))} {s t : Vmm × Frames} (hs : h.pages = some s)
    (hv : t.1 = s.1) (hp : t.2.pmm = s.2.pmm) : Unchanged h { h with pages := some t } :=
  ⟨by simp [hs, hp], fun _ => by simp [hs, hv], rfl, rfl, rfl⟩

lemma free_of_total {s : Vmm × Frames} (htotal : s.2.pmm.totalPages = 4096)
    (hused : s.2.pmm.usedPages ≤ 4096) : s.2.pmm.pmmGetFreePages = 4096 - s.2.pmm.usedPages := by
  simp only [Pmm.pmmGetFreePages, htotal]
  omega

lemma Inv.setPages {x : Machine} (h : Inv x.session) (p : Option (Vmm × Frames)) (held : List ℕ) :
    Inv (x.setPages p held).session := by
  obtain ⟨bs, hl, hledger⟩ := h
  exact ⟨bs, hl.withPages p, hledger⟩

section Steps

variable {x y : Machine} {s : Vmm × Frames}

lemma Kept.alloc (h : Kept x) (hs : x.pages = some s) (halive : Alive s.1)
    (hy : x.exec .pmmAllocPage = some y) : Kept y := by
  obtain ⟨hlive, hheld⟩ := h.live s hs halive
  simp only [Machine.exec, hs] at hy
  cases hy
  by_cases hroom : s.2.pmm.usedPages < 4096
  · obtain ⟨hallots, hne, hfresh, _⟩ := hlive.alloc hroom
    have hframe := hlive.owned.fresh (by rw [hlive.total_eq]; exact hroom)
    have hpage : (pagedPages.pmmAllocPage (some s)).1 ≠ 0 := hne
    rw [if_neg hpage]
    refine ⟨h.inv.setPages _ _, ?_, List.nodup_cons.mpr ⟨fun hmem => hfresh (hheld _ hmem).1, h.nodup⟩⟩
    rintro t ht _
    cases ht
    refine ⟨hallots.live, fun f hf => ?_⟩
    rcases List.mem_cons.mp hf with rfl | hf
    · exact ⟨hlive.alloc_used hroom, hframe.2⟩
    · exact hallots.held f (hheld f hf)
  · obtain ⟨hzero, hv, hpmm⟩ := alloc_full (s := s) (by rw [hlive.total_eq]; omega)
    have hnull : (pagedPages.pmmAllocPage (some s)).1 = 0 := hzero
    rw [if_pos hnull]
    refine ⟨h.inv.setPages _ _, ?_, h.nodup⟩
    rintro t ht _
    cases ht
    exact ⟨hlive.congr hv hpmm, fun f hf => ⟨hpmm ▸ (hheld f hf).1, hv ▸ (hheld f hf).2⟩⟩

lemma Kept.free (h : Kept x) (hs : x.pages = some s) (halive : Alive s.1) {page : ℕ}
    (hpage : page ∈ x.held) (hy : x.exec (.pmmFreePage page) = some y) : Kept y := by
  obtain ⟨hlive, hheld⟩ := h.live s hs halive
  simp only [Machine.exec, hs] at hy
  cases hy
  have hused : ∀ f, f ≠ page → FrameUsed s.2.pmm f → FrameUsed (s.2.pmm.pmmFreePage page) f := by
    intro f hne hf
    obtain ⟨haligned, hlt, hu⟩ := hf
    have hpa := (hheld page hpage).1.1
    refine ⟨haligned, by rwa [Pmm.free_total], ?_⟩
    rw [Pmm.free_pageUsed _ _ _ hlt, hu, Bool.true_and, Bool.not_eq_true', decide_eq_false_iff_not]
    simp only [pageSize]
    omega
  refine ⟨h.inv.setPages _ _, ?_, h.nodup.erase page⟩
  rintro t ht _
  cases ht
  refine ⟨⟨⟨Pmm.free_inv hlive.owned.inv page, hlive.owned.tables, fun f hf => ?_⟩, hlive.directory,
    (Pmm.free_total _ _).trans hlive.total_eq, hlive.tables, hlive.low⟩, fun f hf => ?_⟩
  · refine hused f ?_ (hlive.owned.used f hf)
    rintro rfl
    exact (hheld f hpage).2 hf
  · obtain ⟨hne, hmem⟩ := (h.nodup.mem_erase_iff).mp hf
    exact ⟨hused f hne (hheld f hmem).1, (hheld f hmem).2⟩

lemma Kept.start_le (h : Kept x) : heapStart ≤ x.session.heap.currentBreak := by
  obtain ⟨bs, hl, _⟩ := h.inv
  rw [hl.brk]
  omega

lemma Kept.call (h : Kept x) {c : Call} (hs : x.pages = some s) (halive : Alive s.1)
    (hp : x.Permitted (.heap c)) (hy : x.exec (.heap c) = some y) : Kept y := by
  obtain ⟨hlive, hheld⟩ := h.live s hs halive
  obtain ⟨z, hz, hinv⟩ := h.inv.promised pagedPages hp.1 hp.2
  simp only [Machine.exec, hz] at hy
  cases hy
  have hsame : z.heap.pages = x.pages → Kept ⟨z, x.held⟩ := by
    intro hpages
    refine ⟨hinv, fun t ht _ => ?_, h.nodup⟩
    cases hs.symm.trans (hpages.symm.trans ht)
    exact ⟨hlive, hheld⟩
  cases c with
  | kmalloc size =>
    obtain ⟨r, hr, rfl⟩ := Option.map_eq_some_iff.mp hz
    rcases kmalloc_pages hr with ⟨_, _, hpages⟩ | ⟨hnofit, _, hpages⟩
    · exact hsame hpages
    obtain ⟨bs, hl, _⟩ := h.inv
    have hlt := hl.growth_lt hnofit.1 (hp.2 size rfl)
    by_cases hend : x.session.heap.currentBreak + growth size ≤ heapEnd
    · refine ⟨hinv, fun t ht halive' => ?_, h.nodup⟩
      have ht' : (sbrk pagedPages x.session.heap (growth size)).2.pages = some t := hpages.symm.trans ht
      rcases live_sbrk hs hlive h.start_le hend with ⟨_, hnone⟩ | ⟨_, u, hu, _, hext⟩
      · cases hnone.symm.trans ht'
      · cases hu.symm.trans ht'
        rcases hext.live with hkept | hdead
        · exact ⟨hkept.1, fun f hf => hkept.2 f (hheld f hf)⟩
        · exact absurd halive' hdead
    · exact hsame (hpages.trans (by rw [sbrk_limit hlt (Nat.lt_of_not_le hend)]; rfl))
  | kfree ptr =>
    obtain ⟨h', hr, rfl⟩ := Option.map_eq_some_iff.mp hz
    exact hsame (kfree_pages hr).2
  | write m =>
    cases hz
    exact hsame rfl

lemma Kept.step {e : Machine.Event} (h : Kept x) (hstep : x.Step e y) : Kept y := by
  obtain ⟨⟨⟨s, hs, halive⟩, hp⟩, hy⟩ := hstep
  cases e with
  | heap c => exact h.call hs halive hp hy
  | pmmAllocPage => exact h.alloc hs halive hy
  | pmmFreePage page => exact h.free hs halive hp hy

lemma keeps_of_allOrNone {e : Machine.Event} (h : Kept x) (hstep : x.Step e y) (hall : AllOrNone x e y) :
    NullKeeps x e y := by
  obtain ⟨⟨⟨s, hs, halive⟩, hp⟩, hy⟩ := hstep
  rintro size rfl hreturns hnull
  obtain ⟨hlive, _⟩ := h.live s hs halive
  obtain ⟨r, hr, h0⟩ := Option.map_eq_some_iff.mp hnull
  obtain ⟨bs, hl, _⟩ := h.inv
  simp only [Machine.exec, Heap.exec, hr, Option.map_some] at hy
  cases hy
  change Unchanged x.session.heap r.2
  rcases hl.kmalloc_null hr h0 with ⟨_, hsame⟩ | ⟨hnofit, rfl⟩
  · rw [hsame]
    exact Unchanged.refl _
  have hlt := hl.growth_lt hnofit.1 (hp.2 size rfl)
  by_cases hend : x.session.heap.currentBreak + growth size ≤ heapEnd
  · rcases live_sbrk hs hlive h.start_le hend with ⟨_, hnone⟩ | ⟨hfine, t, ht, hiff, hext⟩
    · exact absurd hnone hreturns
    have hfull : s.2.pmm.usedPages = 4096 := by
      rcases hall size s rfl hs hnofit hend with hfree | hfit | hfault
      · have hused := hlive.used_le
        rw [free_of_total hlive.total_eq hused] at hfree
        omega
      · exact absurd hfit (hiff.mp h0)
      · exact absurd hfault hfine
    obtain ⟨hv, hpmm⟩ := hext.same hfull
    rcases sbrk_spec pagedPages hlt with ⟨p, hsbrk⟩ | ⟨_, p, hsbrk⟩
    · rw [hsbrk] at ht ⊢
      cases ht
      exact Unchanged.of_pages hs hv hpmm
    · rw [hsbrk] at h0
      have hbrk := h.start_le
      simp only [heapStart] at h0 hbrk
      omega
  · rw [sbrk_limit hlt (Nat.lt_of_not_le hend)]
    exact Unchanged.refl _

lemma allOrNone_of_keeps {e : Machine.Event} (h : Kept x) (hstep : x.Step e y) (hk : NullKeeps x e y) :
    AllOrNone x e y := by
  obtain ⟨⟨⟨s, hs, halive⟩, hp⟩, hy⟩ := hstep
  rintro size s' rfl hs' hnofit hend
  cases hs'.symm.trans hs
  by_contra hnot
  obtain ⟨hsome, hnot⟩ := not_or.mp hnot
  obtain ⟨hmiss, hfine⟩ := not_or.mp hnot
  obtain ⟨hlive, _⟩ := h.live s hs halive
  rcases live_sbrk hs hlive h.start_le hend with ⟨hfault, _⟩ | ⟨_, t, ht, hiff, hext⟩
  · exact hfine hfault
  have hkmalloc := hnofit.kmalloc_of_null (hiff.mpr hmiss)
  simp only [Machine.exec, Heap.exec, hkmalloc, Option.map_some] at hy
  cases hy
  have hreturns : (sbrk pagedPages x.session.heap (growth size)).2.pages ≠ none := by
    rw [ht]
    exact Option.some_ne_none t
  have hsame := (hk size rfl hreturns (by rw [hkmalloc]; rfl)).free
  have hpages : x.session.heap.pages = some s := hs
  simp only [ht, hpages, Option.map_some, Option.some.injEq] at hsame
  rw [free_of_total hext.total_eq hext.used_bound, free_of_total hlive.total_eq hlive.used_le] at hsame
  rw [free_of_total hlive.total_eq hlive.used_le] at hsome
  have hpos := growth_pos size
  have htakes := hext.takes (by omega) (by omega)
  have hbound := hext.used_bound
  omega

end Steps

section Boot

variable (storage : ℕ → BitVec 32) (start : ℕ) (memory : ℕ → BitVec 32) (m : ℕ → UInt8)

/-- `kheap_init` after `vmm_init` has turned paging on. -/
def bootMachine : Machine :=
  ⟨⟨kheapInit pagedPages (unused m (some (bootPages storage start 0x1000000 memory))), []⟩, []⟩

lemma bootPages_live : Live (bootPages storage start 0x1000000 memory) ∧
    (bootPages storage start 0x1000000 memory).2.pmm.usedPages = 2 ∧
    (bootPages storage start 0x1000000 memory).1.present (slot heapStart) = false := by
  obtain ⟨hf, hp, hm⟩ := bootPages_fills storage start memory
  have hrefines := bootPages_refines storage start memory (by decide : 0x1000000 < 2 ^ 32) (by decide)
    (boot_spends storage start memory).2.1
  refine ⟨⟨hf.owned, hf.directory, hf.total, hm, fun page hp => hrefines.walk_eq page (by omega)⟩,
    hf.used_eq, ?_⟩
  rw [hp _ (slot_lt _)]
  decide

omit storage start memory in
lemma kheapInit_first {π : Type*} {L : PageLayer π} {p : π} (hpage : (L.pmmAllocPage p).1 ≠ 0) :
    (kheapInit L (unused m p)).pages =
        L.mapPage (L.pmmAllocPage p).2 heapStart (L.pmmAllocPage p).1 ∧
      (kheapInit L (unused m p)).currentBreak = heapStart + pageSize := by
  have hmod : (heapStart + pageSize) % 2 ^ 32 = heapStart + pageSize := by decide
  rw [(kheapInit_pages L _).1, (kheapInit_pages L _).2]
  simp only [sbrk, unused, hmod]
  rw [if_neg (by decide), mapNewPages_one (by decide) (by decide) le_rfl hpage]
  exact ⟨rfl, rfl⟩

lemma bootMachine_spec : Kept (bootMachine storage start memory m) ∧
    (bootMachine storage start memory m).session.heap.currentBreak = heapStart + pageSize ∧
    ∃ s, (bootMachine storage start memory m).pages = some s ∧ Alive s.1 ∧ s.2.pmm.usedPages = 4 ∧
      s.1.present (slot heapStart) = true := by
  obtain ⟨hlive, hused, habsent⟩ := bootPages_live storage start memory
  obtain ⟨s, hs⟩ : ∃ s, bootPages storage start 0x1000000 memory = s := ⟨_, rfl⟩
  rw [hs] at hlive hused habsent
  rw [bootMachine, hs]
  have hlow := hlive.lowUsed_le
  have hroom : s.2.pmm.usedPages < 4096 := by omega
  have hpage := hlive.alloc_ne hroom
  have hturn := hlive.turn hroom (by decide : 4096 * pageSize ≤ heapStart) (by decide) rfl
  obtain ⟨hpages, hbreak⟩ := kheapInit_first m hpage
  have hinv := inv_kheapInit pagedPages m (some s)
  generalize kheapInit pagedPages (unused m (some s)) = h at *
  rcases hturn with ⟨_, _, hfull, _⟩ | ⟨t, ht, hallots, hmapped, hw, _⟩ | ⟨_, _, _, hlast, _⟩
  · omega
  · rw [ht] at hpages
    refine ⟨⟨hinv, fun u hu _ => ?_, List.nodup_nil⟩, hbreak, t, hpages, ⟨hallots.live.reaches_directory, hmapped⟩, ?_, ?_⟩
    · cases hpages.symm.trans hu
      exact ⟨hallots.live, fun f hf => by cases hf⟩
    · rw [hallots.used_eq, hused, if_pos habsent]
    · rw [hw _ (slot_lt _)]
      simp
  · omega

end Boot

/-- In every run from boot, a call of `kmalloc` that returns NULL leaves the memory manager as it was
if and only if every extension of the heap finds a frame for each of its pages, or none at all, or
faults on a page table. -/
theorem null_keeps_iff (storage : ℕ → BitVec 32) (start : ℕ) (memory : ℕ → BitVec 32)
    (m : ℕ → UInt8) (es : List Machine.Event) :
    Along Machine.Step NullKeeps (bootMachine storage start memory m) es ↔
      Along Machine.Step AllOrNone (bootMachine storage start memory m) es := by
  apply along_iff (I := Kept) (H := fun _ _ _ => True) _ _ (bootMachine_spec storage start memory m).1
    (along_true _ _)
  · exact fun x e y hI hs _ => ⟨allOrNone_of_keeps hI hs, keeps_of_allOrNone hI hs⟩
  · exact fun x e y hI hs _ _ => hI.step hs

lemma allocs_run {x : Machine} {s : Vmm × Frames} (h : Kept x) (hs : x.pages = some s) (halive : Alive s.1)
    {n : ℕ} (hn : s.2.pmm.usedPages + n ≤ 4096) :
    ∃ y t, Run Machine.Step x (List.replicate n .pmmAllocPage) y ∧ Kept y ∧ y.pages = some t ∧ t.1 = s.1 ∧
      t.2.pmm.usedPages = s.2.pmm.usedPages + n ∧
      y.session.heap.currentBreak = x.session.heap.currentBreak := by
  induction n generalizing x s with
  | zero => exact ⟨x, s, .nil x, h, hs, rfl, rfl, rfl⟩
  | succ n ih =>
    obtain ⟨hlive, _⟩ := h.live s hs halive
    have hallots := (hlive.alloc (by omega)).1
    have hused := hallots.used_eq
    obtain ⟨y, hy⟩ : ∃ y, x.exec .pmmAllocPage = some y := ⟨_, rfl⟩
    have hstep : x.Step .pmmAllocPage y := ⟨⟨⟨s, hs, halive⟩, trivial⟩, hy⟩
    have hbreak : y.session.heap.currentBreak = x.session.heap.currentBreak := by
      cases hy
      rfl
    have hpages : y.pages = some (s.1, s.2.alloc.2) := by
      simp only [Machine.exec, hs] at hy
      cases hy
      rfl
    obtain ⟨z, t, hrun, hz, ht, hv, hcount, hbrk⟩ := ih (h.step hstep) hpages halive
      (by rw [hused]; omega)
    refine ⟨z, t, .cons hstep hrun, hz, ht, hv, ?_, hbrk.trans hbreak⟩
    rw [hcount, hused]
    omega

/-- With two frames left, a request of 12 KiB takes both and returns NULL. -/
theorem null_spends_frames :
    ¬ Along Machine.Step NullKeeps (bootMachine (fun _ => 0) 0x110000 (fun _ => 0) fun _ => 0)
      (List.replicate 4090 .pmmAllocPage ++ [.heap (.kmalloc 12288)]) := by
  obtain ⟨hkept, hbrk, s, hs, halive, hused, hpres⟩ :=
    bootMachine_spec (fun _ => 0) 0x110000 (fun _ => 0) fun _ => 0
  generalize bootMachine (fun _ => 0) 0x110000 (fun _ => 0) (fun _ => 0) = x at *
  obtain ⟨y, t, hrun, hy, ht, hv, hcount, hbrk'⟩ := allocs_run hkept hs halive (n := 4090) (by omega)
  rw [hbrk] at hbrk'
  rw [hused] at hcount
  have halive' : Alive t.1 := hv ▸ halive
  obtain ⟨hlive, _⟩ := hy.live t ht halive'
  obtain ⟨bs, hl, hledger⟩ := hy.inv
  have hpermitted : y.Permitted (.heap (.kmalloc 12288)) := by
    refine ⟨(by decide : 12288 < 2 ^ 32), fun size he => ?_⟩
    cases he
    exact hl.unwrapped (by decide)
  obtain ⟨z, hz, _⟩ := hy.inv.promised pagedPages hpermitted.1 hpermitted.2
  have hstep : y.Step (.heap (.kmalloc 12288)) ⟨z, y.held⟩ :=
    ⟨⟨⟨t, ht, halive'⟩, hpermitted⟩, by simp only [Machine.exec, hz, Option.map_some]⟩
  have hnofit : NoFit y.session.heap 12288 := noFit_of_total hl (by decide) (by rw [hbrk']; decide)
  intro hkeeps
  have hall := allOrNone_of_keeps hy hstep (hkeeps.run hrun hstep) 12288 t rfl ht hnofit
    (by rw [hbrk']; decide)
  have hgrowth : growth 12288 = 12308 := by decide
  rw [hbrk', hgrowth] at hall
  rcases hall with hfree | hfit | ⟨j, hj, ⟨habsent, _⟩, _⟩
  · rw [free_of_total hlive.total_eq hlive.used_le] at hfree
    omega
  · have hpage := hfit 2 (by decide)
    have hbefore := (framesBefore_bounds t.1 (heapStart + pageSize) 2).1
    rw [hlive.total_eq] at hpage
    omega
  · have hslot : slot (heapStart + pageSize + j * pageSize) = slot heapStart := by
      simp only [pageSize] at hj ⊢
      rw [slot, slot, pdIndex_eq, pdIndex_eq, BitVec.toNat_ofNat, BitVec.toNat_ofNat]
      simp only [heapStart] at hj ⊢
      omega
    rw [hslot, hv, hpres] at habsent
    cases habsent

end Veni.Memory.Heap
