import Veni.Memory.PageExhaustion

/-! `sbrk` once paging is on, when a page table outside the identity map is out of reach. -/

namespace Veni.Memory

open Veni.Lib Vmm

/-- The frame at `f` is mapped at its own address. -/
def Reaches (v : Vmm) (f : ℕ) : Prop := v.walk (f / pageSize) = some (BitVec.ofNat 32 f)

instance (v : Vmm) (f : ℕ) : Decidable (Reaches v f) := inferInstanceAs (Decidable (_ = _))

/-- The frame of the table in which `map_page` stores the word of `addr`. -/
def tableFor (s : Vmm × Frames) (addr : ℕ) : ℕ :=
  if s.1.present (slot addr) then s.1.tableAt (slot addr) else s.2.alloc.1

/-- The page level with paging on. `map_page` addresses the directory and the table by the physical
addresses of their frames; `none` is what follows when one of them is not mapped there as the call
begins. -/
def pagedPages : PageLayer (Option (Vmm × Frames)) where
  pmmAllocPage s :=
    s.elim (0, none) fun s => ((kernelPages.pmmAllocPage s).1, some (kernelPages.pmmAllocPage s).2)
  mapPage s addr page := s.bind fun s =>
    if Reaches s.1 s.1.kernelDirectory ∧ Reaches s.1 (tableFor s addr) then
      some (kernelPages.mapPage s addr page)
    else none

/-- The directory and the first page of the heap are mapped. -/
def Alive (v : Vmm) : Prop := Reaches v v.kernelDirectory ∧ v.walk (heapStart / pageSize) ≠ none

def lowUsed (s : Vmm × Frames) : ℕ := BitSet.count s.2.pmm.bitmap 1024

structure Live (s : Vmm × Frames) : Prop where
  owned : Owned s
  directory : s.1.kernelDirectory = 0
  total_eq : s.2.pmm.totalPages = 4096
  tables : TablesMapped s.1
  low : ∀ page < 4096, s.1.walk page = identityMap page

def Held (s : Vmm × Frames) (f : ℕ) : Prop := FrameUsed s.2.pmm f ∧ ¬ InUse s.1 f

structure Allots (s t : Vmm × Frames) (n : ℕ) : Prop where
  live : Live t
  held : ∀ f, Held s f → Held t f
  used_eq : t.2.pmm.usedPages = s.2.pmm.usedPages + n
  low_eq : lowUsed t = min 1024 (lowUsed s + n)

lemma lowUsed_takes {p q : Pmm} {i : ℕ} (h : Pmm.Takes p q i) :
    BitSet.count q.bitmap 1024 = min 1024 (BitSet.count p.bitmap 1024 + 1) ∧
      (i < 1024 ↔ BitSet.count p.bitmap 1024 < 1024) := by
  have hle := BitSet.count_le p.bitmap 1024
  rw [h.bitmap_eq]
  by_cases hi : i < 1024
  · have hlt : BitSet.count p.bitmap 1024 ≠ 1024 := by
      intro hall
      have hused := (BitSet.count_eq_iff _ _).mp hall i hi
      rw [← Pmm.pageUsed_eq, h.unused] at hused
      cases hused
    rw [BitSet.count_set hi h.unused]
    exact ⟨by omega, iff_of_true hi (by omega)⟩
  · have hall : BitSet.count p.bitmap 1024 = 1024 :=
      (BitSet.count_eq_iff _ _).mpr fun j hj => h.lowest j (by omega)
    have hall' : BitSet.count (BitSet.set p.bitmap i) 1024 = 1024 := by
      refine (BitSet.count_eq_iff _ _).mpr fun j hj => ?_
      rw [BitSet.test_set, (BitSet.count_eq_iff _ _).mp hall j hj, Bool.true_or]
    omega

lemma present_of_walk {v : Vmm} {page : ℕ} (h : v.walk page ≠ none) : v.present (page / 1024) = true := by
  by_contra hp
  exact h (if_neg hp)

section Live

variable {s t u : Vmm × Frames} {addr page m n : ℕ}

lemma Live.allots (h : Live s) : Allots s s 0 :=
  ⟨h, fun _ hf => hf, rfl, by have := BitSet.count_le s.2.pmm.bitmap 1024; simp only [lowUsed]; omega⟩

lemma Live.congr (h : Live s) (hv : t.1 = s.1) (hp : t.2.pmm = s.2.pmm) : Live t :=
  ⟨h.owned.congr hv hp, hv ▸ h.directory, hp ▸ h.total_eq, hv ▸ h.tables, hv ▸ h.low⟩

lemma Allots.trans (h : Allots s t m) (g : Allots t u n) : Allots s u (m + n) where
  live := g.live
  held f hf := g.held f (h.held f hf)
  used_eq := by rw [g.used_eq, h.used_eq, Nat.add_assoc]
  low_eq := by
    rw [g.low_eq, h.low_eq]
    omega

lemma Live.used_le (h : Live s) : s.2.pmm.usedPages ≤ 4096 := by
  rw [h.owned.inv.used_eq, ← h.total_eq]
  exact BitSet.count_le _ _

lemma Live.reaches (h : Live s) {f : ℕ} (ha : f % 4096 = 0) (hf : f < 4096 * 4096) :
    Reaches s.1 f ↔ f < identityEnd := by
  have hback : f / 4096 * 4096 = f := by omega
  rw [Reaches, pageSize, h.low _ (by omega), identityMap, pageSize, hback, identityEnd, pageSize]
  by_cases hlow : f / 4096 < 1024
  · rw [if_pos hlow]
    exact iff_of_true rfl (by omega)
  · rw [if_neg hlow]
    exact iff_of_false (by simp) (by omega)

lemma Live.reaches_directory (h : Live s) : Reaches s.1 s.1.kernelDirectory := by
  rw [h.directory]
  exact (h.reaches rfl (by decide)).mpr (by decide)

lemma Live.alloc (h : Live s) (hroom : s.2.pmm.usedPages < 4096) :
    Allots s (s.1, s.2.alloc.2) 1 ∧ s.2.alloc.1 ≠ 0 ∧ ¬ FrameUsed s.2.pmm s.2.alloc.1 ∧
      (Reaches s.1 s.2.alloc.1 ↔ lowUsed s < 1024) ∧ (s.2.alloc.1 < identityEnd ↔ lowUsed s < 1024) := by
  obtain ⟨i, ha, ht, _⟩ := Frames.alloc_takes h.owned.inv (by rw [h.total_eq]; exact hroom)
  obtain ⟨hlow, hiff⟩ := lowUsed_takes ht
  have hlt := ht.lt
  rw [h.total_eq] at hlt
  have hfresh : ¬ FrameUsed s.2.pmm s.2.alloc.1 := ha ▸ not_frameUsed_taken ht
  have hne : s.2.alloc.1 ≠ 0 := by
    intro hzero
    apply hfresh
    rw [hzero, ← h.directory]
    exact h.owned.used _ (.inl rfl)
  have hend : s.2.alloc.1 < identityEnd ↔ lowUsed s < 1024 := by
    rw [ha, identityEnd, lowUsed, ← hiff]
    simp only [pageSize]
    omega
  have hreaches : Reaches s.1 s.2.alloc.1 ↔ s.2.alloc.1 < identityEnd :=
    h.reaches (by rw [ha]; simp only [pageSize]; omega) (by rw [ha]; simp only [pageSize]; omega)
  refine ⟨⟨⟨⟨ht.inv h.owned.inv, h.owned.tables, fun f hf => (h.owned.used f hf).takes ht⟩, h.directory,
    ht.total_eq.trans h.total_eq, h.tables, h.low⟩, fun f hf => ⟨hf.1.takes ht, hf.2⟩, ht.used_eq, hlow⟩,
    hne, hfresh, hreaches.trans hend, hend⟩

lemma Live.alloc_ne (h : Live s) (hroom : s.2.pmm.usedPages < 4096) :
    (pagedPages.pmmAllocPage (some s)).1 ≠ 0 := (h.alloc hroom).2.1

lemma Live.alloc_used (h : Live s) (hroom : s.2.pmm.usedPages < 4096) :
    FrameUsed s.2.alloc.2.pmm s.2.alloc.1 := by
  obtain ⟨i, ha, ht, _⟩ := Frames.alloc_takes h.owned.inv (by rw [h.total_eq]; exact hroom)
  rw [ha]
  exact frameUsed_taken ht

lemma Live.lowUsed_le (h : Live s) : lowUsed s ≤ s.2.pmm.usedPages := by
  rw [h.owned.inv.used_eq, h.total_eq]
  exact BitSet.count_mono _ (by decide)

variable (hlo : 4096 * pageSize ≤ addr) (hhi : addr < 2 ^ 32)

include hlo hhi

lemma Live.walk_map (h : Live s) (page : ℕ)
    (hroom : s.1.present (slot addr) = false → s.2.pmm.usedPages < 4096) :
    (kernelPages.mapPage s addr page).1.walk (addr / pageSize) ≠ none ∧
      ∀ p < 4096, (kernelPages.mapPage s addr page).1.walk p = identityMap p := by
  have haddr : (BitVec.ofNat 32 addr).toNat / 4096 = addr / pageSize := by
    rw [BitVec.toNat_ofNat, Nat.mod_eq_of_lt hhi, pageSize]
  have hwalk := fun {p} (hp : p < 2 ^ 20) => h.owned.walk_mapPage (BitVec.ofNat 32 addr)
    (BitVec.ofNat 32 page) kernelFlags (fun hpres => by rw [h.total_eq]; exact hroom hpres) hp
  rw [haddr] at hwalk
  have hpage : 4096 ≤ addr / pageSize ∧ addr / pageSize < 2 ^ 20 := by
    simp only [pageSize] at hlo ⊢
    omega
  refine ⟨fun hnone => ?_, fun p hp => ?_⟩
  · have hself := (hwalk hpage.2).trans (if_pos rfl)
    cases hself.symm.trans hnone
  · exact ((hwalk (by omega)).trans (if_neg (by omega))).trans (h.low p hp)

lemma Live.map_present (h : Live s) (hp : s.1.present (slot addr) = true) :
    ∃ t, pagedPages.mapPage (some s) addr page = some t ∧ Allots s t 0 ∧
      t.1.walk (addr / pageSize) ≠ none ∧
      ∀ i < 1024, t.1.present i = s.1.present i ∧ t.1.tableAt i = s.1.tableAt i := by
  have hroom : s.1.present (slot addr) = false → s.2.pmm.usedPages < 4096 := by
    intro habsent
    rw [hp] at habsent
    cases habsent
  obtain ⟨hmapped, hlow⟩ := h.walk_map hlo hhi page hroom
  have hreach : Reaches s.1 (tableFor s addr) := by
    rw [tableFor, if_pos hp]
    have hlt := h.tables _ (slot_lt addr) hp
    refine (h.reaches (tableAt_aligned _ _) (hlt.trans (by decide))).mpr hlt
  obtain ⟨howned, hsame⟩ := h.owned.map_present hp (BitVec.ofNat 32 page) (ptePresent ||| pteRw)
  refine ⟨_, if_pos ⟨h.reaches_directory, hreach⟩, ?_, hmapped, hsame⟩
  have hframes : (kernelPages.mapPage s addr page).2 = s.2 := by
    have hp' : s.1.present (pdIndex (BitVec.ofNat 32 addr)) = true := hp
    simp only [kernelPages, mapPage, hp', if_true]
  have hdir : (kernelPages.mapPage s addr page).1.kernelDirectory = s.1.kernelDirectory :=
    mapPage_directory s _ _ _
  refine ⟨⟨howned, hdir.trans h.directory, hframes ▸ h.total_eq, fun i hi hpi => ?_, hlow⟩,
    fun f hf => ⟨hframes ▸ hf.1, fun hin => hf.2 (InUse.of_same hdir hsame hin)⟩, hframes ▸ rfl, ?_⟩
  · exact (hsame i hi).2.trans_lt (h.tables i hi ((hsame i hi).1.symm.trans hpi))
  · rw [lowUsed, hframes]
    exact h.allots.low_eq

lemma Live.map_absent (h : Live s) (hroom : s.2.pmm.usedPages < 4096)
    (hp : s.1.present (slot addr) = false) (hfree : lowUsed s < 1024) :
    ∃ t, pagedPages.mapPage (some s) addr page = some t ∧ Allots s t 1 ∧
      t.1.walk (addr / pageSize) ≠ none ∧ t.1.present (slot addr) = true ∧ ∀ i < 1024, i ≠ slot addr →
        t.1.present i = s.1.present i ∧ t.1.tableAt i = s.1.tableAt i := by
  obtain ⟨hmapped, hlow⟩ := h.walk_map hlo hhi page fun _ => hroom
  obtain ⟨halloc, _, hfresh, hreach, hend⟩ := h.alloc hroom
  obtain ⟨howned, hframes, hdir, hpres, htable, hother⟩ := h.owned.map_absent
    (by rw [h.total_eq]; exact hroom) hp (BitVec.ofNat 32 page) (ptePresent ||| pteRw)
  have hfor : tableFor s addr = s.2.alloc.1 := if_neg (by rw [hp]; exact Bool.false_ne_true)
  refine ⟨_, if_pos ⟨h.reaches_directory, by rw [hfor]; exact hreach.mpr hfree⟩, ?_, hmapped, hpres, hother⟩
  have hframes' : (kernelPages.mapPage s addr page).2 = s.2.alloc.2 := hframes
  refine ⟨⟨howned, hdir.trans h.directory, hframes' ▸ halloc.live.total_eq, fun i hi hpi => ?_, hlow⟩,
    fun f hf => ⟨hframes' ▸ (halloc.held f hf).1, ?_⟩, hframes' ▸ halloc.used_eq, ?_⟩
  · by_cases hislot : i = slot addr
    · rw [hislot]
      exact htable.trans_lt (hend.mpr hfree)
    · exact (hother i hi hislot).2.trans_lt (h.tables i hi ((hother i hi hislot).1.symm.trans hpi))
  · rintro (hin | ⟨i, hi, hpi, hti⟩)
    · exact hf.2 (.inl (hin.trans hdir))
    · by_cases hislot : i = slot addr
      · rw [hislot] at hti
        exact hfresh (htable.symm.trans hti ▸ hf.1)
      · exact hf.2 (.inr ⟨i, hi, (hother i hi hislot).1 ▸ hpi, (hother i hi hislot).2 ▸ hti⟩)
  · rw [lowUsed, hframes']
    exact halloc.low_eq

omit hlo hhi in
lemma Live.map_fault (h : Live s) (hroom : s.2.pmm.usedPages < 4096)
    (hp : s.1.present (slot addr) = false) (hfull : 1024 ≤ lowUsed s) :
    pagedPages.mapPage (some s) addr page = none := by
  have hfor : tableFor s addr = s.2.alloc.1 := if_neg (by rw [hp]; exact Bool.false_ne_true)
  refine if_neg fun hreach => ?_
  rw [hfor] at hreach
  have := (h.alloc hroom).2.2.2.1.mp hreach.2
  omega

omit hlo hhi in
lemma Live.map_ruins (h : Live s) (hspent : s.2.pmm.usedPages = 4096)
    (hp : s.1.present (slot addr) = false) :
    ∃ t, pagedPages.mapPage (some s) addr page = some t ∧ ¬ Alive t.1 ∧ t.2.pmm = s.2.pmm := by
  obtain ⟨hnull, _, hpmm⟩ := alloc_full (s := s) (by rw [h.total_eq, hspent])
  have hfor : tableFor s addr = 0 := (if_neg (by rw [hp]; exact Bool.false_ne_true)).trans hnull
  have hreach : Reaches s.1 (tableFor s addr) := by
    rw [hfor, ← h.directory]
    exact h.reaches_directory
  refine ⟨_, if_pos ⟨h.reaches_directory, hreach⟩, ?_, ?_⟩
  · rintro ⟨hdir, hheap⟩
    have hdir0 : (kernelPages.mapPage s addr page).1.kernelDirectory = 0 :=
      (mapPage_directory s _ _ _).trans h.directory
    -- one slot is left, and the directory and the heap lie in two
    have hslot : ∀ k < 1024, (kernelPages.mapPage s addr page).1.present k = true →
        k = ptIndex (BitVec.ofNat 32 addr) := by
      intro k hk hpk
      have hone := (null_directory h.directory hnull hp _ _ hk).1.symm.trans hpk
      rw [Bool.and_eq_true, decide_eq_true_eq] at hone
      exact hone.1
    have hfirst := hslot (0 / pageSize / 1024) (by decide) (present_of_walk (by rw [← hdir0, hdir]; simp))
    have hheap := hslot (heapStart / pageSize / 1024) (by decide) (present_of_walk hheap)
    exact absurd (hfirst.trans hheap.symm) (by decide)
  · have hp' : s.1.present (pdIndex (BitVec.ofNat 32 addr)) = false := hp
    have hframe : PageFrame s.2.alloc.1 := by
      rw [show s.2.alloc.1 = 0 from hnull]
      exact ⟨rfl, by decide⟩
    simp only [kernelPages, mapPage, hp', Bool.false_eq_true, if_false,
      createTable_eq Frames.alloc s (pdIndex (BitVec.ofNat 32 addr)) hframe]
    exact hpmm

end Live

/-- An extension from `addr` to `brk` finds a frame for each of its pages. -/
def FramesFit (s : Vmm × Frames) (addr brk : ℕ) : Prop :=
  ∀ j, addr + j * pageSize < brk →
    s.2.pmm.usedPages + framesBefore s.1 addr j < s.2.pmm.totalPages

lemma framesFit_step {s t : Vmm × Frames} {addr brk : ℕ} (hroom : s.2.pmm.usedPages < s.2.pmm.totalPages)
    (hw : ∀ i < 1024, t.1.present i = (s.1.present i || decide (i = slot addr)))
    (hused : t.2.pmm.usedPages =
      s.2.pmm.usedPages + (1 + if s.1.present (slot addr) = false then 1 else 0))
    (htotal : t.2.pmm.totalPages = s.2.pmm.totalPages) :
    FramesFit s addr brk ↔ FramesFit t (addr + pageSize) brk := by
  have hsucc := used_framesBefore_succ hw hused
  constructor
  · intro h j hj
    rw [← hsucc, htotal]
    rw [← addr_succ] at hj
    exact h (j + 1) hj
  · intro h j hj
    cases j with
    | zero => exact hroom
    | succ j =>
      rw [hsucc, ← htotal]
      rw [addr_succ] at hj
      exact h j hj

/-- A page of the extension needs a table, and the frame that is left for it after those of the pages
before and its own lies above the identity map. -/
def Faults (s : Vmm × Frames) (addr brk : ℕ) : Prop :=
  ∃ j, addr + j * pageSize < brk ∧ NeedsTable s.1 addr j ∧
    s.2.pmm.usedPages + framesBefore s.1 addr j + 1 < s.2.pmm.totalPages ∧
      1024 ≤ lowUsed s + framesBefore s.1 addr j + 1

lemma faults_first {s : Vmm × Frames} {addr brk : ℕ} (hlt : addr < brk)
    (habsent : s.1.present (slot addr) = false) (hroom : s.2.pmm.usedPages + 1 < s.2.pmm.totalPages)
    (hfull : 1024 ≤ lowUsed s + 1) : Faults s addr brk := by
  have hzero : framesBefore s.1 addr 0 = 0 := rfl
  refine ⟨0, by simpa using hlt, needsTable_zero.mpr habsent, ?_, ?_⟩
  · rwa [hzero]
  · rwa [hzero]

lemma faults_step {s t : Vmm × Frames} {addr brk : ℕ} (hlt : addr < brk)
    (hw : ∀ i < 1024, t.1.present i = (s.1.present i || decide (i = slot addr)))
    (ht : Allots s t (1 + if s.1.present (slot addr) = false then 1 else 0))
    (htotal : t.2.pmm.totalPages = s.2.pmm.totalPages) :
    Faults s addr brk ↔
      (s.1.present (slot addr) = false ∧ s.2.pmm.usedPages + 1 < s.2.pmm.totalPages ∧ 1024 ≤ lowUsed s + 1) ∨
        Faults t (addr + pageSize) brk := by
  have hzero : framesBefore s.1 addr 0 = 0 := rfl
  have hused := used_framesBefore_succ hw ht.used_eq
  have hlow : ∀ j, 1024 ≤ lowUsed s + framesBefore s.1 addr (j + 1) + 1 ↔
      1024 ≤ lowUsed t + framesBefore t.1 (addr + pageSize) j + 1 := by
    intro j
    rw [framesBefore_succ hw, ht.low_eq]
    omega
  constructor
  · rintro ⟨j, hj, hneeds, hroom, hfull⟩
    cases j with
    | zero =>
      rw [hzero] at hroom hfull
      exact .inl ⟨needsTable_zero.mp hneeds, hroom, hfull⟩
    | succ j =>
      rw [addr_succ] at hj
      rw [hused, ← htotal] at hroom
      exact .inr ⟨j, hj, (needsTable_succ hw j).mp hneeds, hroom, (hlow j).mp hfull⟩
  · rintro (⟨habsent, hroom, hfull⟩ | ⟨j, hj, hneeds, hroom, hfull⟩)
    · exact faults_first hlt habsent hroom hfull
    · rw [← addr_succ] at hj
      rw [← hused, htotal] at hroom
      exact ⟨j + 1, hj, (needsTable_succ hw j).mpr hneeds, hroom, (hlow j).mpr hfull⟩

lemma not_faults_of_spent {s : Vmm × Frames} {addr brk : ℕ}
    (h : s.2.pmm.totalPages ≤ s.2.pmm.usedPages + 1) : ¬ Faults s addr brk := by
  rintro ⟨j, _, _, hroom, _⟩
  omega

lemma fits_of_le {s : Vmm × Frames} {addr brk : ℕ} (h : brk ≤ addr) :
    ¬ Faults s addr brk ∧ FramesFit s addr brk := by
  have hdone : ∀ j, ¬ addr + j * pageSize < brk := fun j => by omega
  exact ⟨fun ⟨j, hj, _⟩ => hdone j hj, fun j hj => absurd hj (hdone j)⟩

lemma not_framesFit_of_spent {s : Vmm × Frames} {addr brk : ℕ} (hlt : addr < brk)
    (h : s.2.pmm.totalPages ≤ s.2.pmm.usedPages) : ¬ FramesFit s addr brk := by
  intro hfit
  have hfirst := hfit 0 (by simpa using hlt)
  omega

lemma framesFit_last {s : Vmm × Frames} {addr brk : ℕ} (habsent : s.1.present (slot addr) = false)
    (hlast : s.2.pmm.usedPages + 1 = s.2.pmm.totalPages) :
    FramesFit s addr brk ↔ brk ≤ addr + pageSize := by
  have hzero : framesBefore s.1 addr 0 = 0 := rfl
  have hone : framesBefore s.1 addr 1 = 2 := by
    simp [framesBefore, List.range_succ, needsTable_zero.mpr habsent]
  constructor
  · intro hfit
    by_contra hmore
    have hsecond := hfit 1 (by omega)
    omega
  · intro hle j hj
    have hj0 : j = 0 := by
      simp only [pageSize] at hj hle
      omega
    rw [hj0, hzero]
    omega

lemma Live.turn {s : Vmm × Frames} (h : Live s) (hroom : s.2.pmm.usedPages < 4096) {addr : ℕ}
    (hlo : 4096 * pageSize ≤ addr) (hhi : addr < 2 ^ 32) {u : Option (Vmm × Frames)}
    (hu : pagedPages.mapPage (pagedPages.pmmAllocPage (some s)).2 addr
      (pagedPages.pmmAllocPage (some s)).1 = u) :
    (s.1.present (slot addr) = false ∧ s.2.pmm.usedPages + 1 < s.2.pmm.totalPages ∧
        1024 ≤ lowUsed s + 1 ∧ u = none) ∨
      (∃ t, u = some t ∧ Allots s t (1 + if s.1.present (slot addr) = false then 1 else 0) ∧
        t.1.walk (addr / pageSize) ≠ none ∧
        (∀ i < 1024, t.1.present i = (s.1.present i || decide (i = slot addr))) ∧
        ¬ (s.1.present (slot addr) = false ∧ s.2.pmm.usedPages + 1 < s.2.pmm.totalPages ∧
          1024 ≤ lowUsed s + 1)) ∨
      (∃ t, u = some t ∧ s.1.present (slot addr) = false ∧ s.2.pmm.usedPages + 1 = 4096 ∧
        ¬ Alive t.1 ∧ Full t) := by
  obtain ⟨halloc, _⟩ := h.alloc hroom
  have hused := halloc.used_eq
  have hlow := halloc.low_eq
  have hlive := halloc.live
  have htotal := hlive.total_eq
  change pagedPages.mapPage (some (s.1, s.2.alloc.2)) addr _ = u at hu
  simp only at hused htotal
  cases hp : s.1.present (slot addr) with
  | true =>
    obtain ⟨t, ht, hallots, hmapped, hsame⟩ := hlive.map_present hlo hhi hp
    refine .inr (.inl ⟨t, hu.symm.trans ht, ?_, hmapped, present_kept hp hsame, fun hn => by simp at hn⟩)
    simpa using halloc.trans hallots
  | false =>
    by_cases hlast : s.2.pmm.usedPages + 1 = 4096
    · obtain ⟨t, ht, halive, hpmm⟩ := hlive.map_ruins (hused.trans hlast) hp
      exact .inr (.inr ⟨t, hu.symm.trans ht, rfl, hlast, halive,
        (congrArg Pmm.usedPages hpmm).trans (hused.trans hlast),
        (congrArg Pmm.totalPages hpmm).trans htotal⟩)
    · by_cases hfull : 1024 ≤ lowUsed s + 1
      · refine .inl ⟨rfl, by rw [h.total_eq]; omega, hfull, hu.symm.trans ?_⟩
        exact hlive.map_fault (by simp only [hused]; omega) hp (by omega)
      · obtain ⟨t, ht, hallots, hmapped, hpres, hother⟩ :=
          hlive.map_absent hlo hhi (by simp only [hused]; omega) hp (by omega)
        refine .inr (.inl ⟨t, hu.symm.trans ht, ?_, hmapped, present_added hpres hother,
          fun hn => hfull hn.2.2⟩)
        simpa using halloc.trans hallots

structure Extends (s t : Vmm × Frames) (addr brk : ℕ) : Prop where
  live : (Live t ∧ ∀ f, Held s f → Held t f) ∨ ¬ Alive t.1
  total_eq : t.2.pmm.totalPages = 4096
  used_bound : t.2.pmm.usedPages ≤ 4096
  used_le : s.2.pmm.usedPages ≤ t.2.pmm.usedPages
  takes : addr < brk → s.2.pmm.usedPages < 4096 → s.2.pmm.usedPages < t.2.pmm.usedPages
  same : s.2.pmm.usedPages = 4096 → t.1 = s.1 ∧ t.2.pmm = s.2.pmm

section Extends

variable {s t u : Vmm × Frames} {addr next brk n : ℕ}

lemma Live.extends_done (h : Live s) (hle : brk ≤ addr) : Extends s s addr brk :=
  ⟨.inl ⟨h, fun _ hf => hf⟩, h.total_eq, h.used_le, le_rfl, fun hlt => by omega, fun _ => ⟨rfl, rfl⟩⟩

lemma Live.extends_spent (h : Live s) (hspent : s.2.pmm.usedPages = 4096) (hv : t.1 = s.1)
    (hp : t.2.pmm = s.2.pmm) : Extends s t addr brk where
  live := .inl ⟨h.congr hv hp, fun f hf => ⟨hp ▸ hf.1, hv ▸ hf.2⟩⟩
  total_eq := (congrArg Pmm.totalPages hp).trans h.total_eq
  used_bound := (congrArg Pmm.usedPages hp).trans_le h.used_le
  used_le := (congrArg Pmm.usedPages hp).ge
  takes _ hroom := by omega
  same _ := ⟨hv, hp⟩

lemma Live.extends_ruined (hroom : s.2.pmm.usedPages < 4096) (hdead : ¬ Alive t.1) (hfull : Full t)
    (hv : u.1 = t.1) (hp : u.2.pmm = t.2.pmm) : Extends s u addr brk := by
  have hused := (congrArg Pmm.usedPages hp).trans hfull.used_eq
  exact ⟨.inr (hv ▸ hdead), (congrArg Pmm.totalPages hp).trans hfull.total_eq, hused.le, by omega,
    fun _ _ => by omega, fun hall => by omega⟩

lemma Extends.after (h : Extends t u next brk) (ht : Allots s t n) (hpos : 0 < n) :
    Extends s u addr brk := by
  have hused := ht.used_eq
  have hle := h.used_le
  have hbound := h.used_bound
  exact ⟨h.live.imp_left fun hlive => ⟨hlive.1, fun f hf => hlive.2 f (ht.held f hf)⟩, h.total_eq, hbound,
    by omega, fun _ _ => by omega, fun hall => by omega⟩

end Extends

namespace Heap

lemma spent_mapNewPages {s : Vmm × Frames} (h : s.2.pmm.totalPages ≤ s.2.pmm.usedPages) {n addr brk : ℕ}
    (hn : brk ≤ addr + n * pageSize) :
    ∃ t, mapNewPages pagedPages n (some s) addr brk = (some t, decide (brk ≤ addr)) ∧ t.1 = s.1 ∧
      t.2.pmm = s.2.pmm := by
  by_cases hlt : addr < brk
  · cases n with
    | zero => omega
    | succ n =>
      obtain ⟨hzero, hv, hpmm⟩ := alloc_full h
      have hnull : (pagedPages.pmmAllocPage (some s)).1 = 0 := hzero
      refine ⟨(kernelPages.pmmAllocPage s).2, ?_, hv, hpmm⟩
      simp only [mapNewPages]
      rw [if_pos hlt, if_pos hnull, decide_eq_false (Nat.not_le.mpr hlt)]
      rfl
  · refine ⟨s, ?_, rfl, rfl⟩
    rw [decide_eq_true (Nat.not_lt.mp hlt)]
    cases n with
    | zero => rfl
    | succ n =>
      simp only [mapNewPages]
      rw [if_neg hlt]

lemma none_mapNewPages (n addr brk : ℕ) : (mapNewPages pagedPages n none addr brk).1 = none := by
  cases n with
  | zero => rfl
  | succ n =>
    simp only [mapNewPages]
    split
    · rw [if_pos (by rfl)]
      rfl
    · rfl

lemma live_mapNewPages {s : Vmm × Frames} (h : Live s) {n addr brk : ℕ} (hn : brk ≤ addr + n * pageSize)
    (hlo : 4096 * pageSize ≤ addr) (hend : brk ≤ heapEnd) :
    (Faults s addr brk ∧ (mapNewPages pagedPages n (some s) addr brk).1 = none) ∨
      (¬ Faults s addr brk ∧ ∃ t b, mapNewPages pagedPages n (some s) addr brk = (some t, b) ∧
        (b = true ↔ FramesFit s addr brk) ∧ Extends s t addr brk) := by
  induction n generalizing s addr with
  | zero =>
    have hle : brk ≤ addr := by omega
    obtain ⟨hfine, hfit⟩ := fits_of_le (s := s) hle
    exact .inr ⟨hfine, s, true, rfl, iff_of_true rfl hfit, h.extends_done hle⟩
  | succ n ih =>
    by_cases hlt : addr < brk
    · have hhi : addr < 2 ^ 32 := by
        simp only [heapEnd] at hend
        omega
      by_cases hroom : s.2.pmm.usedPages < 4096
      · have hpage := h.alloc_ne hroom
        have hturn := h.turn hroom hlo hhi rfl
        simp only [mapNewPages]
        rw [if_pos hlt, if_neg hpage]
        generalize pagedPages.mapPage _ _ _ = u at *
        have hnext : brk ≤ addr + pageSize + n * pageSize := by rwa [← addr_succ]
        rcases hturn with ⟨habsent, hlast, hfull, rfl⟩ | ⟨t, rfl, ht, _, hw, hno⟩ |
          ⟨t, rfl, habsent, hlast, hdead, hfull⟩
        · exact .inl ⟨faults_first hlt habsent hlast hfull, none_mapNewPages n _ _⟩
        · have htotal := ht.live.total_eq.trans h.total_eq.symm
          rw [faults_step hlt hw ht htotal, or_iff_right hno,
            framesFit_step (by rw [h.total_eq]; exact hroom) hw ht.used_eq htotal]
          rcases ih ht.live hnext (by omega) with hfault | ⟨hfine, v, b, hv, hb, hext⟩
          · exact .inl hfault
          · exact .inr ⟨hfine, v, b, hv, hb, hext.after ht (by omega)⟩
        -- the last frame goes to the page, and none is left for its table
        · obtain ⟨v, hv, hv₁, hpmm⟩ := spent_mapNewPages hfull.le hnext
          have hone := hlast.trans h.total_eq.symm
          refine .inr ⟨not_faults_of_spent hone.ge, v, _, hv, ?_,
            Live.extends_ruined hroom hdead hfull hv₁ hpmm⟩
          rw [decide_eq_true_eq, framesFit_last habsent hone]
      · have hspent : s.2.pmm.usedPages = 4096 := Nat.le_antisymm h.used_le (by omega)
        have hall : s.2.pmm.totalPages ≤ s.2.pmm.usedPages := by rw [h.total_eq, hspent]
        obtain ⟨v, hv, hv₁, hpmm⟩ := spent_mapNewPages hall hn
        refine .inr ⟨not_faults_of_spent (by omega), v, _, hv, ?_, h.extends_spent hspent hv₁ hpmm⟩
        rw [decide_eq_true_eq]
        exact iff_of_false (by omega) (not_framesFit_of_spent hlt hall)
    · have hle := Nat.not_lt.mp hlt
      obtain ⟨hfine, hfit⟩ := fits_of_le (s := s) hle
      simp only [mapNewPages]
      rw [if_neg hlt]
      exact .inr ⟨hfine, s, true, rfl, iff_of_true rfl hfit, h.extends_done hle⟩

end Heap

end Veni.Memory
