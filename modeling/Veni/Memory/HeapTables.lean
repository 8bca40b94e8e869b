import Veni.Memory.HeapGrowth
import Veni.Memory.KernelFrames

/-! Where the page tables lie: `map_page` reaches a table through the identity map of 4 MiB only. -/

namespace Veni.Memory

open Veni.Lib Veni.Lib.Transition Vmm

def identityEnd : ℕ := 1024 * pageSize

def TablesMapped (v : Vmm) : Prop :=
  ∀ i < 1024, v.present i = true → v.tableAt i < identityEnd

structure Fills (s : Vmm × Frames) (k : ℕ) : Prop where
  owned : Owned s
  directory : s.1.kernelDirectory = 0
  filled : KernelFrames.Filled s.2.pmm k
  used_eq : s.2.pmm.usedPages = k
  pos : 0 < k
  le : k ≤ 4096

section Frames

variable {s : Vmm × Frames} {k : ℕ}

lemma Fills.congr {t : Vmm × Frames} (h : Fills s k) (hv : t.1 = s.1) (hp : t.2.pmm = s.2.pmm) :
    Fills t k :=
  ⟨h.owned.congr hv hp, hv ▸ h.directory, hp ▸ h.filled, hp ▸ h.used_eq, h.pos, h.le⟩

lemma Fills.total (h : Fills s k) : s.2.pmm.totalPages = 4096 := h.filled.total_eq

lemma Fills.tableAt_two (h : Fills s 2) {i : ℕ} (hi : i < 1024) (hp : s.1.present i = true) :
    s.1.tableAt i = pageSize := by
  obtain ⟨haligned, hlt, hused⟩ := h.owned.used _ (.inr ⟨i, hi, hp, rfl⟩)
  have hne := h.owned.tables.directory_ne i hi hp
  rw [h.directory] at hne
  rw [h.filled.used_iff _ (h.total ▸ hlt), decide_eq_true_eq] at hused
  simp only [pageSize] at hused ⊢
  omega

lemma Fills.alloc (h : Fills s k) (hk : k < 4096) :
    s.2.alloc.1 = k * pageSize ∧ Fills (s.1, s.2.alloc.2) (k + 1) := by
  obtain ⟨ha, hfilled⟩ := h.filled.alloc hk
  obtain ⟨i, _, ht, _⟩ := Frames.alloc_takes h.owned.inv (by rw [h.used_eq, h.total]; exact hk)
  refine ⟨ha, ⟨ht.inv h.owned.inv, h.owned.tables, fun f hf => (h.owned.used f hf).takes ht⟩,
    h.directory, hfilled, ?_, Nat.succ_pos k, hk⟩
  rw [ht.used_eq, h.used_eq]

lemma Fills.map_present (h : Fills s k) {va : BitVec 32} (hp : s.1.present (pdIndex va) = true)
    (pa flags : BitVec 32) :
    Fills (mapPage Frames.alloc s va pa flags) k ∧
      ∀ i < 1024, (mapPage Frames.alloc s va pa flags).1.present i = s.1.present i ∧
        (mapPage Frames.alloc s va pa flags).1.tableAt i = s.1.tableAt i := by
  obtain ⟨howned, hsame⟩ := h.owned.map_present hp pa flags
  refine ⟨?_, hsame⟩
  simp only [mapPage, hp, if_true] at howned ⊢
  exact ⟨howned, h.directory, h.filled, h.used_eq, h.pos, h.le⟩

lemma Fills.map_absent (h : Fills s k) (hk : k < 4096) {va : BitVec 32}
    (hp : s.1.present (pdIndex va) = false) (pa flags : BitVec 32) :
    Fills (mapPage Frames.alloc s va pa flags) (k + 1) ∧
      (mapPage Frames.alloc s va pa flags).1.present (pdIndex va) = true ∧
      (mapPage Frames.alloc s va pa flags).1.tableAt (pdIndex va) = k * pageSize ∧
      ∀ i < 1024, i ≠ pdIndex va →
        (mapPage Frames.alloc s va pa flags).1.present i = s.1.present i ∧
          (mapPage Frames.alloc s va pa flags).1.tableAt i = s.1.tableAt i := by
  have hroom : s.2.pmm.usedPages < s.2.pmm.totalPages := by
    rw [h.used_eq, h.total]
    exact hk
  obtain ⟨ha, hfills⟩ := h.alloc hk
  obtain ⟨howned, hframes, hdir, hpres, htable, hother⟩ := h.owned.map_absent hroom hp pa flags
  exact ⟨⟨howned, hdir.trans h.directory, hframes ▸ hfills.filled, hframes ▸ hfills.used_eq, hfills.pos,
    hfills.le⟩, hpres, htable.trans ha, hother⟩

lemma Fills.map_full (h : Fills s 4096) {va : BitVec 32} (hp : s.1.present (pdIndex va) = false)
    (pa : BitVec 32) (flags : PteFlags) :
    (mapPage Frames.alloc s va pa flags.bits).2.pmm = s.2.pmm ∧
      (mapPage Frames.alloc s va pa flags.bits).1.present (ptIndex va) = true ∧
      (mapPage Frames.alloc s va pa flags.bits).1.tableAt (ptIndex va) =
        (pa &&& ~~~0xFFF#32).toNat := by
  have hi := pdIndex_lt va
  have hj := ptIndex_lt va
  have hpmm : Pmm.pmmAllocPage s.2.pmm = (0, s.2.pmm) := by
    rw [Pmm.pmmAllocPage, if_pos (by rw [h.used_eq, h.total])]
  have halloc : s.2.alloc.1 = 0 ∧ s.2.alloc.2.pmm = s.2.pmm := by
    simp only [Frames.alloc, hpmm, and_self]
  have hframe : PageFrame s.2.alloc.1 := by
    rw [halloc.1]
    exact ⟨rfl, by decide⟩
  have hcreate := createTable_eq Frames.alloc s (pdIndex va) hframe
  rw [halloc.1, h.directory] at hcreate
  simp only [mapPage, hp, Bool.false_eq_true, if_false, hcreate]
  generalize hx : (pa &&& ~~~0xFFF#32) ||| flags.bits = x
  have htable : ((s.1.setEntry 0 (pdIndex va)
      (BitVec.ofNat 32 0 ||| pdePresent ||| pdeRw)).clearEntries 0).tableAt (pdIndex va) = 0 := by
    simp only [tableAt, clearEntries_directory, setEntry_directory, h.directory]
    rw [entries_clearEntries _ rfl rfl hi, if_pos rfl]
    rfl
  have hentry : (((s.1.setEntry 0 (pdIndex va)
      (BitVec.ofNat 32 0 ||| pdePresent ||| pdeRw)).clearEntries 0).setEntry 0 (ptIndex va) x).entries 0
        (ptIndex va) = x := by
    rw [entries_setEntry _ _ rfl rfl hj hj, if_pos ⟨rfl, rfl⟩]
  rw [htable]
  refine ⟨halloc.2, ?_, ?_⟩
  · simp only [present, setEntry_directory, clearEntries_directory, h.directory, hentry, bne_iff_ne]
    rw [← hx]
    exact flags.entry_present pa
  · simp only [tableAt, setEntry_directory, clearEntries_directory, h.directory, hentry]
    rw [← hx, flags.entry_base pa]

structure Full (s : Vmm × Frames) : Prop where
  used_eq : s.2.pmm.usedPages = 4096
  total_eq : s.2.pmm.totalPages = 4096

lemma Full.le (h : Full s) : s.2.pmm.totalPages ≤ s.2.pmm.usedPages :=
  (h.total_eq.trans h.used_eq.symm).le

def slot (addr : ℕ) : ℕ := pdIndex (BitVec.ofNat 32 addr)

lemma slot_lt (addr : ℕ) : slot addr < 1024 := pdIndex_lt _

lemma Fills.turn (h : Fills s k) (hk : k < 4096) (addr : ℕ) {t : Vmm × Frames}
    (ht : kernelPages.mapPage (kernelPages.pmmAllocPage s).2 addr (kernelPages.pmmAllocPage s).1 = t) :
    (kernelPages.pmmAllocPage s).1 ≠ 0 ∧
      ((s.1.present (slot addr) = true ∧ Fills t (k + 1) ∧
          ∀ i < 1024, t.1.present i = s.1.present i ∧ t.1.tableAt i = s.1.tableAt i) ∨
        (s.1.present (slot addr) = false ∧ Fills t (k + 2) ∧ t.1.present (slot addr) = true ∧
          t.1.tableAt (slot addr) = (k + 1) * pageSize ∧ ∀ i < 1024, i ≠ slot addr →
            t.1.present i = s.1.present i ∧ t.1.tableAt i = s.1.tableAt i) ∨
        (s.1.present (slot addr) = false ∧ k + 1 = 4096 ∧ ¬ TablesMapped t.1 ∧ Full t)) := by
  obtain ⟨ha, hfills⟩ := h.alloc hk
  have hpos := h.pos
  subst ht
  simp only [kernelPages, ha, slot]
  refine ⟨by simp only [pageSize]; omega, ?_⟩
  cases hp : s.1.present (pdIndex (BitVec.ofNat 32 addr)) with
  | true =>
    obtain ⟨hf, hsame⟩ := hfills.map_present hp
      (BitVec.ofNat 32 (k * pageSize)) (ptePresent ||| pteRw)
    exact .inl ⟨rfl, hf, hsame⟩
  | false =>
    by_cases hk' : k + 1 < 4096
    · obtain ⟨hf, hrest⟩ := hfills.map_absent hk' hp
        (BitVec.ofNat 32 (k * pageSize)) (ptePresent ||| pteRw)
      exact .inr (.inl ⟨rfl, hf, hrest⟩)
    · have hlast : k + 1 = 4096 := by omega
      rw [hlast] at hfills
      obtain ⟨hpmm, hpres, htable⟩ := hfills.map_full hp
        (BitVec.ofNat 32 (k * pageSize)) kernelFlags
      refine .inr (.inr ⟨rfl, hlast, fun hm => ?_, ?_⟩)
      · have hlt := htable.symm.trans_lt (hm _ (ptIndex_lt _) hpres)
        have hkeq : k = 4095 := by omega
        subst hkeq
        exact absurd hlt (by decide)
      · have hused := (congrArg Pmm.usedPages hpmm).trans hfills.used_eq
        have htotal := (congrArg Pmm.totalPages hpmm).trans hfills.total
        exact ⟨hused, htotal⟩

lemma alloc_full (hu : s.2.pmm.totalPages ≤ s.2.pmm.usedPages) :
    (kernelPages.pmmAllocPage s).1 = 0 ∧ (kernelPages.pmmAllocPage s).2.1 = s.1 ∧
      (kernelPages.pmmAllocPage s).2.2.pmm = s.2.pmm := by
  have hpmm : Pmm.pmmAllocPage s.2.pmm = (0, s.2.pmm) := by
    rw [Pmm.pmmAllocPage, if_pos hu]
  simp only [kernelPages, Frames.alloc, hpmm, and_self]

end Frames

def NeedsTable (v : Vmm) (addr j : ℕ) : Prop :=
  v.present (slot (addr + j * pageSize)) = false ∧
    ∀ i < j, slot (addr + i * pageSize) ≠ slot (addr + j * pageSize)

instance (v : Vmm) (addr j : ℕ) : Decidable (NeedsTable v addr j) := by
  unfold NeedsTable
  infer_instance

def framesBefore (v : Vmm) (addr j : ℕ) : ℕ :=
  j + (List.range j).countP fun i => decide (NeedsTable v addr i)

/-- Each table that an extension from `addr` to `brk` creates, after the frame of its first page, is
among the first 1024 frames. -/
def TablesFit (s : Vmm × Frames) (addr brk : ℕ) : Prop :=
  ∀ j, addr + j * pageSize < brk →
    s.2.pmm.usedPages + framesBefore s.1 addr j < s.2.pmm.totalPages → NeedsTable s.1 addr j →
      s.2.pmm.usedPages + framesBefore s.1 addr j + 1 < 1024

section Turn

variable {v w : Vmm} {addr : ℕ}

lemma needsTable_zero : NeedsTable v addr 0 ↔ v.present (slot addr) = false := by
  simp [NeedsTable]

lemma addr_succ (addr j : ℕ) : addr + (j + 1) * pageSize = addr + pageSize + j * pageSize := by
  rw [Nat.add_mul]
  omega

lemma needsTable_succ
    (hw : ∀ i < 1024, w.present i = (v.present i || decide (i = slot addr))) (j : ℕ) :
    NeedsTable v addr (j + 1) ↔ NeedsTable w (addr + pageSize) j := by
  simp only [NeedsTable, hw _ (slot_lt _), ← addr_succ, Nat.forall_lt_succ_left,
    Bool.or_eq_false_iff, decide_eq_false_iff_not, Nat.zero_mul, Nat.add_zero]
  constructor
  · rintro ⟨hp, hne, hall⟩
    exact ⟨⟨hp, Ne.symm hne⟩, hall⟩
  · rintro ⟨⟨hp, hne⟩, hall⟩
    exact ⟨hp, Ne.symm hne, hall⟩

lemma framesBefore_succ
    (hw : ∀ i < 1024, w.present i = (v.present i || decide (i = slot addr))) (j : ℕ) :
    framesBefore v addr (j + 1) =
      1 + (if v.present (slot addr) = false then 1 else 0) + framesBefore w (addr + pageSize) j := by
  have hcount : (List.range (j + 1)).countP (fun i => decide (NeedsTable v addr i)) =
      (List.range j).countP (fun i => decide (NeedsTable w (addr + pageSize) i)) +
        if v.present (slot addr) = false then 1 else 0 := by
    rw [List.range_succ_eq_map, List.countP_cons, List.countP_map]
    simp only [Function.comp_def, needsTable_succ hw, needsTable_zero, decide_eq_true_eq]
  rw [framesBefore, framesBefore, hcount]
  omega

lemma present_kept (hp : v.present (slot addr) = true)
    (hsame : ∀ i < 1024, w.present i = v.present i ∧ w.tableAt i = v.tableAt i) :
    ∀ i < 1024, w.present i = (v.present i || decide (i = slot addr)) := by
  intro i hi
  by_cases hislot : i = slot addr
  · rw [(hsame i hi).1, hislot, hp]
    rfl
  · simp [(hsame i hi).1, hislot]

lemma present_added (hpres : w.present (slot addr) = true)
    (hother : ∀ i < 1024, i ≠ slot addr → w.present i = v.present i ∧ w.tableAt i = v.tableAt i) :
    ∀ i < 1024, w.present i = (v.present i || decide (i = slot addr)) := by
  intro i hi
  by_cases hislot : i = slot addr
  · simp [hislot, hpres]
  · simp [(hother i hi hislot).1, hislot]

end Turn

lemma used_framesBefore_succ {s t : Vmm × Frames} {addr : ℕ}
    (hw : ∀ i < 1024, t.1.present i = (s.1.present i || decide (i = slot addr)))
    (hused : t.2.pmm.usedPages =
      s.2.pmm.usedPages + (1 + if s.1.present (slot addr) = false then 1 else 0)) (j : ℕ) :
    s.2.pmm.usedPages + framesBefore s.1 addr (j + 1) =
      t.2.pmm.usedPages + framesBefore t.1 (addr + pageSize) j := by
  rw [framesBefore_succ hw, hused]
  omega

lemma tablesFit_step {s t : Vmm × Frames} {addr brk : ℕ} (hlt : addr < brk)
    (hroom : s.2.pmm.usedPages < s.2.pmm.totalPages)
    (hw : ∀ i < 1024, t.1.present i = (s.1.present i || decide (i = slot addr)))
    (hused : t.2.pmm.usedPages =
      s.2.pmm.usedPages + (1 + if s.1.present (slot addr) = false then 1 else 0))
    (htotal : t.2.pmm.totalPages = s.2.pmm.totalPages) :
    TablesFit s addr brk ↔
      (s.1.present (slot addr) = false → s.2.pmm.usedPages + 1 < 1024) ∧
        TablesFit t (addr + pageSize) brk := by
  have hzero : framesBefore s.1 addr 0 = 0 := rfl
  have hsucc := used_framesBefore_succ hw hused
  constructor
  · intro h
    refine ⟨fun hp => ?_, fun j hj hframe hneeds => ?_⟩
    · exact h 0 (by simpa using hlt) hroom (needsTable_zero.mpr hp)
    · rw [← hsucc] at hframe ⊢
      rw [← addr_succ] at hj
      exact h (j + 1) hj (htotal ▸ hframe) ((needsTable_succ hw j).mpr hneeds)
  · rintro ⟨hfirst, hrest⟩ j hj hframe hneeds
    cases j with
    | zero => exact hfirst (needsTable_zero.mp hneeds)
    | succ j =>
      rw [hsucc] at hframe ⊢
      rw [addr_succ] at hj
      exact hrest j hj (htotal.symm ▸ hframe) ((needsTable_succ hw j).mp hneeds)

namespace Heap

lemma mapNewPages_full {s : Vmm × Frames} (hu : s.2.pmm.totalPages ≤ s.2.pmm.usedPages)
    (n addr brk : ℕ) :
    (mapNewPages kernelPages n s addr brk).1.1 = s.1 ∧
      (mapNewPages kernelPages n s addr brk).1.2.pmm = s.2.pmm := by
  cases n with
  | zero => exact ⟨rfl, rfl⟩
  | succ n =>
    simp only [mapNewPages]
    by_cases hlt : addr < brk
    · obtain ⟨hzero, hv, hpmm⟩ := alloc_full hu
      rw [if_pos hlt, if_pos hzero]
      exact ⟨hv, hpmm⟩
    · rw [if_neg hlt]
      exact ⟨rfl, rfl⟩

lemma mapNewPages_unmapped {n k : ℕ} {s : Vmm × Frames} (h : Fills s k) (hm : ¬ TablesMapped s.1)
    (addr brk : ℕ) : ¬ TablesMapped (mapNewPages kernelPages n s addr brk).1.1 := by
  induction n generalizing s k addr with
  | zero => exact hm
  | succ n ih =>
    by_cases hk : k < 4096
    · simp only [mapNewPages]
      by_cases hlt : addr < brk
      · rw [if_pos hlt]
        obtain ⟨hne, hturn⟩ := h.turn hk addr rfl
        rw [if_neg hne]
        generalize kernelPages.mapPage _ _ _ = t at *
        rcases hturn with ⟨_, hf, hsame⟩ | ⟨hp, hf, _, _, hother⟩ | ⟨_, _, hbad, hfull⟩
        · refine ih hf (fun ht => hm fun i hi hpi => ?_) _
          rw [← (hsame i hi).2]
          exact ht i hi ((hsame i hi).1.trans hpi)
        · refine ih hf (fun ht => hm fun i hi hpi => ?_) _
          have hne' : i ≠ slot addr := by
            rintro rfl
            rw [hp] at hpi
            cases hpi
          rw [← (hother i hi hne').2]
          exact ht i hi ((hother i hi hne').1.trans hpi)
        · rw [(mapNewPages_full hfull.le n _ _).1]
          exact hbad
      · rw [if_neg hlt]
        exact hm
    · rw [(mapNewPages_full (by rw [h.used_eq, h.total]; omega) (n + 1) addr brk).1]
      exact hm

lemma turn_tables {k : ℕ} {s t : Vmm × Frames} (h : Fills s k) (hk : k < 4096)
    (hm : TablesMapped s.1) (addr : ℕ)
    (ht : kernelPages.mapPage (kernelPages.pmmAllocPage s).2 addr (kernelPages.pmmAllocPage s).1 = t) :
    (∃ k', Fills t k' ∧
        (∀ i < 1024, t.1.present i = (s.1.present i || decide (i = slot addr))) ∧
        t.2.pmm.usedPages =
          s.2.pmm.usedPages + (1 + if s.1.present (slot addr) = false then 1 else 0) ∧
        (TablesMapped t.1 ↔ (s.1.present (slot addr) = false → s.2.pmm.usedPages + 1 < 1024))) ∨
      (s.1.present (slot addr) = false ∧ k + 1 = 4096 ∧ ¬ TablesMapped t.1 ∧ Full t) := by
  rcases (h.turn hk addr ht).2 with ⟨hp, hf, hsame⟩ | ⟨hp, hf, hpres, htable, hother⟩ | hfull
  · refine .inl ⟨k + 1, hf, present_kept hp hsame, by simp [hf.used_eq, h.used_eq, hp], ?_⟩
    refine iff_of_true (fun i hi hpi => ?_) fun habsent => by simp [hp] at habsent
    rw [(hsame i hi).2]
    exact hm i hi ((hsame i hi).1 ▸ hpi)
  · refine .inl ⟨k + 2, hf, present_added hpres hother, by simp [hf.used_eq, h.used_eq, hp], ?_⟩
    rw [h.used_eq]
    constructor
    · intro hmapped _
      have hin := hmapped _ (slot_lt addr) hpres
      rw [htable, identityEnd] at hin
      exact Nat.lt_of_mul_lt_mul_right hin
    · intro hlow i hi hpi
      by_cases hislot : i = slot addr
      · rw [hislot, htable]
        exact Nat.mul_lt_mul_of_pos_right (hlow hp) (by decide)
      · rw [(hother i hi hislot).2]
        exact hm i hi ((hother i hi hislot).1 ▸ hpi)
  · exact .inr hfull

lemma mapNewPages_tables {n k : ℕ} {s : Vmm × Frames} (h : Fills s k) (hm : TablesMapped s.1)
    {addr brk : ℕ} (hn : brk ≤ addr + n * pageSize) :
    (TablesMapped (mapNewPages kernelPages n s addr brk).1.1 ↔ TablesFit s addr brk) ∧
      (TablesFit s addr brk → ∃ k', Fills (mapNewPages kernelPages n s addr brk).1 k') := by
  induction n generalizing s k addr with
  | zero =>
    have hfit : TablesFit s addr brk := by
      intro j hj
      omega
    exact ⟨iff_of_true hm hfit, fun _ => ⟨k, h⟩⟩
  | succ n ih =>
    simp only [mapNewPages]
    by_cases hlt : addr < brk
    · rw [if_pos hlt]
      by_cases hk : k < 4096
      · have hturn := turn_tables h hk hm addr rfl
        rw [if_neg (h.turn hk addr rfl).1]
        generalize kernelPages.mapPage _ _ _ = t at *
        rw [addr_succ] at hn
        have hroom : s.2.pmm.usedPages < s.2.pmm.totalPages := by
          rw [h.used_eq, h.total]
          exact hk
        rcases hturn with ⟨k', hf, hw, hused, hiff⟩ | ⟨hp, hlast, hbad, hfull⟩
        · rw [tablesFit_step hlt hroom hw hused (hf.total.trans h.total.symm)]
          by_cases hm' : TablesMapped t.1
          · rw [and_iff_right (hiff.mp hm')]
            exact ih hf hm' hn
          · exact ⟨iff_of_false (mapNewPages_unmapped hf hm' _ _) fun hfit => hm' (hiff.mpr hfit.1),
              fun hfit => absurd (hiff.mpr hfit.1) hm'⟩
        · have hnofit : ¬ TablesFit s addr brk := by
            intro hfit
            have hfirst := hfit 0 (by simpa using hlt) hroom (needsTable_zero.mpr hp)
            rw [h.used_eq] at hfirst
            omega
          rw [(mapNewPages_full hfull.le n _ _).1]
          exact ⟨iff_of_false hbad hnofit, fun hfit => absurd hfit hnofit⟩
      · have hused : s.2.pmm.totalPages ≤ s.2.pmm.usedPages := by
          rw [h.used_eq, h.total]
          omega
        have hfit : TablesFit s addr brk := fun j _ hframe => by omega
        obtain ⟨hzero, hv, hpmm⟩ := alloc_full hused
        rw [if_pos hzero, hv]
        exact ⟨iff_of_true hm hfit, fun _ => ⟨k, h.congr hv hpmm⟩⟩
    · rw [if_neg hlt]
      have hfit : TablesFit s addr brk := fun j hj => by omega
      exact ⟨iff_of_true hm hfit, fun _ => ⟨k, h⟩⟩

lemma sbrk_tables {h : Heap (Vmm × Frames)} {k : ℕ} (hf : Fills h.pages k)
    (hm : TablesMapped h.pages.1) {size : ℕ} (hend : (h.currentBreak + size) % 2 ^ 32 ≤ heapEnd) :
    (TablesMapped (sbrk kernelPages h size).2.pages.1 ↔
        TablesFit h.pages h.currentBreak ((h.currentBreak + size) % 2 ^ 32)) ∧
      (TablesFit h.pages h.currentBreak ((h.currentBreak + size) % 2 ^ 32) →
        ∃ k', Fills (sbrk kernelPages h size).2.pages k') := by
  have hn : (h.currentBreak + size) % 2 ^ 32 ≤ h.currentBreak + size * pageSize := by
    have hle := Nat.mod_le (h.currentBreak + size) (2 ^ 32)
    simp only [pageSize]
    omega
  have hloop := mapNewPages_tables hf hm hn
  simp only [sbrk]
  rw [if_neg (Nat.not_lt.mpr hend)]
  split
  · exact hloop
  · exact hloop

def KeepsTables (_ : Session (Vmm × Frames)) (_ : Call) (y : Session (Vmm × Frames)) : Prop :=
  TablesMapped y.heap.pages.1

def TablesFitCall (x : Session (Vmm × Frames)) (c : Call) (_ : Session (Vmm × Frames)) : Prop :=
  ∀ size, c = .kmalloc size → NoFit x.heap size →
    (x.heap.currentBreak + growth size) % 2 ^ 32 ≤ heapEnd →
      TablesFit x.heap.pages x.heap.currentBreak ((x.heap.currentBreak + growth size) % 2 ^ 32)

def Reached (x : Session (Vmm × Frames)) : Prop :=
  (∃ k, Fills x.heap.pages k) ∧ TablesMapped x.heap.pages.1

lemma Reached.step {x y : Session (Vmm × Frames)} {c : Call} (h : Reached x) (hy : Calls x c y) :
    (KeepsTables x c y ↔ TablesFitCall x c y) ∧ (TablesFitCall x c y → Reached y) := by
  obtain ⟨⟨k, hf⟩, hm⟩ := h
  have hsame : y.heap.pages = x.heap.pages → TablesFitCall x c y →
      (KeepsTables x c y ↔ TablesFitCall x c y) ∧ (TablesFitCall x c y → Reached y) := by
    intro hpages hfit
    rw [KeepsTables, Reached, hpages]
    exact ⟨iff_of_true hm hfit, fun _ => ⟨⟨k, hf⟩, hm⟩⟩
  cases c with
  | kmalloc size =>
    obtain ⟨r, hr, rfl⟩ := Option.map_eq_some_iff.mp hy
    rcases kmalloc_pages hr with ⟨hfound, _, hpages⟩ | ⟨hnofit, _, hpages⟩
    · apply hsame hpages
      rintro size' he hn
      cases he
      exact absurd hn hfound
    · by_cases hend : (x.heap.currentBreak + growth size) % 2 ^ 32 ≤ heapEnd
      · obtain ⟨hiff, hfills⟩ := sbrk_tables hf hm hend
        have hcall : TablesFitCall x (.kmalloc size)
            ⟨r.2, if r.1 = 0 then x.outstanding else (r.1, size) :: x.outstanding⟩ ↔
            TablesFit x.heap.pages x.heap.currentBreak
              ((x.heap.currentBreak + growth size) % 2 ^ 32) := by
          constructor
          · exact fun hcall => hcall size rfl hnofit hend
          · rintro hfit size' he _ _
            cases he
            exact hfit
        rw [hcall, KeepsTables, Reached, hpages]
        exact ⟨hiff, fun hfit => ⟨hfills hfit, hiff.mpr hfit⟩⟩
      · apply hsame
        · rw [hpages, sbrk, if_pos (Nat.lt_of_not_le hend)]
        · rintro size' he _ hend'
          cases he
          exact absurd hend' hend
  | kfree ptr =>
    obtain ⟨h', hr, rfl⟩ := Option.map_eq_some_iff.mp hy
    exact hsame (kfree_pages hr).2 fun size he => by cases he
  | write m =>
    cases hy
    exact hsame rfl fun size he => by cases he

end Heap

lemma emptyDirectory_fills (storage : ℕ → BitVec 32) (start : ℕ) (memory : ℕ → BitVec 32) :
    Fills (emptyDirectory Frames.alloc memory (bootFrames storage start 0x1000000)) 1 ∧
      ∀ i < 1024, (emptyDirectory Frames.alloc memory
        (bootFrames storage start 0x1000000)).1.present i = false := by
  obtain ⟨hframe, howned, _, hused, _⟩ := emptyDirectory_owned storage start
    (by decide : 0x1000000 < 2 ^ 32) (by decide) (by decide) memory
  have hfilled : KernelFrames.Filled (bootFrames storage start 0x1000000).pmm 0 := by
    have hboot : KernelFrames.bootMemory = 0x1000000 := by decide
    rw [bootFrames, ← hboot]
    exact KernelFrames.kearly_filled storage start
  generalize bootFrames storage start 0x1000000 = a at *
  obtain ⟨ha, hfilled'⟩ := hfilled.alloc (by decide)
  have hdir : (emptyDirectory Frames.alloc memory a).1.kernelDirectory = 0 := by
    simp only [emptyDirectory, clearEntries_directory, Frames.alloc, ha]
    rfl
  exact ⟨⟨howned, hdir, hfilled', hused, Nat.one_pos, by decide⟩,
    fun i hi => emptyDirectory_absent memory _ hframe hi⟩

lemma identity_fills {s : Vmm × Frames} (h : Fills s 1) (hp : ∀ i < 1024, s.1.present i = false)
    {n : ℕ} (hn : n < 1024) {t : Vmm × Frames}
    (ht : (List.range (n + 1)).foldl (fun s i => mapPage Frames.alloc s
      (BitVec.ofNat 32 (i * pageSize)) (BitVec.ofNat 32 (i * pageSize)) (ptePresent ||| pteRw)) s = t) :
    Fills t 2 ∧ (∀ i < 1024, t.1.present i = decide (i = 0)) ∧ TablesMapped t.1 := by
  have hzero : ∀ i < 1024, pdIndex (BitVec.ofNat 32 (i * pageSize)) = 0 := by
    intro i hi
    rw [pdIndex_eq, BitVec.toNat_ofNat]
    simp only [pageSize]
    omega
  induction n generalizing t with
  | zero =>
    change mapPage Frames.alloc s (BitVec.ofNat 32 (0 * pageSize)) (BitVec.ofNat 32 (0 * pageSize))
      (ptePresent ||| pteRw) = t at ht
    have hmap := h.map_absent (by decide) (hp _ (pdIndex_lt (BitVec.ofNat 32 (0 * pageSize))))
      (BitVec.ofNat 32 (0 * pageSize)) (ptePresent ||| pteRw)
    rw [ht, hzero 0 hn] at hmap
    obtain ⟨hf, hpres, htable, hother⟩ := hmap
    have hpres' : ∀ i < 1024, t.1.present i = decide (i = 0) := by
      intro i hi
      by_cases hi0 : i = 0
      · simp [hi0, hpres]
      · simp [(hother i hi hi0).1, hp i hi, hi0]
    refine ⟨hf, hpres', fun i hi hpi => ?_⟩
    have hi0 := of_decide_eq_true ((hpres' i hi).symm.trans hpi)
    rw [hi0, htable]
    decide
  | succ n ih =>
    rw [List.range_succ, List.foldl_append] at ht
    obtain ⟨hf, hpres, hm⟩ := ih (by omega) rfl
    generalize (List.range (n + 1)).foldl _ s = u at *
    subst ht
    have hslot := hzero (n + 1) hn
    obtain ⟨hf', hsame⟩ := hf.map_present
      (show u.1.present (pdIndex (BitVec.ofNat 32 ((n + 1) * pageSize))) = true by
        rw [hslot]
        exact hpres 0 (by decide)) (BitVec.ofNat 32 ((n + 1) * pageSize))
      (ptePresent ||| pteRw)
    refine ⟨hf', fun i hi => (hsame i hi).1.trans (hpres i hi), fun i hi hpi => ?_⟩
    exact (hsame i hi).2.trans_lt (hm i hi ((hsame i hi).1.symm.trans hpi))

lemma bootPages_fills (storage : ℕ → BitVec 32) (start : ℕ) (memory : ℕ → BitVec 32) :
    Fills (bootPages storage start 0x1000000 memory) 2 ∧
      (∀ i < 1024, (bootPages storage start 0x1000000 memory).1.present i = decide (i = 0)) ∧
      TablesMapped (bootPages storage start 0x1000000 memory).1 := by
  obtain ⟨hf, hp⟩ := emptyDirectory_fills storage start memory
  rw [bootPages, vmmInit]
  generalize emptyDirectory Frames.alloc memory (bootFrames storage start 0x1000000) = s at *
  exact identity_fills hf hp (by decide : 1023 < 1024) rfl

namespace Heap

lemma heapOn_reached {s : Vmm × Frames} (m : ℕ → UInt8) (hf : Fills s 2) (hm : TablesMapped s.1) :
    Reached (heapOn m s) := by
  have hend : ((unused m s).currentBreak + pageSize) % 2 ^ 32 ≤ heapEnd := by
    simp only [unused]
    decide
  obtain ⟨hiff, hfills⟩ := sbrk_tables (h := unused m s) hf hm hend
  have hfit : TablesFit s heapStart ((heapStart + pageSize) % 2 ^ 32) := by
    intro j hj hframe hneeds
    have hj0 : j = 0 := by
      simp only [heapStart, pageSize] at hj
      omega
    subst hj0
    simp [hf.used_eq, framesBefore]
  rw [Reached, heapOn_heap, (kheapInit_pages kernelPages _).1]
  exact ⟨hfills hfit, hiff.mpr hfit⟩

/-- Along a run of calls from boot, every table lies in the identity map exactly when every
extension of the heap creates its tables in the first 1024 frames. -/
theorem tables_mapped_iff (storage : ℕ → BitVec 32) (start : ℕ) (memory : ℕ → BitVec 32)
    (m : ℕ → UInt8) (cs : List Call) :
    TablesMapped (heapOn m (bootPages storage start 0x1000000 memory)).heap.pages.1 ∧
      (Along Calls KeepsTables (heapOn m (bootPages storage start 0x1000000 memory)) cs ↔
        Along Calls TablesFitCall (heapOn m (bootPages storage start 0x1000000 memory)) cs) := by
  obtain ⟨hf, _, hm⟩ := bootPages_fills storage start memory
  generalize bootPages storage start 0x1000000 memory = s at *
  have hreached := heapOn_reached m hf hm
  refine ⟨hreached.2, along_iff (I := Reached) (H := fun _ _ _ => True) ?_ ?_ hreached (along_true _ _)⟩
  · exact fun x c y hI h _ => (hI.step h).1
  · exact fun x c y hI h _ hg => (hI.step h).2 hg

lemma mapNewPages_one {π : Type*} {L : PageLayer π} {n : ℕ} (hn : 0 < n) {s : π} {addr brk : ℕ}
    (hlt : addr < brk) (hle : brk ≤ addr + pageSize) (hne : (L.pmmAllocPage s).1 ≠ 0) :
    mapNewPages L n s addr brk = (L.mapPage (L.pmmAllocPage s).2 addr (L.pmmAllocPage s).1, true) := by
  cases n with
  | zero => omega
  | succ n =>
    simp only [mapNewPages]
    rw [if_pos hlt, if_neg hne]
    cases n with
    | zero => rfl
    | succ n =>
      simp only [mapNewPages]
      rw [if_neg (Nat.not_lt.mpr hle)]

lemma heapOn_present {s : Vmm × Frames} (m : ℕ → UInt8) (hf : Fills s 2)
    (hp : ∀ i < 1024, s.1.present i = decide (i = 0)) :
    Fills (heapOn m s).heap.pages 4 ∧
      ∀ i < 1024, i ≠ 0 → i ≠ slot heapStart → (heapOn m s).heap.pages.1.present i = false := by
  obtain ⟨hne, hturn⟩ := hf.turn (by decide) heapStart rfl
  have hslot : s.1.present (slot heapStart) = false := by
    rw [hp _ (slot_lt _)]
    decide
  have hpages : (heapOn m s).heap.pages =
      kernelPages.mapPage (kernelPages.pmmAllocPage s).2 heapStart (kernelPages.pmmAllocPage s).1 := by
    rw [heapOn_heap, (kheapInit_pages kernelPages _).1]
    have hmod : (heapStart + pageSize) % 2 ^ 32 = heapStart + pageSize := by decide
    simp only [sbrk, unused, hmod]
    rw [if_neg (by decide), mapNewPages_one (by decide) (by decide) le_rfl hne]
    rfl
  rw [hpages]
  generalize kernelPages.mapPage _ _ _ = t at *
  rcases hturn with ⟨hpres, _⟩ | ⟨_, hfills, _, _, hother⟩ | ⟨_, hlast, _⟩
  · rw [hslot] at hpres
    cases hpres
  · refine ⟨hfills, fun i hi hne0 hnes => ?_⟩
    rw [(hother i hi hnes).1, hp i hi]
    simpa using hne0
  · omega

lemma framesBefore_bounds (v : Vmm) (addr j : ℕ) :
    j ≤ framesBefore v addr j ∧ framesBefore v addr j ≤ 2 * j := by
  have hcount := List.countP_le_length (p := fun i => decide (NeedsTable v addr i)) (l := List.range j)
  rw [List.length_range] at hcount
  simp only [framesBefore]
  omega

theorem table_above_identity :
    ¬ Along Calls KeepsTables bootHeap [.kmalloc 4190192] := by
  obtain ⟨hready, _⟩ := bootHeap_ready
  obtain ⟨hf, hp, hm⟩ := bootPages_fills (fun _ => 0) 0x110000 (fun _ => 0)
  obtain ⟨y, hy, _⟩ := hready.inv.step kernelPages (c := .kmalloc 4190192)
    (by decide : 4190192 ≤ heapMaxSize)
  have hnofit : NoFit bootHeap.heap 4190192 := by
    obtain ⟨bs, hl, _⟩ := hready.inv
    exact noFit_of_total hl (by decide) (by rw [hready.brk_eq]; decide)
  have hbrk := hready.brk_eq
  intro hk
  rw [bootHeap] at *
  generalize bootPages (fun _ => 0) 0x110000 0x1000000 (fun _ => 0) = s at *
  obtain ⟨hfills, hother⟩ := heapOn_present (fun _ => 0) hf hp
  have hfit := ((heapOn_reached (fun _ => 0) hf hm).step hy).1.mp (hk y hy).1
  generalize heapOn (fun _ => 0) s = x at *
  have htables := hfit 4190192 rfl hnofit
  rw [hbrk] at htables
  have hnewbrk : (heapStart + 4096 + growth 4190192) % 2 ^ 32 = heapStart + 4096 + 4190212 := by decide
  rw [hnewbrk] at htables
  have hslot : slot (heapStart + 4096 + 1023 * pageSize) = 833 := by decide
  have hneeds : NeedsTable x.heap.pages.1 (heapStart + 4096) 1023 := by
    refine ⟨?_, fun i hi => ?_⟩
    · rw [hslot]
      exact hother 833 (by decide) (by decide) (by decide)
    · rw [hslot, slot, pdIndex_eq, BitVec.toNat_ofNat]
      simp only [heapStart, pageSize]
      omega
  obtain ⟨hlo, hhi⟩ := framesBefore_bounds x.heap.pages.1 (heapStart + 4096) 1023
  have hframe := htables (by decide) 1023 (by decide)
    (by rw [hfills.used_eq, hfills.total]; omega) hneeds
  omega

end Heap

end Veni.Memory
