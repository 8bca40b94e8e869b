import Veni.Memory.PageTables

/-! Page tables whose frames come from the bitmap allocator. -/

namespace Veni.Memory

open Veni.Lib Transition Vmm

/-- The allocator with a record of whether a call has ever found no page free. -/
structure Frames where
  pmm : Pmm
  exhausted : Bool

namespace Frames

def alloc (a : Frames) : ℕ × Frames :=
  ((Pmm.pmmAllocPage a.pmm).1,
    { pmm := (Pmm.pmmAllocPage a.pmm).2
      exhausted := a.exhausted || decide (a.pmm.totalPages ≤ a.pmm.usedPages) })

lemma alloc_takes {a : Frames} (h : a.pmm.Inv) (hu : a.pmm.usedPages < a.pmm.totalPages) :
    ∃ i, a.alloc.1 = i * pageSize ∧ Pmm.Takes a.pmm a.alloc.2.pmm i ∧
      a.alloc.2.exhausted = a.exhausted := by
  rcases Pmm.alloc_cases h with ⟨hall, _⟩ | ⟨i, q, ha, ht⟩
  · have := (BitSet.count_eq_iff _ _).mpr hall
    have := h.used_eq
    omega
  · refine ⟨i, by simp [alloc, ha], by simpa [alloc, ha] using ht, ?_⟩
    simp [alloc, Nat.not_le.mpr hu]

lemma room_of_alloc {a : Frames} (h : a.alloc.2.exhausted = false) :
    a.pmm.usedPages < a.pmm.totalPages ∧ a.exhausted = false := by
  simp only [alloc, Bool.or_eq_false_iff, decide_eq_false_iff_not] at h
  exact ⟨Nat.not_le.mp h.2, h.1⟩

end Frames

def FrameUsed (p : Pmm) (f : ℕ) : Prop :=
  f % 4096 = 0 ∧ f / pageSize < p.totalPages ∧ p.pageUsed (f / pageSize) = true

lemma FrameUsed.takes {p q : Pmm} {i f : ℕ} (h : FrameUsed p f) (ht : Pmm.Takes p q i) :
    FrameUsed q f :=
  ⟨h.1, by rw [ht.total_eq]; exact h.2.1, by simp [ht.pageUsed, h.2.2]⟩

lemma frameUsed_taken {p q : Pmm} {i : ℕ} (ht : Pmm.Takes p q i) : FrameUsed q (i * pageSize) := by
  have hdiv : i * pageSize / pageSize = i := Nat.mul_div_cancel i (by decide)
  have hlt := ht.lt
  refine ⟨by simp only [pageSize]; omega, ?_, ?_⟩
  · rw [hdiv, ht.total_eq]
    exact hlt
  · rw [hdiv]
    simp [ht.pageUsed]

lemma not_frameUsed_taken {p q : Pmm} {i : ℕ} (ht : Pmm.Takes p q i) :
    ¬ FrameUsed p (i * pageSize) := by
  rintro ⟨_, _, hu⟩
  rw [Nat.mul_div_cancel i (by decide), ht.unused] at hu
  cases hu

structure Owned (s : Vmm × Frames) : Prop where
  inv : s.2.pmm.Inv
  tables : Tables s.1
  used : ∀ f, InUse s.1 f → FrameUsed s.2.pmm f

lemma Owned.congr {s t : Vmm × Frames} (h : Owned s) (hv : t.1 = s.1) (hp : t.2.pmm = s.2.pmm) :
    Owned t := by
  refine ⟨hp ▸ h.inv, hv ▸ h.tables, fun f hf => ?_⟩
  rw [hv] at hf
  rw [hp]
  exact h.used f hf

lemma Owned.fresh {s : Vmm × Frames} (h : Owned s)
    (hu : s.2.pmm.usedPages < s.2.pmm.totalPages) :
    PageFrame s.2.alloc.1 ∧ ¬ InUse s.1 s.2.alloc.1 := by
  obtain ⟨i, ha, ht, _⟩ := Frames.alloc_takes h.inv hu
  have hlt := ht.lt
  have htotal := h.inv.total_le
  rw [ha]
  refine ⟨⟨by simp only [pageSize]; omega, by simp only [pageSize]; omega⟩, fun hin => ?_⟩
  exact not_frameUsed_taken ht (h.used _ hin)

lemma InUse.of_same {v t : Vmm} (hd : t.kernelDirectory = v.kernelDirectory)
    (hs : ∀ k < 1024, t.present k = v.present k ∧ t.tableAt k = v.tableAt k) {f : ℕ}
    (h : InUse t f) : InUse v f := by
  rcases h with h | ⟨k, hk, hp, ht⟩
  · exact .inl (h.trans hd)
  · exact .inr ⟨k, hk, (hs k hk).1 ▸ hp, (hs k hk).2 ▸ ht⟩

lemma Owned.setEntry {s : Vmm × Frames} (h : Owned s) {i j : ℕ} (hi : i < 1024) (hj : j < 1024)
    (hp : s.1.present i = true) (x : BitVec 32) :
    Owned (s.1.setEntry (s.1.tableAt i) j x, s.2) where
  inv := h.inv
  tables := (h.tables.setEntry hi hj hp x).1
  used f hf := h.used f (InUse.of_same (v := s.1) (t := s.1.setEntry (s.1.tableAt i) j x)
    rfl (h.tables.setEntry hi hj hp x).2 hf)

structure Grows (s t : Vmm × Frames) : Prop where
  owned : Owned t
  total_eq : t.2.pmm.totalPages = s.2.pmm.totalPages
  used_le : t.2.pmm.usedPages ≤ s.2.pmm.usedPages + 1
  frames : ∀ f, FrameUsed s.2.pmm f → FrameUsed t.2.pmm f

lemma Owned.createTable {s : Vmm × Frames} (h : Owned s) {i : ℕ} (hi : i < 1024)
    (hp : s.1.present i = false) (hroom : s.2.pmm.usedPages < s.2.pmm.totalPages) :
    Grows s (createTable Frames.alloc s i) ∧
      (createTable Frames.alloc s i).1.present i = true := by
  obtain ⟨hframe, hunused⟩ := h.fresh hroom
  obtain ⟨k, ha, ht, _⟩ := Frames.alloc_takes h.inv hroom
  obtain ⟨htables, hpres, htable, hother, _⟩ := h.tables.fresh hi hp hframe hunused
  rw [createTable_eq Frames.alloc s i hframe]
  refine ⟨⟨⟨ht.inv h.inv, htables, ?_⟩, ht.total_eq, ht.used_eq.le, fun f hf => hf.takes ht⟩, hpres⟩
  rintro f (hf | ⟨j, hj, hjp, hjt⟩)
  · apply (h.used f (.inl ?_)).takes ht
    simpa using hf
  · by_cases hji : j = i
    · subst hji
      rw [← hjt, htable, ha]
      exact frameUsed_taken ht
    · rw [(hother j hj hji).1] at hjp
      rw [(hother j hj hji).2] at hjt
      exact (h.used f (.inr ⟨j, hj, hjp, hjt⟩)).takes ht

lemma Owned.map_present {s : Vmm × Frames} (h : Owned s) {va : BitVec 32}
    (hp : s.1.present (pdIndex va) = true) (pa flags : BitVec 32) :
    Owned (mapPage Frames.alloc s va pa flags) ∧
      ∀ i < 1024, (mapPage Frames.alloc s va pa flags).1.present i = s.1.present i ∧
        (mapPage Frames.alloc s va pa flags).1.tableAt i = s.1.tableAt i := by
  have hi := pdIndex_lt va
  have hj := ptIndex_lt va
  simp only [mapPage, hp, if_true]
  exact ⟨h.setEntry hi hj hp _, (h.tables.setEntry hi hj hp _).2⟩

lemma Owned.map_absent {s : Vmm × Frames} (h : Owned s)
    (hroom : s.2.pmm.usedPages < s.2.pmm.totalPages) {va : BitVec 32}
    (hp : s.1.present (pdIndex va) = false) (pa flags : BitVec 32) :
    Owned (mapPage Frames.alloc s va pa flags) ∧
      (mapPage Frames.alloc s va pa flags).2 = s.2.alloc.2 ∧
      (mapPage Frames.alloc s va pa flags).1.kernelDirectory = s.1.kernelDirectory ∧
      (mapPage Frames.alloc s va pa flags).1.present (pdIndex va) = true ∧
      (mapPage Frames.alloc s va pa flags).1.tableAt (pdIndex va) = s.2.alloc.1 ∧
      ∀ i < 1024, i ≠ pdIndex va →
        (mapPage Frames.alloc s va pa flags).1.present i = s.1.present i ∧
          (mapPage Frames.alloc s va pa flags).1.tableAt i = s.1.tableAt i := by
  have hi := pdIndex_lt va
  have hj := ptIndex_lt va
  obtain ⟨hframe, hunused⟩ := h.fresh hroom
  obtain ⟨hgrows, hpres⟩ := h.createTable hi hp hroom
  obtain ⟨_, _, htable, hother, _⟩ := h.tables.fresh hi hp hframe hunused
  have hcreate := createTable_eq Frames.alloc s (pdIndex va) hframe
  have hsame := (hgrows.owned.tables.setEntry hi hj hpres ((pa &&& ~~~0xFFF#32) ||| flags)).2
  simp only [mapPage, hp, Bool.false_eq_true, if_false]
  refine ⟨hgrows.owned.setEntry hi hj hpres _, by rw [hcreate], by rw [hcreate]; simp,
    (hsame _ hi).1.trans hpres, ?_, fun i hi' hne => ?_⟩
  · rw [(hsame _ hi).2, hcreate, htable]
  · rw [(hsame i hi').1, (hsame i hi').2, hcreate]
    exact hother i hi' hne

lemma Owned.map {s : Vmm × Frames} (h : Owned s) (va pa flags : BitVec 32)
    (hx : (mapPage Frames.alloc s va pa flags).2.exhausted = false) :
    Grows s (mapPage Frames.alloc s va pa flags) := by
  have hi := pdIndex_lt va
  have hj := ptIndex_lt va
  cases hp : s.1.present (pdIndex va) with
  | true =>
    simp only [mapPage, hp, if_true]
    exact ⟨h.setEntry hi hj hp _, rfl, Nat.le_succ _, fun _ hf => hf⟩
  | false =>
    simp only [mapPage, hp, Bool.false_eq_true, if_false] at hx ⊢
    obtain ⟨hg, hpres⟩ := h.createTable hi hp (Frames.room_of_alloc hx).1
    exact ⟨hg.owned.setEntry hi hj hpres _, hg.total_eq, hg.used_le, hg.frames⟩

lemma Owned.unmap {s : Vmm × Frames} (h : Owned s) (va : BitVec 32) :
    Owned (s.1.unmapPage va, s.2) := by
  simp only [unmapPage]
  split
  · next hp =>
    have hi := pdIndex_lt va
    have hj := ptIndex_lt va
    exact h.setEntry hi hj hp _
  · exact h

lemma mapPage_exhausted {s : Vmm × Frames} {va pa flags : BitVec 32}
    (hx : (mapPage Frames.alloc s va pa flags).2.exhausted = false) : s.2.exhausted = false := by
  simp only [mapPage] at hx
  split at hx
  · exact hx
  · exact (Frames.room_of_alloc hx).2

lemma exec_exhausted {s : Vmm × Frames} {op : Op}
    (hx : (exec Frames.alloc s op).2.exhausted = false) : s.2.exhausted = false := by
  cases op with
  | map va pa flags => exact mapPage_exhausted hx
  | unmap va => exact hx

lemma run_exhausted {s : Vmm × Frames} {ops : List Op}
    (hx : (ops.foldl (exec Frames.alloc) s).2.exhausted = false) : s.2.exhausted = false := by
  induction ops generalizing s with
  | nil => exact hx
  | cons op ops ih => exact exec_exhausted (ih hx)

lemma Owned.run {s : Vmm × Frames} (h : Owned s) {ops : List Op}
    (hx : (ops.foldl (exec Frames.alloc) s).2.exhausted = false) :
    Owned (ops.foldl (exec Frames.alloc) s) ∧
      (∀ f, FrameUsed s.2.pmm f → FrameUsed (ops.foldl (exec Frames.alloc) s).2.pmm f) ∧
      Along (Steps (exec Frames.alloc)) (FreshTable Frames.alloc) s ops := by
  induction ops generalizing s with
  | nil => exact ⟨h, fun _ hf => hf, trivial⟩
  | cons op ops ih =>
    have hx' : (exec Frames.alloc s op).2.exhausted = false := run_exhausted hx
    have hstep : Owned (exec Frames.alloc s op) ∧
        ∀ f, FrameUsed s.2.pmm f → FrameUsed (exec Frames.alloc s op).2.pmm f := by
      cases op with
      | map va pa flags =>
        have hg := h.map va pa flags.bits hx'
        exact ⟨hg.owned, hg.frames⟩
      | unmap va => exact ⟨h.unmap va, fun _ hf => hf⟩
    obtain ⟨howned, hframes, halong⟩ := ih hstep.1 hx
    refine ⟨howned, fun f hf => hframes f (hstep.2 f hf), ?_⟩
    rintro t rfl
    refine ⟨?_, halong⟩
    intro va pa flags he hp
    subst he
    apply h.fresh
    simp only [exec, mapPage, hp, Bool.false_eq_true, if_false] at hx'
    exact (Frames.room_of_alloc hx').1

structure Spends (s t : Vmm × Frames) (n : ℕ) : Prop where
  owned : Owned t
  exhausted : t.2.exhausted = false
  total_eq : t.2.pmm.totalPages = s.2.pmm.totalPages
  used_le : t.2.pmm.usedPages ≤ s.2.pmm.usedPages + n

lemma Spends.trans {s t u : Vmm × Frames} {m n : ℕ} (h : Spends s t m) (g : Spends t u n) :
    Spends s u (m + n) := by
  refine ⟨g.owned, g.exhausted, g.total_eq.trans h.total_eq, ?_⟩
  have := h.used_le
  have := g.used_le
  omega

lemma Spends.mono {s t : Vmm × Frames} {m n : ℕ} (h : Spends s t m) (hle : m ≤ n) : Spends s t n :=
  ⟨h.owned, h.exhausted, h.total_eq, h.used_le.trans (Nat.add_le_add_left hle _)⟩

lemma Owned.spends {s : Vmm × Frames} (h : Owned s) (hx : s.2.exhausted = false) : Spends s s 0 :=
  ⟨h, hx, rfl, le_rfl⟩

lemma Owned.map_spends {s : Vmm × Frames} (h : Owned s) (hx : s.2.exhausted = false)
    (hu : s.2.pmm.usedPages < s.2.pmm.totalPages) (va pa flags : BitVec 32) :
    Spends s (mapPage Frames.alloc s va pa flags) 1 := by
  have hx' : (mapPage Frames.alloc s va pa flags).2.exhausted = false := by
    simp only [mapPage]
    split
    · exact hx
    · obtain ⟨_, _, _, hx'⟩ := Frames.alloc_takes h.inv hu
      exact hx'.trans hx
  have hg := h.map va pa flags hx'
  exact ⟨hg.owned, hx', hg.total_eq, hg.used_le⟩

lemma Owned.run_spends {s : Vmm × Frames} (h : Owned s) (hx : s.2.exhausted = false)
    {ops : List Op} (hu : s.2.pmm.usedPages + ops.length ≤ s.2.pmm.totalPages) :
    Spends s (ops.foldl (exec Frames.alloc) s) ops.length := by
  induction ops generalizing s with
  | nil => exact h.spends hx
  | cons op ops ih =>
    simp only [List.length_cons] at hu ⊢
    have hstep : Spends s (exec Frames.alloc s op) 1 := by
      cases op with
      | map va pa flags => exact h.map_spends hx (by omega) va pa flags.bits
      | unmap va => exact ⟨h.unmap va, hx, rfl, Nat.le_succ _⟩
    have hused := hstep.used_le
    have htotal := hstep.total_eq
    have hrest := hstep.trans (ih hstep.owned hstep.exhausted (by omega))
    exact hrest.mono (by omega)

def bootFrames (storage : ℕ → BitVec 32) (start size : ℕ) : Frames where
  pmm := Pmm.pmmInit storage start size
  exhausted := false

lemma emptyDirectory_owned (storage : ℕ → BitVec 32) (start : ℕ) {size : ℕ} (hs : size < 2 ^ 32)
    (hd : 32 ∣ size / pageSize) (hpos : 0 < size / pageSize) (memory : ℕ → BitVec 32) :
    PageFrame (bootFrames storage start size).alloc.1 ∧
      Owned (emptyDirectory Frames.alloc memory (bootFrames storage start size)) ∧
      (emptyDirectory Frames.alloc memory (bootFrames storage start size)).2.exhausted = false ∧
      (emptyDirectory Frames.alloc memory (bootFrames storage start size)).2.pmm.usedPages = 1 ∧
      (emptyDirectory Frames.alloc memory (bootFrames storage start size)).2.pmm.totalPages =
        size / pageSize := by
  have hinv : (bootFrames storage start size).pmm.Inv := Pmm.init_inv storage start hs hd
  obtain ⟨i, ha, ht, hx⟩ := Frames.alloc_takes hinv hpos
  have hlt := ht.lt
  have htotal := hinv.total_le
  have hframe : PageFrame (bootFrames storage start size).alloc.1 := by
    rw [ha]
    exact ⟨by simp only [pageSize]; omega, by simp only [pageSize]; omega⟩
  have htables := (emptyDirectory_refines memory (bootFrames storage start size) hframe).tables
  refine ⟨hframe, ⟨ht.inv hinv, htables, ?_⟩, hx, ht.used_eq, ht.total_eq⟩
  rintro f (hf | ⟨j, hj, hjp, _⟩)
  · have hf' : f = i * pageSize := by
      rw [hf, ← ha]
      simp [emptyDirectory]
    rw [hf']
    exact frameUsed_taken ht
  · rw [emptyDirectory_absent memory _ hframe hj] at hjp
    cases hjp

lemma identityOps_length : identityOps.length = 1024 := by
  unfold identityOps
  simp

/-- After `vmm_init` and any calls of `map_page` and `unmap_page`, an address reads as the partial
map of pages that starts as the identity on 4 MiB says. -/
theorem translation_refines {α : Type*} (pmmAllocPage : α → ℕ × α) (memory : ℕ → BitVec 32) (a : α)
    (hdir : PageFrame (pmmAllocPage a).1) (ops : List Op)
    (hf : Along (Steps (exec pmmAllocPage)) (FreshTable pmmAllocPage)
      (emptyDirectory pmmAllocPage memory a) (identityOps ++ ops)) (va : BitVec 32) :
    (ops.foldl (exec pmmAllocPage) (vmmInit pmmAllocPage memory a)).1.getPhysicalAddress va =
      reading (ops.foldl absExec identityMap) va := by
  have hr := run_refines (emptyDirectory pmmAllocPage memory a) (fun _ => none)
    (identityOps ++ ops) (emptyDirectory_refines memory a hdir) hf
  rw [List.foldl_append, List.foldl_append, ← vmmInit_eq pmmAllocPage memory a] at hr
  rw [identityOps_map] at hr
  rw [getPhysicalAddress_eq]
  simp only [reading, hr.walk_eq _ (page_lt va)]

theorem translation_refines_boot :
    ([Op.map 0xD0000000#32 0x5000#32 kernelFlags, .unmap 0x1000#32].foldl (exec Frames.alloc)
      (vmmInit Frames.alloc (fun _ => 7#32) (bootFrames (fun _ => 0) 0x110000 0x1000000))).1.getPhysicalAddress
        0xD0000123#32 = 0x5123#32 := by
  obtain ⟨hframe, howned, hx, hused, htotal⟩ := emptyDirectory_owned (fun _ => 0) 0x110000
    (by decide : 0x1000000 < 2 ^ 32) (by decide) (by decide) (fun _ => 7#32)
  have hroom : (emptyDirectory Frames.alloc (fun _ => 7#32)
      (bootFrames (fun _ => 0) 0x110000 0x1000000)).2.pmm.usedPages + (identityOps ++
        [Op.map 0xD0000000#32 0x5000#32 kernelFlags, .unmap 0x1000#32]).length ≤
      (emptyDirectory Frames.alloc (fun _ => 7#32)
        (bootFrames (fun _ => 0) 0x110000 0x1000000)).2.pmm.totalPages := by
    rw [hused, htotal, List.length_append, identityOps_length]
    decide
  rw [translation_refines Frames.alloc (fun _ => 7#32) _ hframe _
    (howned.run (howned.run_spends hx hroom).exhausted).2.2 0xD0000123#32]
  decide

end Veni.Memory
