import Veni.Memory.HeapTables

/-! `map_page` when there is no frame for a page table: the frame 0 that stands for failure is the
directory. -/

namespace Veni.Memory

open Veni.Lib Veni.Lib.Transition Vmm

namespace Vmm

inductive PageCall
  | map (virtualAddr physicalAddr flags : BitVec 32)
  | unmap (virtualAddr : BitVec 32)
  | alloc
  | free (page : ℕ)

def pageExec (s : Vmm × Frames) : PageCall → Vmm × Frames
  | .map va pa flags => mapPage Frames.alloc s va pa flags
  | .unmap va => (s.1.unmapPage va, s.2)
  | .alloc => (s.1, s.2.alloc.2)
  | .free page => (s.1, { s.2 with pmm := s.2.pmm.pmmFreePage page })

def pageEntry (physicalAddr flags : BitVec 32) : BitVec 32 := (physicalAddr &&& ~~~0xFFF#32) ||| flags

/-- `map_page` leaves the readings of the other pages. -/
def Spares (s : Vmm × Frames) (va pa flags : BitVec 32) : Prop :=
  ∀ q : BitVec 32, q.toNat / 4096 ≠ va.toNat / 4096 →
    (mapPage Frames.alloc s va pa flags).1.getPhysicalAddress q = s.1.getPhysicalAddress q

def rowFrame (entry : BitVec 32) : Option (BitVec 32) :=
  if entry &&& ptePresent = 0#32 then none else some (entry &&& ~~~0xFFF#32)

def entryBase (physicalAddr flags : BitVec 32) : ℕ := (pageEntry physicalAddr flags &&& ~~~0xFFF#32).toNat

/-- Apart from the page itself, only the slot numbered by the page's table index is mapped: as the
frame at the physical address is filled, nowhere if the word has no present bit, and for frame 0 in
one page. -/
structure Spared (v : Vmm) (va pa flags : BitVec 32) : Prop where
  outside : ∀ page < 2 ^ 20, page ≠ va.toNat / 4096 → page / 1024 ≠ ptIndex va → v.walk page = none
  absent : pageEntry pa flags &&& pdePresent = 0#32 →
    ∀ page < 2 ^ 20, page ≠ va.toNat / 4096 → v.walk page = none
  table : pageEntry pa flags &&& pdePresent ≠ 0#32 → entryBase pa flags ≠ 0 →
    ∀ k < 1024, ptIndex va * 1024 + k ≠ va.toNat / 4096 →
      v.walk (ptIndex va * 1024 + k) = rowFrame (v.entries (entryBase pa flags) k)
  zero : pageEntry pa flags &&& pdePresent ≠ 0#32 → entryBase pa flags = 0 →
    ∀ k < 1024, ptIndex va * 1024 + k ≠ va.toNat / 4096 →
      v.walk (ptIndex va * 1024 + k) = if k = ptIndex va then some 0#32 else none

variable {s : Vmm × Frames} {v : Vmm} {va pa flags : BitVec 32}

lemma walk_row (v : Vmm) (page : ℕ) :
    v.walk page =
      if v.present (page / 1024) = true then rowFrame (v.entries (v.tableAt (page / 1024)) (page % 1024))
      else none := rfl

lemma reading_page {v w : Vmm} {page : ℕ} (hp : page < 2 ^ 20) :
    (∀ q : BitVec 32, q.toNat / 4096 = page → w.getPhysicalAddress q = v.getPhysicalAddress q) ↔
      w.walk page = v.walk page := by
  constructor
  · intro h
    have hoffset : ∀ offset : BitVec 32, offset.toNat < 4096 →
        (BitVec.ofNat 32 (page * 4096) + offset).toNat / 4096 = page ∧
          (BitVec.ofNat 32 (page * 4096) + offset) &&& 0xFFF#32 = offset := by
      intro offset ho
      have hadd : (BitVec.ofNat 32 (page * 4096) + offset).toNat = page * 4096 + offset.toNat := by
        rw [BitVec.toNat_add, BitVec.toNat_ofNat]
        omega
      refine ⟨by omega, BitVec.eq_of_toNat_eq ?_⟩
      have hlow := PackedWord.toNat_offset 12 (BitVec.ofNat 32 (page * 4096) + offset)
      rw [hadd] at hlow
      exact hlow.trans (by omega)
    -- the two words of the page tell a frame from no frame, and frame 0 too
    have hzero := h _ (hoffset 0#32 (by decide)).1
    have hone := h _ (hoffset 1#32 (by decide)).1
    simp only [getPhysicalAddress_eq, reading, (hoffset 0#32 (by decide)).1, (hoffset 0#32 (by decide)).2,
      (hoffset 1#32 (by decide)).1, (hoffset 1#32 (by decide)).2] at hzero hone
    cases hw : w.walk page with
    | none =>
      cases hv : v.walk page with
      | none => rfl
      | some f =>
        simp only [hw, hv, BitVec.or_zero] at hzero hone
        rw [← hzero] at hone
        exact absurd hone (by decide)
    | some f =>
      cases hv : v.walk page with
      | none =>
        simp only [hw, hv, BitVec.or_zero] at hzero hone
        rw [hzero] at hone
        exact absurd hone (by decide)
      | some g =>
        simp only [hw, hv, BitVec.or_zero] at hzero
        rw [hzero]
  · rintro h q rfl
    simp only [getPhysicalAddress_eq, reading, h]

lemma spares_walk : Spares s va pa flags ↔ ∀ page < 2 ^ 20, page ≠ va.toNat / 4096 →
    (mapPage Frames.alloc s va pa flags).1.walk page = s.1.walk page := by
  constructor
  · rintro h page hp hne
    refine (reading_page hp).mp fun q hq => h q ?_
    rwa [hq]
  · exact fun h q hq => (reading_page (page_lt q)).mpr (h _ (page_lt q) hq) q rfl

lemma mapPage_null (hdir : s.1.kernelDirectory = 0) (hnull : s.2.alloc.1 = 0)
    (hp : s.1.present (pdIndex va) = false) :
    (mapPage Frames.alloc s va pa flags).1 =
      ((s.1.setEntry 0 (pdIndex va) 3#32).clearEntries 0).setEntry 0 (ptIndex va) (pageEntry pa flags) := by
  have hframe : PageFrame s.2.alloc.1 := by
    rw [hnull]
    exact ⟨rfl, by decide⟩
  have hcreate := createTable_eq Frames.alloc s (pdIndex va) hframe
  have hentry : BitVec.ofNat 32 0 ||| pdePresent ||| pdeRw = 3#32 := by decide
  rw [hnull, hdir, hentry] at hcreate
  have htable : ((s.1.setEntry 0 (pdIndex va) 3#32).clearEntries 0).tableAt (pdIndex va) = 0 := by
    simp only [tableAt, clearEntries_directory, setEntry_directory, hdir]
    rw [entries_clearEntries _ rfl rfl (pdIndex_lt va), if_pos rfl]
    rfl
  simp only [mapPage, hp, Bool.false_eq_true, if_false, hcreate, htable, pageEntry]

variable (v va pa flags) in
lemma entries_null {c k : ℕ} (hc : c % 4096 = 0) (hk : k < 1024) :
    (((v.setEntry 0 (pdIndex va) 3#32).clearEntries 0).setEntry 0 (ptIndex va)
      (pageEntry pa flags)).entries c k =
      if c = 0 then if k = ptIndex va then pageEntry pa flags else 0#32 else v.entries c k := by
  rw [entries_setEntry _ _ rfl hc (ptIndex_lt va) hk, entries_clearEntries _ rfl hc hk]
  by_cases h0 : c = 0
  · rw [if_pos h0, if_pos h0.symm]
    by_cases hkj : k = ptIndex va
    · rw [if_pos ⟨h0.symm, hkj.symm⟩, if_pos hkj]
    · rw [if_neg (fun h => hkj h.2.symm), if_neg hkj]
  · rw [if_neg h0, if_neg (fun h => h0 h.1.symm), if_neg (fun h => h0 h.symm),
      entries_setEntry _ _ rfl hc (pdIndex_lt va) hk, if_neg (fun h => h0 h.1.symm)]

lemma entryBase_aligned (pa flags : BitVec 32) : entryBase pa flags % 4096 = 0 := by
  have h : entryBase pa flags = (pageEntry pa flags).toNat / 4096 * 4096 :=
    PackedWord.toNat_base 12 (pageEntry pa flags)
  omega

section Null

variable (hdir : s.1.kernelDirectory = 0) (hnull : s.2.alloc.1 = 0)
  (hp : s.1.present (pdIndex va) = false)

include hdir hnull hp

lemma null_directory (pa flags : BitVec 32) {k : ℕ} (hk : k < 1024) :
    (mapPage Frames.alloc s va pa flags).1.present k =
        (decide (k = ptIndex va) && pageEntry pa flags &&& pdePresent != 0#32) ∧
      (mapPage Frames.alloc s va pa flags).1.tableAt (ptIndex va) = entryBase pa flags := by
  rw [mapPage_null hdir hnull hp]
  have hslot := entries_null s.1 va pa flags (rfl : 0 % 4096 = 0) hk
  have hentry := entries_null s.1 va pa flags (rfl : 0 % 4096 = 0) (ptIndex_lt va)
  rw [if_pos rfl] at hslot hentry
  rw [if_pos rfl] at hentry
  simp only [present, tableAt, setEntry_directory, clearEntries_directory, hdir, hslot, hentry]
  refine ⟨?_, rfl⟩
  by_cases hkd : k = ptIndex va
  · rw [if_pos hkd, decide_eq_true hkd, Bool.true_and]
  · rw [if_neg hkd, decide_eq_false hkd, Bool.false_and]
    rfl

lemma null_outside {page : ℕ} (hpage : page < 2 ^ 20)
    (hout : page / 1024 ≠ ptIndex va ∨ pageEntry pa flags &&& pdePresent = 0#32) :
    (mapPage Frames.alloc s va pa flags).1.walk page = none := by
  have hpres := (null_directory hdir hnull hp pa flags (by omega : page / 1024 < 1024)).1
  rw [walk_row, hpres, if_neg]
  rw [Bool.and_eq_true, decide_eq_true_eq, bne_iff_ne]
  rintro ⟨hslot, hpresent⟩
  exact hout.elim (fun h => h hslot) hpresent

lemma null_inside (hpresent : pageEntry pa flags &&& pdePresent ≠ 0#32) {k : ℕ} (hk : k < 1024) :
    (mapPage Frames.alloc s va pa flags).1.walk (ptIndex va * 1024 + k) =
      if entryBase pa flags = 0 then if k = ptIndex va then some 0#32 else none
      else rowFrame (s.1.entries (entryBase pa flags) k) := by
  obtain ⟨hpres, htable⟩ := null_directory hdir hnull hp pa flags (ptIndex_lt va)
  have hdiv : (ptIndex va * 1024 + k) / 1024 = ptIndex va := by omega
  have hmod : (ptIndex va * 1024 + k) % 1024 = k := by omega
  have hword := entries_null s.1 va pa flags (entryBase_aligned pa flags) hk
  rw [walk_row, hdiv, hmod, hpres, htable, decide_eq_true rfl, Bool.true_and, if_pos (bne_iff_ne.mpr hpresent),
    mapPage_null hdir hnull hp, hword]
  by_cases hbase : entryBase pa flags = 0
  · rw [if_pos hbase, if_pos hbase]
    by_cases hkd : k = ptIndex va
    · have hword0 : pageEntry pa flags &&& ~~~0xFFF#32 = 0#32 := BitVec.eq_of_toNat_eq hbase
      have hpte : pageEntry pa flags &&& ptePresent ≠ 0#32 := hpresent
      rw [if_pos hkd, if_pos hkd, rowFrame, if_neg hpte, hword0]
    · rw [if_neg hkd, if_neg hkd]
      rfl
  · rw [if_neg hbase, if_neg hbase]

lemma spares_iff : Spares s va pa flags ↔ Spared s.1 va pa flags := by
  rw [spares_walk]
  constructor
  · intro h
    refine ⟨fun page hpage hne hout => ?_, fun habsent page hpage hne => ?_,
      fun hpresent hbase k hk hne => ?_, fun hpresent hbase k hk hne => ?_⟩
    · rw [← h page hpage hne, null_outside hdir hnull hp hpage (.inl hout)]
    · rw [← h page hpage hne, null_outside hdir hnull hp hpage (.inr habsent)]
    · have := ptIndex_lt va
      rw [← h _ (by omega) hne, null_inside hdir hnull hp hpresent hk, if_neg hbase]
    · have := ptIndex_lt va
      rw [← h _ (by omega) hne, null_inside hdir hnull hp hpresent hk, if_pos hbase]
  · intro h page hpage hne
    by_cases hpresent : pageEntry pa flags &&& pdePresent = 0#32
    · rw [null_outside hdir hnull hp hpage (.inr hpresent), h.absent hpresent page hpage hne]
    by_cases hslot : page / 1024 = ptIndex va
    · obtain ⟨k, hk, rfl⟩ : ∃ k < 1024, page = ptIndex va * 1024 + k :=
        ⟨page % 1024, by omega, by omega⟩
      rw [null_inside hdir hnull hp hpresent hk]
      by_cases hbase : entryBase pa flags = 0
      · rw [if_pos hbase, h.zero hpresent hbase k hk hne]
      · rw [if_neg hbase, h.table hpresent hbase k hk hne]
    · rw [null_outside hdir hnull hp hpage (.inl hslot), h.outside page hpage hne hslot]

end Null

lemma mapPage_directory (s : Vmm × Frames) (va pa flags : BitVec 32) :
    (mapPage Frames.alloc s va pa flags).1.kernelDirectory = s.1.kernelDirectory := by
  simp only [mapPage, setEntry_directory]
  split
  · rfl
  · simp only [createTable, clearEntries_directory, setEntry_directory]

lemma unmapPage_directory (v : Vmm) (va : BitVec 32) : (v.unmapPage va).kernelDirectory = v.kernelDirectory := by
  simp only [unmapPage]
  split <;> rfl

lemma run_directory (s : Vmm × Frames) (cs : List PageCall) :
    (cs.foldl pageExec s).1.kernelDirectory = s.1.kernelDirectory := by
  induction cs generalizing s with
  | nil => rfl
  | cons c cs ih =>
    rw [List.foldl_cons, ih]
    cases c with
    | map va pa flags => exact mapPage_directory s va pa flags
    | unmap va => exact unmapPage_directory s.1 va
    | alloc => rfl
    | free page => rfl

lemma vmmInit_directory (memory : ℕ → BitVec 32) (a : Frames) :
    (vmmInit Frames.alloc memory a).1.kernelDirectory = a.alloc.1 := by
  rw [vmmInit]
  have hloop : ∀ (is : List ℕ) (s : Vmm × Frames),
      (is.foldl (fun s i => mapPage Frames.alloc s (BitVec.ofNat 32 (i * pageSize))
        (BitVec.ofNat 32 (i * pageSize)) (ptePresent ||| pteRw)) s).1.kernelDirectory =
        s.1.kernelDirectory := by
    intro is
    induction is with
    | nil => exact fun _ => rfl
    | cons i is ih =>
      intro s
      rw [List.foldl_cons, ih]
      exact mapPage_directory s _ _ _
  rw [hloop]
  exact clearEntries_directory _ _

/-- In every state reached from `vmm_init` with the directory in frame 0 and no frame free,
`map_page` in a slot without a table leaves the readings of the other pages if and only if nothing
else was mapped outside one slot, whose pages lay as in the frame at the physical address. -/
theorem map_spares_iff (memory : ℕ → BitVec 32) {a : Frames} (hfirst : a.alloc.1 = 0)
    (cs : List PageCall) {va : BitVec 32} (pa flags : BitVec 32)
    (hnull : (cs.foldl pageExec (vmmInit Frames.alloc memory a)).2.alloc.1 = 0)
    (hp : (cs.foldl pageExec (vmmInit Frames.alloc memory a)).1.present (pdIndex va) = false) :
    Spares (cs.foldl pageExec (vmmInit Frames.alloc memory a)) va pa flags ↔
      Spared (cs.foldl pageExec (vmmInit Frames.alloc memory a)).1 va pa flags := by
  apply spares_iff _ hnull hp
  rw [run_directory, vmmInit_directory, hfirst]

section Full

variable (storage : ℕ → BitVec 32) (start : ℕ) (memory : ℕ → BitVec 32)

lemma bootFrames_first : (bootFrames storage start 0x1000000).alloc.1 = 0 := by
  have hdir := (emptyDirectory_fills storage start (fun _ => 0)).1.directory
  generalize bootFrames storage start 0x1000000 = a at *
  simpa only [emptyDirectory, clearEntries_directory] using hdir

lemma fills_allocs {s : Vmm × Frames} {k n : ℕ} (h : Fills s k) (hn : k + n ≤ 4096) :
    ((List.replicate n PageCall.alloc).foldl pageExec s).1 = s.1 ∧
      Fills ((List.replicate n PageCall.alloc).foldl pageExec s) (k + n) := by
  induction n generalizing s k with
  | zero => exact ⟨rfl, h⟩
  | succ n ih =>
    obtain ⟨_, hnext⟩ := h.alloc (by omega)
    obtain ⟨hv, hf⟩ := ih hnext (by omega)
    rw [List.replicate_succ, List.foldl_cons, Nat.add_comm n 1, ← Nat.add_assoc]
    exact ⟨hv, hf⟩

lemma bootPages_full {n : ℕ} (hn : 2 + n = 4096) :
    ((List.replicate n PageCall.alloc).foldl pageExec (bootPages storage start 0x1000000 memory)).1 =
        (bootPages storage start 0x1000000 memory).1 ∧
      ((List.replicate n PageCall.alloc).foldl pageExec
        (bootPages storage start 0x1000000 memory)).2.alloc.1 = 0 := by
  obtain ⟨hf, _, _⟩ := bootPages_fills storage start memory
  obtain ⟨hv, hfull⟩ := fills_allocs hf hn.le
  rw [hn] at hfull
  refine ⟨hv, ?_⟩
  generalize (List.replicate n PageCall.alloc).foldl pageExec _ = t at *
  exact (alloc_full (hfull.total.trans hfull.used_eq.symm).le).1

end Full

lemma bootPages_spent {v : Vmm} (hv : v = (bootPages (fun _ => 0) 0x110000 0x1000000 fun _ => 7#32).1) :
    v.kernelDirectory = 0 ∧ v.present 1 = false ∧ v.tableAt 0 = pageSize ∧ v.present 0 = true ∧
      ∀ page < 2 ^ 20, v.walk page = identityMap page := by
  obtain ⟨hfills, hpres, _⟩ := bootPages_fills (fun _ => 0) 0x110000 (fun _ => 7#32)
  have hrefines := bootPages_refines (fun _ => 0) 0x110000 (fun _ => 7#32)
    (by decide : 0x1000000 < 2 ^ 32) (by decide) (Heap.boot_spends _ _ _).2.1
  rw [hv]
  exact ⟨hfills.directory, hpres 1 (by decide), hfills.tableAt_two (by decide) (hpres 0 (by decide)),
    hpres 0 (by decide), hrefines.walk_eq⟩

theorem map_spares_iff_table :
    Spares ((List.replicate 4094 PageCall.alloc).foldl pageExec
        (vmmInit Frames.alloc (fun _ => 7#32) (bootFrames (fun _ => 0) 0x110000 0x1000000)))
      0x400000#32 0x1000#32 3#32 := by
  obtain ⟨hv, hnull⟩ := bootPages_full (fun _ => 0) 0x110000 (fun _ => 7#32) (rfl : 2 + 4094 = 4096)
  obtain ⟨_, hone, htable, hzero, hwalk⟩ := bootPages_spent hv
  rw [← (by decide : pdIndex 0x400000#32 = 1)] at hone
  rw [bootPages] at htable
  refine (map_spares_iff (fun _ => 7#32) (bootFrames_first (fun _ => 0) 0x110000) _ _ _ hnull hone).mpr
    ⟨fun page hp _ hout => ?_, fun habsent => absurd habsent (by decide),
      fun _ _ k hk _ => ?_, fun _ hbase => absurd hbase (by decide)⟩
  · have hout' : page / 1024 ≠ 0 := hout
    exact (hwalk page hp).trans (if_neg (by omega))
  · have hindex : ptIndex 0x400000#32 = 0 := by decide
    have hbase : entryBase 0x1000#32 3#32 = pageSize := by decide
    have hdiv : (0 * 1024 + k) / 1024 = 0 := by omega
    have hmod : (0 * 1024 + k) % 1024 = k := by omega
    rw [hindex, hbase, walk_row, hdiv, hmod]
    exact (if_pos hzero).trans (by rw [htable])

/-- The page 0x2000 of the identity map reads 0 afterwards. -/
theorem map_clears_directory :
    ¬ Spares ((List.replicate 4094 PageCall.alloc).foldl pageExec
        (vmmInit Frames.alloc (fun _ => 7#32) (bootFrames (fun _ => 0) 0x110000 0x1000000)))
      0x401000#32 0x5000#32 3#32 := by
  obtain ⟨hv, hnull⟩ := bootPages_full (fun _ => 0) 0x110000 (fun _ => 7#32) (rfl : 2 + 4094 = 4096)
  obtain ⟨hdir, hone, _, _, hwalk⟩ := bootPages_spent hv
  rw [← (by decide : pdIndex 0x401000#32 = 1)] at hone
  intro h
  have hout := ((spares_iff hdir hnull hone).mp h).outside 2 (by decide) (by decide) (by decide)
  exact absurd ((hwalk 2 (by decide)).symm.trans hout) (by decide)

end Vmm

end Veni.Memory
