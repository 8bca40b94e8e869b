import Veni.Memory.Heap
import Veni.Memory.KernelMemory

/-! The pages behind the heap: `sbrk` over the page tables and the bitmap allocator. -/

namespace Veni.Memory

open Veni.Lib Vmm

def kernelPages : PageLayer (Vmm × Frames) where
  pmmAllocPage s := (s.2.alloc.1, (s.1, s.2.alloc.2))
  mapPage s addr page :=
    mapPage Frames.alloc s (BitVec.ofNat 32 addr) (BitVec.ofNat 32 page) (ptePresent ||| pteRw)

/-- The same calls, with a record only of whether `map_page` has ever found no page for a table. -/
def tablePages : PageLayer (Vmm × Frames) where
  pmmAllocPage s :=
    ((Pmm.pmmAllocPage s.2.pmm).1, (s.1, { s.2 with pmm := (Pmm.pmmAllocPage s.2.pmm).2 }))
  mapPage := kernelPages.mapPage

structure Backed (s : Vmm × Frames) : Prop where
  owned : Owned s
  zero : FrameUsed s.2.pmm 0
  frames : ∀ page < 2 ^ 20, 1024 ≤ page → ∀ f, s.1.walk page = some f → FrameUsed s.2.pmm f.toNat

lemma Owned.alloc {s : Vmm × Frames} (h : Owned s) (hx : s.2.alloc.2.exhausted = false) :
    Owned (s.1, s.2.alloc.2) ∧ FrameUsed s.2.alloc.2.pmm s.2.alloc.1 ∧
      ¬ FrameUsed s.2.pmm s.2.alloc.1 ∧
      ∀ f, FrameUsed s.2.pmm f → FrameUsed s.2.alloc.2.pmm f := by
  obtain ⟨i, ha, ht, _⟩ := Frames.alloc_takes h.inv (Frames.room_of_alloc hx).1
  rw [ha]
  exact ⟨⟨ht.inv h.inv, h.tables, fun f hf => (h.used f hf).takes ht⟩, frameUsed_taken ht,
    not_frameUsed_taken ht, fun f hf => hf.takes ht⟩

lemma Owned.walk_mapPage {s : Vmm × Frames} (h : Owned s) (va pa : BitVec 32) (flags : PteFlags)
    (hroom : s.1.present (pdIndex va) = false → s.2.pmm.usedPages < s.2.pmm.totalPages) {page : ℕ}
    (hp : page < 2 ^ 20) :
    (mapPage Frames.alloc s va pa flags.bits).1.walk page =
      if page = va.toNat / 4096 then some (pa &&& ~~~0xFFF#32) else s.1.walk page := by
  have hr : Refines s.1 s.1.walk := ⟨h.tables, fun _ _ => rfl⟩
  have hf : FreshTable Frames.alloc s (.map va pa flags) s := by
    intro va' pa' flags' he hpres
    cases he
    exact h.fresh (hroom hpres)
  rw [(hr.map va pa flags hf).walk_eq page hp, Function.update_apply]

lemma Owned.walk_map {s : Vmm × Frames} (h : Owned s) (va pa : BitVec 32) (flags : PteFlags)
    (hx : (mapPage Frames.alloc s va pa flags.bits).2.exhausted = false) {page : ℕ}
    (hp : page < 2 ^ 20) :
    (mapPage Frames.alloc s va pa flags.bits).1.walk page =
      if page = va.toNat / 4096 then some (pa &&& ~~~0xFFF#32) else s.1.walk page := by
  refine h.walk_mapPage va pa flags (fun hpres => ?_) hp
  simp only [mapPage, hpres, Bool.false_eq_true, if_false] at hx
  exact (Frames.room_of_alloc hx).1

lemma FrameUsed.toNat {p : Pmm} (hp : p.Inv) {f : ℕ} (h : FrameUsed p f) :
    f < 2 ^ 32 ∧ (BitVec.ofNat 32 f &&& ~~~0xFFF#32).toNat = f := by
  have htotal := hp.total_le
  have hlt : f < 2 ^ 32 := by
    have := h.2.1
    have := h.1
    simp only [pageSize] at *
    omega
  have hn : (BitVec.ofNat 32 f).toNat = f := by
    rw [BitVec.toNat_ofNat]
    exact Nat.mod_eq_of_lt hlt
  have hb : BitVec.ofNat 32 f &&& ~~~0xFFF#32 = BitVec.ofNat 32 f :=
    PackedWord.base_eq_self 12 (by rw [hn]; exact h.1)
  rw [hb, hn]
  exact ⟨hlt, rfl⟩

structure Maps (s t : Vmm × Frames) (addr : ℕ) : Prop where
  backed : Backed t
  frames : ∀ f, FrameUsed s.2.pmm f → FrameUsed t.2.pmm f
  mapped : ∃ f, ¬ FrameUsed s.2.pmm f.toNat ∧ ∀ page < 2 ^ 20,
    t.1.walk page = if page = addr / 4096 then some f else s.1.walk page

section Backed

variable {s : Vmm × Frames} (h : Backed s)

include h

lemma Backed.alloc (hx : s.2.alloc.2.exhausted = false) : Backed (s.1, s.2.alloc.2) := by
  obtain ⟨howned, _, _, hmono⟩ := h.owned.alloc hx
  exact ⟨howned, hmono 0 h.zero, fun page hp hge f hf => hmono _ (h.frames page hp hge f hf)⟩

lemma Backed.mapFrame {f addr : ℕ} (hf : FrameUsed s.2.pmm f) (hhi : addr < 2 ^ 32)
    (hx : (kernelPages.mapPage s addr f).2.exhausted = false) :
    Backed (kernelPages.mapPage s addr f) ∧
      (∀ g, FrameUsed s.2.pmm g → FrameUsed (kernelPages.mapPage s addr f).2.pmm g) ∧
      ∃ g : BitVec 32, g.toNat = f ∧ ∀ page < 2 ^ 20, (kernelPages.mapPage s addr f).1.walk page =
        if page = addr / 4096 then some g else s.1.walk page := by
  have hg : Grows s (kernelPages.mapPage s addr f) := h.owned.map _ _ kernelFlags.bits hx
  have hwalk : ∀ page < 2 ^ 20, (kernelPages.mapPage s addr f).1.walk page =
      if page = (BitVec.ofNat 32 addr).toNat / 4096 then some (BitVec.ofNat 32 f &&& ~~~0xFFF#32)
      else s.1.walk page := fun page hp => h.owned.walk_map _ _ kernelFlags hx hp
  rw [BitVec.toNat_ofNat, Nat.mod_eq_of_lt hhi] at hwalk
  have hframe := (hf.toNat h.owned.inv).2
  refine ⟨⟨hg.owned, hg.frames 0 h.zero, fun page hp hge g hgw => ?_⟩, hg.frames, _, hframe, hwalk⟩
  rw [hwalk page hp] at hgw
  split at hgw
  · cases hgw
    rw [hframe]
    exact hg.frames _ hf
  · exact hg.frames _ (h.frames page hp hge g hgw)

lemma Backed.mapNewPage {addr : ℕ} (hhi : addr < 2 ^ 32)
    (hx : (kernelPages.mapPage (kernelPages.pmmAllocPage s).2 addr
      (kernelPages.pmmAllocPage s).1).2.exhausted = false) :
    (kernelPages.pmmAllocPage s).1 ≠ 0 ∧
      Maps s (kernelPages.mapPage (kernelPages.pmmAllocPage s).2 addr
        (kernelPages.pmmAllocPage s).1) addr := by
  have hx' : s.2.alloc.2.exhausted = false := mapPage_exhausted hx
  obtain ⟨_, hused, hfresh, hmono⟩ := h.owned.alloc hx'
  obtain ⟨hbacked, hgrows, g, hg, hwalk⟩ := (h.alloc hx').mapFrame hused hhi hx
  refine ⟨fun hzero => hfresh (hzero ▸ h.zero), hbacked, fun f hf => hgrows f (hmono f hf), g, ?_, hwalk⟩
  rw [hg]
  exact hfresh

end Backed

def Touched (addr brk page : ℕ) : Prop :=
  addr / 4096 ≤ page ∧ addr % 4096 + page * 4096 < brk

lemma touched_step {addr brk page : ℕ} (h : addr < brk) :
    Touched addr brk page ↔ page = addr / 4096 ∨ Touched (addr + 4096) brk page := by
  unfold Touched
  constructor
  · rintro ⟨hlo, hhi⟩
    by_cases he : page = addr / 4096
    · exact .inl he
    · exact .inr ⟨by omega, by omega⟩
  · rintro (he | ⟨hlo, hhi⟩)
    · exact ⟨by omega, by omega⟩
    · exact ⟨by omega, by omega⟩

structure MapsRange (s t : Vmm × Frames) (addr brk : ℕ) : Prop where
  backed : Backed t
  frames : ∀ f, FrameUsed s.2.pmm f → FrameUsed t.2.pmm f
  kept : ∀ page < 2 ^ 20, ¬ Touched addr brk page → t.1.walk page = s.1.walk page
  fresh : ∀ page < 2 ^ 20, Touched addr brk page →
    ∃ f, ¬ FrameUsed s.2.pmm f.toNat ∧ t.1.walk page = some f

lemma Backed.mapsRange {s : Vmm × Frames} (h : Backed s) {addr brk : ℕ} (hle : brk ≤ addr) :
    MapsRange s s addr brk where
  backed := h
  frames _ hf := hf
  kept _ _ _ := rfl
  fresh page _ ht := by
    have := ht.1
    have := ht.2
    omega

lemma Maps.trans {s t u : Vmm × Frames} {addr brk : ℕ} (h : Maps s t addr) (hlt : addr < brk)
    (hr : MapsRange t u (addr + 4096) brk) : MapsRange s u addr brk where
  backed := hr.backed
  frames f hf := hr.frames f (h.frames f hf)
  kept page hp ht := by
    rw [touched_step hlt, not_or] at ht
    obtain ⟨f, _, hw⟩ := h.mapped
    rw [hr.kept page hp ht.2, hw page hp, if_neg ht.1]
  fresh page hp ht := by
    by_cases hrest : Touched (addr + 4096) brk page
    · obtain ⟨f, hf, hw⟩ := hr.fresh page hp hrest
      exact ⟨f, fun hu => hf (h.frames _ hu), hw⟩
    · obtain ⟨f, hf, hw⟩ := h.mapped
      have he := ((touched_step hlt).mp ht).resolve_right hrest
      exact ⟨f, hf, by rw [hr.kept page hp hrest, hw page hp, if_pos he]⟩

section Boot

variable (storage : ℕ → BitVec 32) (start : ℕ) {size : ℕ} (memory : ℕ → BitVec 32)

def bootPages (storage : ℕ → BitVec 32) (start size : ℕ) (memory : ℕ → BitVec 32) : Vmm × Frames :=
  vmmInit Frames.alloc memory (bootFrames storage start size)

lemma bootPages_refines (hs : size < 2 ^ 32) (hd : 32 ∣ size / pageSize)
    (hx : (bootPages storage start size memory).2.exhausted = false) :
    Refines (bootPages storage start size memory).1 identityMap := by
  rw [bootPages, vmmInit_eq] at *
  have hdir : (bootFrames storage start size).alloc.2.exhausted = false := run_exhausted hx
  have hpos : 0 < size / pageSize := (Frames.room_of_alloc hdir).1
  obtain ⟨hframe, howned, _⟩ := emptyDirectory_owned storage start hs hd hpos memory
  have hr := run_refines _ (fun _ => none) identityOps
    (emptyDirectory_refines memory (bootFrames storage start size) hframe) (howned.run hx).2.2
  rwa [identityOps_map] at hr

lemma boot_backed (hs : size < 2 ^ 32) (hd : 32 ∣ size / pageSize)
    (hx : (bootPages storage start size memory).2.exhausted = false) :
    Backed (bootPages storage start size memory) ∧
      ∀ page < 2 ^ 20, 1024 ≤ page → (bootPages storage start size memory).1.walk page = none := by
  have hwalk : ∀ page < 2 ^ 20, 1024 ≤ page →
      (bootPages storage start size memory).1.walk page = none := by
    intro page hp hge
    rw [(bootPages_refines storage start memory hs hd hx).walk_eq page hp, identityMap, if_neg (by omega)]
  rw [bootPages, vmmInit_eq] at *
  have hdir : (bootFrames storage start size).alloc.2.exhausted = false := run_exhausted hx
  have hpos : 0 < size / pageSize := (Frames.room_of_alloc hdir).1
  obtain ⟨hframe, howned, _, _, htotal⟩ := emptyDirectory_owned storage start hs hd hpos memory
  have hinv : (bootFrames storage start size).pmm.Inv := Pmm.init_inv storage start hs hd
  have hzero : FrameUsed (emptyDirectory Frames.alloc memory
      (bootFrames storage start size)).2.pmm 0 := by
    obtain ⟨i, q, hi, ha, ht⟩ := Pmm.alloc_takes hinv hpos (Pmm.init_unused storage start hd hpos)
    have hi0 : i = 0 := by omega
    have hq : (emptyDirectory Frames.alloc memory (bootFrames storage start size)).2.pmm = q := by
      simp only [emptyDirectory, Frames.alloc, ha]
    have hused := frameUsed_taken ht
    rw [hi0, Nat.zero_mul] at hused
    rwa [hq]
  obtain ⟨hrun, hframes, _⟩ := howned.run hx
  refine ⟨⟨hrun, hframes 0 hzero, fun page hp hge f hf => ?_⟩, hwalk⟩
  rw [hwalk page hp hge] at hf
  cases hf

end Boot

namespace Heap

lemma loop_exhausted {L : PageLayer (Vmm × Frames)}
    (halloc : ∀ s, (L.pmmAllocPage s).2.2.exhausted = false → s.2.exhausted = false)
    (hmap : ∀ s addr page, (L.mapPage s addr page).2.exhausted = false → s.2.exhausted = false)
    {n : ℕ} {s : Vmm × Frames} {addr brk : ℕ}
    (hx : (mapNewPages L n s addr brk).1.2.exhausted = false) : s.2.exhausted = false := by
  induction n generalizing s addr with
  | zero => exact hx
  | succ n ih =>
    simp only [mapNewPages] at hx
    split at hx
    · split at hx
      · exact halloc s hx
      · exact halloc s (hmap _ _ _ (ih hx))
    · exact hx

lemma mapNewPages_exhausted {n : ℕ} {s : Vmm × Frames} {addr brk : ℕ}
    (hx : (mapNewPages kernelPages n s addr brk).1.2.exhausted = false) : s.2.exhausted = false :=
  loop_exhausted (fun _ h => (Frames.room_of_alloc h).2) (fun _ _ _ h => mapPage_exhausted h) hx

lemma sbrk_exhausted {h : Heap (Vmm × Frames)} {size : ℕ}
    (hx : (sbrk kernelPages h size).2.pages.2.exhausted = false) : h.pages.2.exhausted = false := by
  simp only [sbrk] at hx
  split at hx
  · exact hx
  · split at hx
    · exact mapNewPages_exhausted hx
    · exact mapNewPages_exhausted hx

lemma mapNewPages_spec {n : ℕ} {s : Vmm × Frames} (h : Backed s) {addr brk : ℕ}
    (hend : brk ≤ heapEnd) (hn : brk ≤ addr + 4096 * n)
    (hx : (mapNewPages kernelPages n s addr brk).1.2.exhausted = false) :
    (mapNewPages kernelPages n s addr brk).2 = true ∧
      MapsRange s (mapNewPages kernelPages n s addr brk).1 addr brk := by
  induction n generalizing s addr with
  | zero => exact ⟨rfl, h.mapsRange (by omega)⟩
  | succ n ih =>
    simp only [mapNewPages] at hx ⊢
    by_cases hlt : addr < brk
    · rw [if_pos hlt] at hx ⊢
      have haddr : addr < 2 ^ 32 := by
        simp only [heapEnd] at hend
        omega
      by_cases hzero : (kernelPages.pmmAllocPage s).1 = 0
      · rw [if_pos hzero] at hx
        obtain ⟨_, _, hfresh, _⟩ := h.owned.alloc hx
        exact absurd (hzero ▸ h.zero) hfresh
      · rw [if_neg hzero] at hx ⊢
        have hmaps := (h.mapNewPage haddr (mapNewPages_exhausted hx)).2
        have hpage : pageSize = 4096 := rfl
        obtain ⟨hok, hrange⟩ := ih hmaps.backed (by omega) hx
        exact ⟨hok, hmaps.trans hlt hrange⟩
    · rw [if_neg hlt]
      exact ⟨rfl, h.mapsRange (by omega)⟩

lemma sbrk_pages {h : Heap (Vmm × Frames)} {size : ℕ} (hb : Backed h.pages)
    (hsum : h.currentBreak + size < 2 ^ 32)
    (hx : (sbrk kernelPages h size).2.pages.2.exhausted = false) :
    (heapEnd < h.currentBreak + size ∧ sbrk kernelPages h size = (0, h)) ∨
      (h.currentBreak + size ≤ heapEnd ∧ ∃ p,
        sbrk kernelPages h size =
          (h.currentBreak, { h with currentBreak := h.currentBreak + size, pages := p }) ∧
        MapsRange h.pages p h.currentBreak (h.currentBreak + size)) := by
  have hmod : (h.currentBreak + size) % 2 ^ 32 = h.currentBreak + size := Nat.mod_eq_of_lt hsum
  simp only [sbrk, hmod] at hx ⊢
  by_cases hend : h.currentBreak + size > heapEnd
  · rw [if_pos hend]
    exact .inl ⟨hend, rfl⟩
  · rw [if_neg hend] at hx ⊢
    have hx' : (mapNewPages kernelPages size h.pages h.currentBreak
        (h.currentBreak + size)).1.2.exhausted = false := by
      split at hx <;> exact hx
    obtain ⟨hok, hrange⟩ := mapNewPages_spec hb (by omega) (by omega) hx'
    rw [if_pos hok]
    exact .inr ⟨by omega, _, rfl, hrange⟩

end Heap

end Veni.Memory
