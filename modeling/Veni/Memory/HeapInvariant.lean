import Veni.Lib.PackedWord
import Veni.Memory.HeapOperations

/-! The layout every heap call keeps: one doubly linked list of blocks that tiles the heap. -/

namespace Veni.Memory.Heap

open Veni.Lib.ByteMemory Veni.Lib.Blocks Veni.Lib.PackedWord

variable {π : Type*} (L : PageLayer π)

structure Layout (h : Heap π) (bs : List Block) : Prop where
  seg : Seg h.memory 0 0 heapStart bs
  start : h.start = first 0 heapStart bs
  sized : Sized bs
  brk : h.currentBreak = heapStart + total bs
  bounded : h.currentBreak ≤ heapEnd

lemma Layout.total_le {h : Heap π} {bs : List Block} (hl : Layout h bs) : total bs ≤ heapMaxSize := by
  have hbrk := hl.brk
  have hb := hl.bounded
  simp only [heapMaxSize]
  omega

lemma Layout.length_lt {h : Heap π} {bs : List Block} (hl : Layout h bs) :
    bs.length < walkBound := by
  have ht := hl.total_le
  have hs := hl.sized.length_le
  simp only [walkBound, heapMaxSize, heapEnd, heapStart] at ht ⊢
  omega

lemma Layout.withPages {h : Heap π} {bs : List Block} (hl : Layout h bs) (p : π) :
    Layout { h with pages := p } bs :=
  ⟨hl.seg, hl.start, hl.sized, hl.brk, hl.bounded⟩

lemma sbrk_spec {h : Heap π} {size : ℕ} (hsum : h.currentBreak + size < 2 ^ 32) :
    (∃ p, sbrk L h size = (0, { h with pages := p })) ∨
      (h.currentBreak + size ≤ heapEnd ∧ ∃ p, sbrk L h size =
        (h.currentBreak, { h with currentBreak := h.currentBreak + size, pages := p })) := by
  have hmod : (h.currentBreak + size) % 2 ^ 32 = h.currentBreak + size := Nat.mod_eq_of_lt hsum
  simp only [sbrk, hmod]
  by_cases hend : h.currentBreak + size > heapEnd
  · exact .inl ⟨h.pages, by simp [hend]⟩
  · rw [if_neg hend]
    by_cases hp : (mapNewPages L size h.pages h.currentBreak (h.currentBreak + size)).2
    · rw [if_pos hp]
      exact .inr ⟨by omega, _, rfl⟩
    · rw [if_neg hp]
      exact .inl ⟨_, rfl⟩

lemma layout_single {h : Heap π} {size : ℕ} {p : π} (hl : Layout h [])
    (hsize : sizeofBlockHeader ≤ size) (hend : h.currentBreak + size ≤ heapEnd) :
    Layout
      { h with
        currentBreak := h.currentBreak + size
        pages := p
        start := h.currentBreak
        memory := writeHeader h.memory h.currentBreak ⟨blockMagic, size, 1, 0, 0⟩ } [⟨size, true⟩] := by
  have hbrk := hl.brk
  simp only [total_nil, Nat.add_zero] at hbrk
  rw [hbrk] at hend ⊢
  have hx : (⟨blockMagic, size, 1, 0, 0⟩ : BlockHeader).Bounded :=
    ⟨(by decide : blockMagic < 2 ^ 32), by simp only [heapStart, heapEnd] at hend ⊢; omega,
      by simp, by simp⟩
  refine ⟨⟨?_, trivial⟩, rfl, ?_, by simp, hend⟩
  · rw [header_writeHeader _ _ hx]
    simp [freeFlag, first]
  · intro b hb
    rw [List.mem_singleton.mp hb]
    exact hsize

lemma kheapInit_spec {h : Heap π} (hl : Layout h []) :
    ∃ bs, Layout (kheapInit L h) bs ∧ (∀ b ∈ bs, b.free = true) ∧ Coalesced bs := by
  have hbrk := hl.brk
  simp only [total_nil, Nat.add_zero] at hbrk
  have hsum : h.currentBreak + pageSize < 2 ^ 32 := by
    rw [hbrk]
    decide
  rcases sbrk_spec L hsum with ⟨p, hp⟩ | ⟨hend, p, hp⟩
  · refine ⟨[], ?_, by simp, .nil⟩
    simp only [kheapInit, hp, if_true]
    exact ⟨trivial, rfl, hl.sized, hl.brk, hl.bounded⟩
  · have hne : h.currentBreak ≠ 0 := by
      rw [hbrk]
      decide
    refine ⟨[⟨pageSize, true⟩], ?_, by simp, .singleton _⟩
    simp only [kheapInit, hp, hne, if_false]
    exact layout_single hl (by decide) hend

lemma Layout.lastBlock_written {h : Heap π} {cs : List Block} {l : Block} (hl : Layout h (cs ++ [l]))
    (x : BlockHeader) :
    lastBlock (writeHeader h.memory h.currentBreak x) walkBound heapStart = some (heapStart + total cs) := by
  have hwalk := hl.length_lt
  simp only [List.length_append, List.length_singleton] at hwalk
  have hseg : Seg (writeHeader h.memory h.currentBreak x) 0 0 heapStart (cs ++ [l]) :=
    hl.seg.of_apart hl.sized (fun c hc => header_writeHeader_of_apart hc _) (.inr hl.brk.ge)
  have hcs : lastStart 0 heapStart (cs ++ [l]) = heapStart + total cs := by simp [lastStart]
  rw [← hcs]
  cases cs with
  | nil => exact lastBlock_spec (by decide) hseg (by simp only [List.length_nil]; omega)
  | cons c cs =>
    apply lastBlock_spec (by decide) hseg
    change (cs ++ [l]).length < walkBound
    rw [List.length_append, List.length_singleton]
    rw [List.length_cons] at hwalk
    omega

lemma extend_spec {h : Heap π} {bs : List Block} {n : ℕ} (hl : Layout h bs)
    (hn : h.currentBreak + n < 2 ^ 32) :
    (∃ p, extend L h n = some (0, { h with pages := p })) ∨
      ∃ h', extend L h n = some (h.currentBreak, h') ∧
        Layout h' (bs ++ [⟨max n pageSize, true⟩]) := by
  have halloc : (if n > pageSize then n else pageSize) = max n pageSize := by
    split <;> omega
  have hpage : pageSize = 4096 := rfl
  have hbrk := hl.brk
  have hb := hl.bounded
  have hsum : h.currentBreak + max n pageSize < 2 ^ 32 := by
    simp only [heapEnd] at hb
    omega
  simp only [extend, halloc]
  rcases sbrk_spec L hsum with ⟨p, hp⟩ | ⟨hend, p, hp⟩
  · exact .inl ⟨p, by simp only [hp, if_true]⟩
  · have hne : h.currentBreak ≠ 0 := by
      rw [hbrk, heapStart]
      omega
    right
    simp only [hp, hne, if_false]
    rcases List.eq_nil_or_concat bs with rfl | ⟨cs, l, rfl⟩
    · have hstart : h.start = 0 := hl.start
      rw [if_pos hstart]
      exact ⟨_, rfl, layout_single hl (by simp only [sizeofBlockHeader]; omega) hend⟩
    · rw [List.concat_eq_append] at *
      have hstart : h.start = heapStart := by
        rw [hl.start]
        cases cs <;> rfl
      have hlast := hl.lastBlock_written ⟨blockMagic, max n pageSize, 1, 0, 0⟩
      have hzero : heapStart ≠ 0 := by decide
      simp only [hstart, hzero, if_false, hlast, Option.map_some]
      refine ⟨_, rfl, ?_, ?_, ?_, ?_, hend⟩
      · simp only [hbrk]
        rw [hbrk] at hsum
        exact append_seg hl.sized hl.seg (by decide) hsum
      · rw [List.append_assoc, first_append]
        cases cs <;> rfl
      · rw [Sized.append]
        refine ⟨hl.sized, fun b hb => ?_⟩
        rw [List.mem_singleton.mp hb]
        simp only [sizeofBlockHeader]
        omega
      · simp only [hbrk, total_append, total_cons, total_nil]
        omega

def wholeSize (size : ℕ) : ℕ := (size + 7) / 8 * 8 + sizeofBlockHeader

lemma alignedSize_eq {size : ℕ} (h : wholeSize size < 2 ^ 32) : alignedSize size = wholeSize size := by
  simp only [wholeSize, sizeofBlockHeader] at h
  have hmod : (size + 7) % 2 ^ 32 = size + 7 := Nat.mod_eq_of_lt (by omega)
  have hmask : (size + 7) &&& 0xFFFFFFF8 = (size + 7) / 8 * 8 := by
    have hbase := toNat_base (k := 3) (BitVec.ofNat 32 (size + 7))
    have hlow : ~~~ lowMask (w := 32) 3 = 0xFFFFFFF8#32 := by decide
    simp only [base, hlow, BitVec.toNat_and, BitVec.toNat_ofNat, hmod] at hbase
    exact hbase
  simp only [alignedSize, wholeSize, hmod, hmask, sizeofBlockHeader]
  exact Nat.mod_eq_of_lt h

lemma alignedSize_bounds {size : ℕ} (h : size < 2 ^ 32 - 27) :
    size + sizeofBlockHeader ≤ alignedSize size ∧ alignedSize size ≤ size + 27 := by
  rw [alignedSize_eq (by simp only [wholeSize, sizeofBlockHeader]; omega)]
  simp only [wholeSize, sizeofBlockHeader]
  omega

def Unwrapped (h : Heap π) (size : ℕ) : Prop :=
  size = 0 ∨ h.currentBreak + wholeSize size < 2 ^ 32

lemma Layout.unwrapped {h : Heap π} {bs : List Block} (hl : Layout h bs) {size : ℕ}
    (hsize : size ≤ heapMaxSize) : Unwrapped h size := by
  have hb := hl.bounded
  right
  simp only [heapMaxSize, heapEnd, heapStart] at hsize hb
  simp only [wholeSize, sizeofBlockHeader]
  omega

lemma Layout.addr_lt {h : Heap π} {bs : List Block} (hl : Layout h bs) :
    heapStart + total bs < 2 ^ 32 := by
  have hbrk := hl.brk
  have hb := hl.bounded
  simp only [heapStart, heapEnd] at *
  omega

lemma Layout.payload_lt {h : Heap π} {pre post : List Block} {b : Block}
    (hl : Layout h (pre ++ b :: post)) : heapStart + total pre + sizeofBlockHeader < 2 ^ 32 := by
  have hlt := hl.addr_lt
  have hb := hl.sized b (by simp)
  simp only [total_append, total_cons] at hlt
  omega

lemma Layout.payload_mod {h : Heap π} {pre post : List Block} {b : Block}
    (hl : Layout h (pre ++ b :: post)) :
    (heapStart + total pre + sizeofBlockHeader) % 2 ^ 32 =
      heapStart + total pre + sizeofBlockHeader :=
  Nat.mod_eq_of_lt hl.payload_lt

lemma first_carve (n a : ℕ) (pre : List Block) (b : Block) (post : List Block) :
    first 0 a (pre ++ (carve splitSlack n b ++ post)) = first 0 a (pre ++ b :: post) := by
  cases pre with
  | nil =>
    simp only [carve, List.nil_append]
    split <;> rfl
  | cons c cs => rfl

lemma sized_carve {n : ℕ} {b : Block} (hn : sizeofBlockHeader ≤ n)
    (hb : sizeofBlockHeader ≤ b.size) : Sized (carve splitSlack n b) := by
  intro c hc
  rw [carve] at hc
  by_cases hlarge : b.size > n + splitSlack
  · simp only [hlarge, if_true, List.mem_cons, List.not_mem_nil, or_false] at hc
    rw [splitSlack] at hlarge
    rcases hc with rfl | rfl
    · exact hn
    · simp only
      omega
  · rw [if_neg hlarge] at hc
    rw [List.mem_singleton.mp hc]
    exact hb

lemma Layout.handOut {h : Heap π} {n : ℕ} {pre post : List Block} {b : Block}
    (hl : Layout h (pre ++ b :: post)) (hn : sizeofBlockHeader ≤ n) (hfit : n ≤ b.size) :
    Layout
      { h with
        memory := setIsFree (splitBlock h.memory (heapStart + total pre) n) (heapStart + total pre) 0 }
      (pre ++ (carve splitSlack n b ++ post)) := by
  obtain ⟨hpre, hpost⟩ := Sized.append.mp hl.sized
  obtain ⟨hb, hpost⟩ := hpost.cons
  refine ⟨splitBlock_carve hl.sized hl.seg (by decide) hl.addr_lt hn hfit, ?_, ?_, ?_, hl.bounded⟩
  · rw [first_carve]
    exact hl.start
  · exact Sized.append.mpr ⟨hpre, Sized.append.mpr ⟨sized_carve hn hb, hpost⟩⟩
  · have hbrk := hl.brk
    simp only [total_append, total_cons, total_carve splitSlack hfit] at hbrk ⊢
    exact hbrk

structure Serves (n : ℕ) (bs pre : List Block) (b : Block) (post : List Block) : Prop where
  blocks : pre ++ b :: post = bs ∨ pre = bs ∧ b.size = max n pageSize ∧ post = []
  fits : Fits n b
  firstFit : ∀ c ∈ pre, ¬ Fits n c

lemma kmalloc_spec {h : Heap π} {bs : List Block} {size : ℕ} (hl : Layout h bs)
    (hsize : Unwrapped h size) :
    ∃ r, kmalloc L h size = some r ∧
      ((r.1 = 0 ∧ Layout r.2 bs) ∨
        ∃ pre b post, Serves (alignedSize size) bs pre b post ∧ Sized (pre ++ b :: post) ∧
          r.1 = heapStart + total pre + sizeofBlockHeader ∧
          Layout r.2 (pre ++ (carve splitSlack (alignedSize size) b ++ post))) := by
  by_cases hzero : size = 0
  · exact ⟨(0, h), by simp [kmalloc, hzero], .inl ⟨rfl, hl⟩⟩
  have hsum : h.currentBreak + wholeSize size < 2 ^ 32 := hsize.resolve_left hzero
  have hwhole := alignedSize_eq (Nat.lt_of_le_of_lt (Nat.le_add_left _ _) hsum)
  have hheader : sizeofBlockHeader ≤ alignedSize size := by
    rw [hwhole]
    exact Nat.le_add_left _ _
  rw [← hwhole] at hsum
  have hne : ∀ pre, heapStart + total pre ≠ 0 := fun pre => by
    simp only [heapStart]
    omega
  simp only [kmalloc, hzero, if_false, hl.start]
  rcases findFreeBlock_spec (n := alignedSize size) (by decide) hl.seg hl.length_lt with
    ⟨pre, b, post, rfl, hpre, hfit, hfind⟩ | ⟨hnone, hfind⟩
  · simp only [hfind, Option.bind_some, hne, if_false, Option.map_some]
    exact ⟨_, rfl, .inr ⟨pre, b, post, ⟨.inl rfl, hfit, hpre⟩, hl.sized, hl.payload_mod,
      hl.handOut hheader hfit.2⟩⟩
  · simp only [hfind, Option.bind_some, if_true]
    rcases extend_spec L hl hsum with ⟨p, hext⟩ | ⟨h', hext, hl'⟩
    · rw [hext]
      exact ⟨_, rfl, .inl ⟨rfl, hl.withPages p⟩⟩
    · have hfit : Fits (alignedSize size) ⟨max (alignedSize size) pageSize, true⟩ :=
        ⟨rfl, Nat.le_max_left _ _⟩
      simp only [hext, Option.map_some, hl.brk, hne, if_false]
      exact ⟨_, rfl, .inr ⟨bs, _, [], ⟨.inr ⟨rfl, rfl, rfl⟩, hfit, hnone⟩, hl'.sized,
        hl'.payload_mod, hl'.handOut hheader hfit.2⟩⟩

lemma kfree_block {h : Heap π} {b : ℕ} (hb : b + sizeofBlockHeader < 2 ^ 32)
    (hm : (header h.memory b).magic = blockMagic) : kfree h (b + sizeofBlockHeader) =
      (mergeFreeBlocks (setIsFree h.memory b 1) b).map fun m => { h with memory := m } := by
  have hne : b + sizeofBlockHeader ≠ 0 := by
    simp only [sizeofBlockHeader]
    omega
  have hblock : (b + sizeofBlockHeader + 2 ^ 32 - sizeofBlockHeader) % 2 ^ 32 = b := by
    simp only [sizeofBlockHeader] at hb ⊢
    omega
  simp only [kfree, hne, if_false, hblock, hm, ne_eq, not_true_eq_false]

lemma kfree_spec {h : Heap π} {pre post : List Block} {b : Block}
    (hl : Layout h (pre ++ b :: post)) :
    ∃ h', kfree h (heapStart + total pre + sizeofBlockHeader) = some h' ∧
      Layout h' (release pre b post) := by
  have hmagic : (header h.memory (heapStart + total pre)).magic = blockMagic := by
    rw [(seg_zoom.mp hl.seg).2.1]
  have hlen := hl.length_lt
  have haddr := hl.addr_lt
  have hsized : Sized (pre ++ ⟨b.size, true⟩ :: post) :=
    hl.sized.replace (hl.sized b (by simp))
  simp only [List.length_append, List.length_cons] at hlen
  simp only [total_append, total_cons] at haddr
  obtain ⟨m, hm, hseg⟩ := mergeFreeBlocks_seg hsized (seg_setIsFree hl.sized hl.seg true) (by decide)
    (by simp only [total_append, total_cons]; omega) (by omega) rfl
  refine ⟨{ h with memory := m }, ?_, hseg, ?_, ?_, ?_, hl.bounded⟩
  · simp only [freeFlag, if_true] at hm
    rw [kfree_block hl.payload_lt hmagic, hm]
    rfl
  · simp only [first_release, hl.start]
    cases pre <;> rfl
  · exact hl.sized.release
  · have hbrk := hl.brk
    simp only [total_release, total_append, total_cons] at hbrk ⊢
    omega

end Veni.Memory.Heap
