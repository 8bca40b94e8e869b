import Veni.Memory.HeapAllocations

/-! The heap calls write headers only: no byte of a payload that stays outstanding changes. -/

namespace Veni.Memory.Heap

open Veni.Lib Veni.Lib.ByteMemory Veni.Lib.Blocks

variable {π : Type*} (L : PageLayer π)

section Headers

variable (m : ℕ → UInt8) {b y : ℕ}

def Beside (b y : ℕ) : Prop := y < b ∨ b + sizeofBlockHeader ≤ y

lemma setMagic_beside (h : Beside b y) (v : ℕ) : setMagic m b v y = m y :=
  write32_of_ne m v (by unfold Beside sizeofBlockHeader at h; omega)

lemma setSize_beside (h : Beside b y) (v : ℕ) : setSize m b v y = m y :=
  write32_of_ne m v (by unfold Beside sizeofBlockHeader at h; omega)

lemma setNext_beside (h : Beside b y) (v : ℕ) : setNext m b v y = m y :=
  write32_of_ne m v (by unfold Beside sizeofBlockHeader at h; omega)

lemma setPrev_beside (h : Beside b y) (v : ℕ) : setPrev m b v y = m y :=
  write32_of_ne m v (by unfold Beside sizeofBlockHeader at h; omega)

lemma setIsFree_beside (h : Beside b y) (v : UInt8) : setIsFree m b v y = m y := by
  have hne : y ≠ b + 8 := by
    unfold Beside sizeofBlockHeader at h
    omega
  simp [setIsFree, write8, hne]

lemma writeHeader_beside (h : Beside b y) (x : BlockHeader) : writeHeader m b x y = m y := by
  rw [writeHeader, setPrev_beside _ h, setNext_beside _ h, setIsFree_beside _ h,
    setSize_beside _ h, setMagic_beside _ h]

end Headers

def Clear (a : ℕ) (bs : List Block) (y : ℕ) : Prop := ∀ x b, BlockAt a bs x b → Beside x y

section Edits

variable {m : ℕ → UInt8} {a n y : ℕ} {pre post : List Block} {b : Block}

lemma Clear.zoom (h : Clear a (pre ++ b :: post) y) :
    Beside (a + total pre) y ∧ Clear (a + total pre + b.size) post y := by
  refine ⟨h _ b blockAt_self, fun x c hx => h x c ?_⟩
  exact blockAt_append.mpr (.inr (.inr hx))

lemma Clear.replace {c : Block} (h : Clear a (pre ++ b :: post) y) (hc : c.size = b.size) :
    Clear a (pre ++ c :: post) y := by
  intro x d hx
  rcases blockAt_append.mp hx with hx | ⟨rfl, rfl⟩ | hx
  · exact h x d (blockAt_append.mpr (.inl hx))
  · exact h.zoom.1
  · rw [hc] at hx
    exact h.zoom.2 x d hx

lemma Clear.fuse {c : Block} {f : Bool} (h : Clear a (pre ++ b :: c :: post) y) :
    Clear a (pre ++ ⟨b.size + c.size, f⟩ :: post) y := by
  intro x d hx
  rcases blockAt_append.mp hx with hx | ⟨rfl, rfl⟩ | hx
  · exact h x d (blockAt_append.mpr (.inl hx))
  · exact h.zoom.1
  · apply h.zoom.2 x d
    right
    rw [Nat.add_assoc]
    exact hx

lemma Clear.absorb (h : Clear a (pre ++ b :: post) y) :
    Clear a (pre ++ (Blocks.absorb b post).1 :: (Blocks.absorb b post).2) y := by
  induction post generalizing b with
  | nil => exact h
  | cons c cs ih =>
    simp only [Blocks.absorb]
    split
    · exact ih h.fuse
    · exact h

lemma relink_beside {p : ℕ} (h : Clear a post y) :
    (if first 0 a post ≠ 0 then setPrev m (first 0 a post) p else m) y = m y := by
  cases post with
  | nil => rfl
  | cons c cs =>
    by_cases ha : a = 0
    · simp [first, ha]
    · rw [first, if_pos ha]
      exact setPrev_beside m (h a c (.inl ⟨rfl, rfl⟩)) p

lemma fuse_beside {c : Block} (hs : Sized (pre ++ b :: c :: post))
    (h : Seg m 0 0 a (pre ++ b :: c :: post)) (hy : Clear a (pre ++ b :: c :: post) y) :
    fuse m (a + total pre) (a + total pre + b.size) y = m y := by
  obtain ⟨_, _, hnext, _⟩ := seg_zoom.mp h
  have hapart : Apart (a + total pre) (a + total pre + b.size) :=
    .inl (Nat.add_le_add_left (hs b (by simp)) _)
  have hrest : Clear (a + total pre + b.size + c.size) post y :=
    fun x d hx => hy.zoom.2 x d (.inr hx)
  rw [fuse_eq hapart, hnext, relink_beside hrest, setNext_beside _ hy.zoom.1,
    setSize_beside _ hy.zoom.1]

lemma mergeNext_beside {fuel : ℕ} {m' : ℕ → UInt8} (hs : Sized (pre ++ b :: post))
    (h : Seg m 0 0 a (pre ++ b :: post)) (hb : a + total (pre ++ b :: post) < 2 ^ 32)
    (hy : Clear a (pre ++ b :: post) y) (hm : mergeNext fuel m (a + total pre) = some m') :
    m' y = m y := by
  induction post generalizing m b fuel with
  | nil =>
    cases fuel with
    | zero => cases hm
    | succ fuel =>
      rw [mergeNext_stop (seg_next_used h (by simp))] at hm
      cases hm
      rfl
  | cons c cs ih =>
    cases fuel with
    | zero => cases hm
    | succ fuel =>
      cases hc : c.free with
      | false =>
        rw [mergeNext_stop (seg_next_used h (by simpa using hc))] at hm
        cases hm
        rfl
      | true =>
        obtain ⟨_, hhead, hnext, _⟩ := seg_zoom.mp h
        have hpos : (header m (a + total pre)).next = a + total pre + b.size := by
          rw [hhead]
          rfl
        have hflag : (header m (header m (a + total pre)).next).isFree ≠ 0 := by
          rw [hpos, hnext]
          simp [freeFlag, hc]
        have hroom := hs b (by simp)
        have hne : (header m (a + total pre)).next ≠ 0 := by
          rw [hpos, Nat.add_assoc]
          simp only [sizeofBlockHeader] at hroom
          omega
        rw [mergeNext_fuse hne hflag, hpos] at hm
        have hs' : Sized (pre ++ ⟨b.size + c.size, b.free⟩ :: cs) := by
          rw [Sized.append] at hs ⊢
          refine ⟨hs.1, fun d hd => ?_⟩
          rcases List.mem_cons.mp hd with rfl | hd
          · exact hroom.trans (Nat.le_add_right _ _)
          · exact hs.2 d (by simp [hd])
        have hb' : a + total (pre ++ ⟨b.size + c.size, b.free⟩ :: cs) < 2 ^ 32 := by
          simp only [total_append, total_cons] at hb ⊢
          omega
        rw [ih hs' (fuse_seg hs h hb) hb' hy.fuse hm, fuse_beside hs h hy]

lemma mergePrev_beside (hs : Sized (pre ++ b :: post)) (h : Seg m 0 0 a (pre ++ b :: post))
    (ha : 0 < a) (hy : Clear a (pre ++ b :: post) y) :
    mergePrev m (a + total pre) y = m y := by
  rcases List.eq_nil_or_concat pre with rfl | ⟨cs, c, rfl⟩
  · rw [mergePrev_eq_self (seg_prev_used h (by simp))]
  · rw [List.concat_eq_append] at *
    cases hc : c.free with
    | false => rw [mergePrev_eq_self (seg_prev_used h (by simpa using hc))]
    | true =>
      have hadd : a + total (cs ++ [c]) = a + total cs + c.size := by simp [Nat.add_assoc]
      rw [List.append_assoc, List.singleton_append] at hs h hy
      rw [hadd, mergePrev_free hs h ha hc, fuse_beside hs h hy]

lemma mergeFreeBlocks_beside {m' : ℕ → UInt8} (hs : Sized (pre ++ b :: post))
    (h : Seg m 0 0 a (pre ++ b :: post)) (ha : 0 < a) (hb : a + total (pre ++ b :: post) < 2 ^ 32)
    (hf : post.length < walkBound) (hy : Clear a (pre ++ b :: post) y)
    (hm : mergeFreeBlocks m (a + total pre) = some m') : m' y = m y := by
  obtain ⟨m₁, hm₁, hseg⟩ := mergeNext_seg hs h ha hb hf
  rw [mergeFreeBlocks, hm₁] at hm
  cases hm
  exact (mergePrev_beside hs.absorb hseg ha hy.absorb).trans (mergeNext_beside hs h hb hy hm₁)

lemma splitBlock_beside (h : Seg m 0 0 a (pre ++ b :: post))
    (ha : splitSlack ≤ a) (hb : a + total (pre ++ b :: post) < 2 ^ 32) (hn : sizeofBlockHeader ≤ n)
    (hfit : n ≤ b.size) (hy : Clear a (pre ++ b :: post) y)
    (hout : y < a + total pre ∨ a + total pre + b.size ≤ y) :
    splitBlock m (a + total pre) n y = m y := by
  obtain ⟨_, hhead, _⟩ := seg_zoom.mp h
  simp only [total_append, total_cons] at hb
  by_cases hbig : n + splitSlack < b.size
  · rw [splitBlock_large (by rw [hhead]; exact hbig) (by rw [hhead]; simp only; omega)]
    simp only [splitSlack, sizeofBlockHeader] at hbig hn
    have hapart : Apart (a + total pre + n) (a + total pre) :=
      .inr (by simp only [sizeofBlockHeader]; omega)
    have hnew : Beside (a + total pre + n) y := by
      unfold Beside
      simp only [sizeofBlockHeader]
      omega
    rw [header_writeHeader_of_apart hapart, hhead, setSize_beside _ hy.zoom.1,
      setNext_beside _ hy.zoom.1]
    simp only
    rw [relink_beside hy.zoom.2, writeHeader_beside _ hnew]
  · rw [splitBlock_small (by rw [hhead]; simp only; omega) (by omega)]

end Edits

section Calls

variable {h : Heap π} {bs : List Block} {x y : ℕ} {b : Block}

structure InPayload (bs : List Block) (x : ℕ) (b : Block) (y : ℕ) : Prop where
  block : BlockAt heapStart bs x b
  used : b.free = false
  above : x + sizeofBlockHeader ≤ y
  below : y < x + b.size

lemma InPayload.clear (hy : InPayload bs x b y) (hs : Sized bs) : Clear heapStart bs y := by
  intro z c hz
  have hroom := hs c hz.mem
  have hlo := hy.above
  have hhi := hy.below
  unfold Beside
  rcases hz.disjoint hy.block with ⟨rfl, rfl⟩ | hdis | hdis
  · exact .inr hlo
  · exact .inr (by omega)
  · exact .inl (by omega)

lemma handOut_beside {n : ℕ} {pre post : List Block} {c : Block} {g : Heap π}
    (hl : Layout g (pre ++ c :: post)) (hn : sizeofBlockHeader ≤ n) (hfit : Fits n c)
    (hy : InPayload (pre ++ c :: post) x b y) :
    setIsFree (splitBlock g.memory (heapStart + total pre) n) (heapStart + total pre) 0 y =
      g.memory y := by
  have hclear := hy.clear hl.sized
  have hout : y < heapStart + total pre ∨ heapStart + total pre + c.size ≤ y := by
    have hlo := hy.above
    have hhi := hy.below
    have hself : BlockAt heapStart (pre ++ c :: post) (heapStart + total pre) c := blockAt_self
    rcases hy.block.disjoint hself with
      ⟨rfl, rfl⟩ | hdis | hdis
    · have hused := hy.used
      rw [hfit.1] at hused
      cases hused
    · exact .inl (by omega)
    · exact .inr (by simp only [sizeofBlockHeader] at hlo; omega)
  rw [setIsFree_beside _ hclear.zoom.1,
    splitBlock_beside hl.seg (by decide) hl.addr_lt hn hfit.2 hclear hout]

lemma extend_beside {n p : ℕ} {h' : Heap π} (hl : Layout h bs)
    (hn : h.currentBreak + n < 2 ^ 32) (hy : InPayload bs x b y)
    (he : extend L h n = some (p, h')) : h'.memory y = h.memory y := by
  have halloc : (if n > pageSize then n else pageSize) = max n pageSize := by
    split <;> omega
  have hpage : pageSize = 4096 := rfl
  have hbrk := hl.brk
  have hb := hl.bounded
  have hbelow : y < h.currentBreak := by
    have hbounds := hy.block.bounds
    have hhi := hy.below
    omega
  have hsum : h.currentBreak + max n pageSize < 2 ^ 32 := by
    simp only [heapEnd] at hb
    omega
  simp only [extend, halloc] at he
  rcases sbrk_spec L hsum with ⟨q, hq⟩ | ⟨hend, q, hq⟩
  · simp only [hq, if_true] at he
    cases he
    rfl
  · have hne : h.currentBreak ≠ 0 := by omega
    simp only [hq, hne, if_false] at he
    have hwrite : writeHeader h.memory h.currentBreak ⟨blockMagic, max n pageSize, 1, 0, 0⟩ y =
        h.memory y := writeHeader_beside _ (.inl hbelow) _
    rcases List.eq_nil_or_concat bs with rfl | ⟨cs, l, rfl⟩
    · exact absurd hy.block id
    · rw [List.concat_eq_append] at *
      have hstart : h.start = heapStart := by
        rw [hl.start]
        cases cs <;> rfl
      have hlast := hl.lastBlock_written ⟨blockMagic, max n pageSize, 1, 0, 0⟩
      have hzero : heapStart ≠ 0 := by decide
      simp only [hstart, hzero, if_false, hlast, Option.map_some] at he
      cases he
      have hclear : Beside (heapStart + total cs) y := (hy.clear hl.sized).zoom.1
      simp only
      rw [setPrev_beside _ (.inl hbelow), setNext_beside _ hclear, hwrite]

lemma kmalloc_beside {size : ℕ} {r : ℕ × Heap π} (hl : Layout h bs) (hsize : Unwrapped h size)
    (hy : InPayload bs x b y) (hr : kmalloc L h size = some r) : r.2.memory y = h.memory y := by
  by_cases hzero : size = 0
  · simp only [kmalloc, hzero, if_true] at hr
    cases hr
    rfl
  have hsum : h.currentBreak + wholeSize size < 2 ^ 32 := hsize.resolve_left hzero
  have hwhole := alignedSize_eq (Nat.lt_of_le_of_lt (Nat.le_add_left _ _) hsum)
  have hheader : sizeofBlockHeader ≤ alignedSize size := by
    rw [hwhole]
    exact Nat.le_add_left _ _
  rw [← hwhole] at hsum
  have hne : ∀ pre, heapStart + total pre ≠ 0 := fun pre => by
    simp only [heapStart]
    omega
  simp only [kmalloc, hzero, if_false, hl.start] at hr
  rcases findFreeBlock_spec (n := alignedSize size) (by decide) hl.seg hl.length_lt with
    ⟨pre, c, post, rfl, hpre, hfit, hfind⟩ | ⟨hnone, hfind⟩
  · simp only [hfind, Option.bind_some, hne, if_false, Option.map_some] at hr
    cases hr
    exact handOut_beside hl hheader hfit hy
  · simp only [hfind, Option.bind_some, if_true] at hr
    rcases extend_spec L hl hsum with ⟨p, hext⟩ | ⟨h', hext, hl'⟩
    · rw [hext] at hr
      cases hr
      rfl
    · have hfit : Fits (alignedSize size) ⟨max (alignedSize size) pageSize, true⟩ :=
        ⟨rfl, Nat.le_max_left _ _⟩
      have hold := extend_beside L hl hsum hy hext
      simp only [hext, Option.map_some, hl.brk, hne, if_false] at hr
      cases hr
      have hy' : InPayload (bs ++ [⟨max (alignedSize size) pageSize, true⟩]) x b y :=
        ⟨blockAt_append.mpr (.inl hy.block), hy.used, hy.above, hy.below⟩
      exact (handOut_beside hl' hheader hfit hy').trans hold

lemma kfree_beside {pre post : List Block} {c : Block} {h' : Heap π}
    (hl : Layout h (pre ++ c :: post)) (hy : InPayload (pre ++ c :: post) x b y)
    (hr : kfree h (heapStart + total pre + sizeofBlockHeader) = some h') :
    h'.memory y = h.memory y := by
  have hmagic : (header h.memory (heapStart + total pre)).magic = blockMagic := by
    rw [(seg_zoom.mp hl.seg).2.1]
  have hlen := hl.length_lt
  have haddr := hl.addr_lt
  have hclear := hy.clear hl.sized
  have hsized : Sized (pre ++ ⟨c.size, true⟩ :: post) :=
    hl.sized.replace (hl.sized c (by simp))
  simp only [List.length_append, List.length_cons] at hlen
  rw [kfree_block hl.payload_lt hmagic] at hr
  obtain ⟨m, hm, he⟩ := Option.map_eq_some_iff.mp hr
  cases he
  have hseg := seg_setIsFree hl.sized hl.seg true
  simp only [freeFlag, if_true] at hseg
  have hkept := mergeFreeBlocks_beside hsized hseg (by decide)
    (by simp only [total_append, total_cons] at haddr ⊢; omega) (by omega) (hclear.replace rfl) hm
  exact hkept.trans (setIsFree_beside _ hclear.zoom.1 _)

end Calls

end Veni.Memory.Heap
