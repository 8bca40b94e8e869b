import Veni.Memory.HeapBounds
import Veni.Memory.HeapCoalescing

/-! Pointers given back twice: which stale headers still reach the block list. -/

namespace Veni.Memory.Heap

open Veni.Lib Veni.Lib.ByteMemory Veni.Lib.Blocks Veni.Lib.Transition

variable {π : Type*}

def SizesAddUp (h : Heap π) : Prop :=
  ∃ blocks, Visits h.memory h.start blocks ∧
    heapStart + (blocks.map fun b => (header h.memory b).size).sum = h.currentBreak

def Rejects (h : Heap π) (ptr : ℕ) : Prop :=
  ∃ h', kfree h ptr = some h' ∧ SameBlocks h h' ∧ SizesAddUp h'

def RejectsBoth (h : Heap π) (p q : ℕ) : Prop :=
  ∃ h₁ h₂, kfree h p = some h₁ ∧ kfree h₁ q = some h₂ ∧ Rejects h₂ p ∧ Rejects h₂ q

/-- Nothing lies before the block `b`, or a used block other than `c`. -/
def Walled (m : ℕ → UInt8) (b c : ℕ) : Prop :=
  (header m b).prev = 0 ∨ (header m b).prev ≠ c ∧ (header m (header m b).prev).isFree = 0

/-- One free block lies between `c` and `b`, and nothing but a free block after `b`. -/
def Buried (m : ℕ → UInt8) (b c : ℕ) : Prop :=
  (header m b).prev ≠ 0 ∧ (header m (header m b).prev).isFree ≠ 0 ∧
    (header m (header m b).prev).prev = c ∧ ((header m b).next = 0 ∨
      (header m (header m b).next).isFree ≠ 0 ∧ (header m (header m b).next).next = 0)

def Separate (m : ℕ → UInt8) (b c : ℕ) : Prop := Walled m c b ∧ (Walled m b c ∨ Buried m b c)

instance (m : ℕ → UInt8) (b c : ℕ) : Decidable (Walled m b c) := inferInstanceAs (Decidable (_ ∨ _))

instance (m : ℕ → UInt8) (b c : ℕ) : Decidable (Buried m b c) := inferInstanceAs (Decidable (_ ∧ _))

instance (m : ℕ → UInt8) (b c : ℕ) : Decidable (Separate m b c) := inferInstanceAs (Decidable (_ ∧ _))

section Memory

variable {m : ℕ → UInt8} {block next d : ℕ}

lemma fuse_of_apart (h : Apart block next) (hd : Apart block d)
    (hn : (header m next).next = 0 ∨ Apart (header m next).next d) :
    header (fuse m block next) d = header m d := by
  rw [fuse_eq h]
  split
  · next hne =>
    rw [header_setPrev_of_apart (hn.resolve_left hne), header_setNext_of_apart hd,
      header_setSize_of_apart hd]
  · rw [header_setNext_of_apart hd, header_setSize_of_apart hd]

lemma fuse_size (h : Apart block next)
    (hn : (header m next).next = 0 ∨ Apart (header m next).next block) :
    (header (fuse m block next) block).size =
      ((header m block).size + (header m next).size) % 2 ^ 32 := by
  have hsize : ((header m block).size + (header m next).size) % 2 ^ 32 < 2 ^ 32 :=
    Nat.mod_lt _ (by decide)
  have hnext := (header_bounded m next).next
  rw [fuse_eq h]
  split
  · next hne =>
    rw [header_setPrev_of_apart (hn.resolve_left hne), header_setNext _ hnext, header_setSize _ hsize]
  · rw [header_setNext _ hnext, header_setSize _ hsize]

lemma fuse_prev (h : Apart block next) (hn : (header m next).next ≠ 0) (hb : block < 2 ^ 32) :
    (header (fuse m block next) (header m next).next).prev = block := by
  rw [fuse_eq h, if_pos hn, header_setPrev _ hb]

lemma setIsFree_same (h : (header m block).isFree = 1) : setIsFree m block 1 = m := by
  funext a
  by_cases ha : a = block + 8
  · rw [setIsFree, write8, if_pos ha, ha]
    exact h.symm
  · rw [setIsFree, write8, if_neg ha]

end Memory

lemma kfree_freed {h : Heap π} {b : ℕ} (hb : b + sizeofBlockHeader < 2 ^ 32)
    (hm : (header h.memory b).magic = blockMagic) (hf : (header h.memory b).isFree = 1)
    (hn : (header h.memory b).next = 0 ∨
      (header h.memory (header h.memory b).next).isFree = 0) :
    kfree h (b + sizeofBlockHeader) = some { h with memory := mergePrev h.memory b } := by
  have hwalk : walkBound = (walkBound - 1) + 1 := by decide
  rw [kfree_block hb hm, setIsFree_same hf, mergeFreeBlocks, hwalk, mergeNext_stop hn]
  rfl

section Layouts

variable {h : Heap π} {pre post : List Block} {b : Block}

lemma Layout.header_eq (hl : Layout h (pre ++ b :: post)) : header h.memory (heapStart + total pre) =
    ⟨blockMagic, b.size, freeFlag b, first 0 (heapStart + total pre + b.size) post,
      lastStart 0 heapStart pre⟩ :=
  (seg_zoom.mp hl.seg).2.1

lemma visits_unique {m : ℕ → UInt8} {a : ℕ} {xs ys : List ℕ} (hx : Visits m a xs)
    (hy : Visits m a ys) : xs = ys := by
  induction xs generalizing a ys with
  | nil =>
    cases ys with
    | nil => rfl
    | cons y ys => exact absurd hx hy.2.1
  | cons x xs ih =>
    obtain ⟨rfl, hne, hx⟩ := hx
    cases ys with
    | nil => exact absurd hy hne
    | cons y ys =>
      obtain ⟨rfl, _, hy⟩ := hy
      rw [ih hx hy]

lemma sum_sizes {m : ℕ → UInt8} {prev a : ℕ} {bs : List Block} (hs : Seg m 0 prev a bs) :
    ((addresses a bs).map fun b => (header m b).size).sum = total bs := by
  induction bs generalizing prev a with
  | nil => rfl
  | cons b bs ih =>
    obtain ⟨hb, hbs⟩ := hs
    rw [addresses, List.map_cons, List.sum_cons, ih hbs, hb, total_cons]

lemma Layout.rejects {h' : Heap π} {bs : List Block} {ptr : ℕ} (hl : Layout h bs)
    (hl' : Layout h' bs) (hf : kfree h ptr = some h') : Rejects h ptr := by
  refine ⟨h', hf, hl.sameBlocks hl', _, hl'.visits, ?_⟩
  rw [sum_sizes hl'.seg, hl'.brk]

lemma Layout.header_same {h' : Heap π} {bs : List Block} {x : ℕ} (hl : Layout h bs)
    (hsame : SameBlocks h h') (hx : BlockAt heapStart bs x b) :
    header h'.memory x = header h.memory x := by
  obtain ⟨_, blocks, hvisits, _, hheaders⟩ := hsame
  apply hheaders
  rw [visits_unique hvisits hl.visits]
  exact mem_addresses.mpr ⟨b, hx⟩

def Outside (bs : List Block) (d : ℕ) : Prop := ∀ x b, BlockAt heapStart bs x b → Apart x d

lemma outside_of_inside {bs : List Block} {x d : ℕ} (hs : Sized bs) (hx : BlockAt heapStart bs x b)
    (hlo : x + sizeofBlockHeader ≤ d) (hhi : d + sizeofBlockHeader ≤ x + b.size) : Outside bs d := by
  intro y c hy
  have hc := hs c hy.mem
  rcases hy.disjoint hx with ⟨rfl, _⟩ | hdis | hdis
  · exact .inl hlo
  · exact .inl (by omega)
  · exact .inr (by omega)

lemma fuse_outside {c e : Block} {m : ℕ → UInt8} {d : ℕ}
    (hs : Sized (pre ++ b :: c :: post)) (hm : Seg m 0 0 heapStart (pre ++ b :: c :: post))
    (he : e.size = b.size + c.size) (hd : Outside (pre ++ e :: post) d) :
    header (fuse m (heapStart + total pre) (heapStart + total pre + b.size)) d = header m d := by
  have hb := hs b (by simp)
  obtain ⟨_, _, hnext, _⟩ := seg_zoom.mp hm
  apply fuse_of_apart (.inl (Nat.add_le_add_left hb _)) (hd _ _ blockAt_self)
  rw [hnext]
  cases post with
  | nil => exact .inl rfl
  | cons f fs =>
    right
    apply hd _ f
    rw [blockAt_append]
    right
    right
    left
    exact ⟨by simp only [first, he]; omega, rfl⟩

lemma mergeNext_outside {m m' : ℕ → UInt8} {fuel d : ℕ} (hs : Sized (pre ++ b :: post))
    (hm : Seg m 0 0 heapStart (pre ++ b :: post))
    (hb : heapStart + total (pre ++ b :: post) < 2 ^ 32) (hc : Coalesced post)
    (hmerge : mergeNext (fuel + 2) m (heapStart + total pre) = some m')
    (hd : Outside (pre ++ (absorb b post).1 :: (absorb b post).2) d) :
    header m' d = header m d := by
  by_cases hused : ∀ c ∈ post.head?, c.free = false
  · rw [mergeNext_stop (seg_next_used hm hused)] at hmerge
    cases hmerge
    rfl
  · cases post with
    | nil => simp at hused
    | cons c cs =>
      have hfree : c.free = true := by simpa using hused
      have hrest : ∀ e ∈ cs.head?, e.free = false := (coalesced_cons.mp hc).2 hfree
      have habsorb : absorb b (c :: cs) = (⟨b.size + c.size, b.free⟩, cs) := by
        rw [absorb, if_pos hfree, absorb_used hrest]
      rw [habsorb] at hd
      obtain ⟨_, hhead, hnext⟩ := seg_zoom.mp hm
      have hpos : (header m (heapStart + total pre)).next = heapStart + total pre + b.size := by
        rw [hhead]
        rfl
      have hflag : (header m (heapStart + total pre + b.size)).isFree ≠ 0 := by
        rw [hnext.1]
        simp [freeFlag, hfree]
      have hseg := fuse_seg hs hm hb
      rw [mergeNext_fuse (by rw [hpos, heapStart]; omega) (by rw [hpos]; exact hflag), hpos,
        mergeNext_stop (seg_next_used hseg hrest)] at hmerge
      cases hmerge
      exact fuse_outside hs hm rfl hd

lemma Layout.kfree_halfway (hl : Layout h (pre ++ b :: post)) (hc : Coalesced post) :
    ∃ m, kfree h (heapStart + total pre + sizeofBlockHeader) =
        some { h with memory := mergePrev m (heapStart + total pre) } ∧
      Seg m 0 0 heapStart (pre ++ (absorb ⟨b.size, true⟩ post).1 :: (absorb ⟨b.size, true⟩ post).2) ∧
      ∀ d, Outside (pre ++ (absorb ⟨b.size, true⟩ post).1 :: (absorb ⟨b.size, true⟩ post).2) d →
        header m d = header h.memory d := by
  have hlen := hl.length_lt
  have haddr := hl.addr_lt
  simp only [List.length_append, List.length_cons] at hlen
  simp only [total_append, total_cons] at haddr
  have hsized : Sized (pre ++ ⟨b.size, true⟩ :: post) := hl.sized.replace (hl.sized b (by simp))
  have hseg := seg_setIsFree hl.sized hl.seg true
  have hbound : heapStart + total (pre ++ ⟨b.size, true⟩ :: post) < 2 ^ 32 := by
    simp only [total_append, total_cons]
    exact haddr
  have hwalk : walkBound = walkBound - 2 + 2 := by decide
  obtain ⟨m, hm, hseg'⟩ := mergeNext_seg hsized hseg (by decide) hbound
    (by omega : post.length < walkBound)
  refine ⟨m, ?_, hseg', fun d hd => ?_⟩
  · rw [kfree_block hl.payload_lt (by rw [hl.header_eq]), mergeFreeBlocks]
    simp only [freeFlag, if_true] at hm
    rw [hm]
    rfl
  · rw [hwalk] at hm
    rw [mergeNext_outside hsized hseg hbound hc hm hd]
    exact header_setIsFree_of_apart (hd _ _ blockAt_self) _

lemma Layout.kfree_stays (hl : Layout h (pre ++ b :: post)) (hc : Coalesced post)
    (hlast : ∀ a ∈ pre.getLast?, a.free = false) :
    ∃ h', kfree h (heapStart + total pre + sizeofBlockHeader) = some h' ∧
      Layout h' (pre ++ (absorb ⟨b.size, true⟩ post).1 :: (absorb ⟨b.size, true⟩ post).2) ∧
      ∀ d, Outside (pre ++ (absorb ⟨b.size, true⟩ post).1 :: (absorb ⟨b.size, true⟩ post).2) d →
        header h'.memory d = header h.memory d := by
  obtain ⟨m, hm, hseg, hout⟩ := hl.kfree_halfway hc
  obtain ⟨h', hh', hl'⟩ := kfree_spec hl
  rw [release, mergeLeft_used hlast] at hl'
  rw [hh'] at hm
  cases hm
  refine ⟨_, hh', hl', fun d hd => ?_⟩
  rw [← hout d hd]
  simp only [mergePrev_eq_self (seg_prev_used hseg hlast)]

lemma Layout.kfree_swallowed {a : Block} (hl : Layout h (pre ++ a :: b :: post))
    (hc : Coalesced post) (ha : a.free = true) :
    ∃ h', kfree h (heapStart + total pre + a.size + sizeofBlockHeader) = some h' ∧
      Layout h' (pre ++ ⟨a.size + (absorb ⟨b.size, true⟩ post).1.size, true⟩ ::
        (absorb ⟨b.size, true⟩ post).2) ∧
      header h'.memory (heapStart + total pre + a.size) =
        ⟨blockMagic, (absorb ⟨b.size, true⟩ post).1.size, 1,
          first 0 (heapStart + total pre + a.size + (absorb ⟨b.size, true⟩ post).1.size)
            (absorb ⟨b.size, true⟩ post).2, heapStart + total pre⟩ := by
  have hsplit : ∀ c cs, pre ++ a :: c :: cs = (pre ++ [a]) ++ c :: cs := by simp
  have haddr : heapStart + total (pre ++ [a]) = heapStart + total pre + a.size := by
    simp [Nat.add_assoc]
  rw [hsplit] at hl
  obtain ⟨m, hm, hseg, _⟩ := hl.kfree_halfway hc
  obtain ⟨h', hh', hl'⟩ := kfree_spec hl
  have hs := (hl.sized.replace (c := ⟨b.size, true⟩) (hl.sized b (by simp))).absorb
  rw [release, mergeLeft_concat, if_pos ha] at hl'
  rw [hh'] at hm
  cases hm
  rw [haddr] at hh' hl'
  refine ⟨_, hh', hl', ?_⟩
  have hflag := absorb_free ⟨b.size, true⟩ post
  generalize absorb ⟨b.size, true⟩ post = r at *
  have hhead := (seg_zoom.mp hseg).2.1
  rw [haddr] at hhead
  rw [← hsplit] at hseg hs
  have ha' := hs a (by simp)
  have hr := hs r.1 (by simp)
  have hlast : lastStart 0 heapStart (pre ++ [a]) = heapStart + total pre := by simp [lastStart]
  have hmerge := mergePrev_free hs hseg (by decide) ha
  have hout : Outside (pre ++ ⟨a.size + r.1.size, true⟩ :: r.2) (heapStart + total pre + a.size) := by
    apply outside_of_inside hl'.sized blockAt_self (Nat.add_le_add_left ha' _)
    simp only
    omega
  simp only [hmerge]
  rw [fuse_outside hs hseg rfl hout, hhead, hlast]
  simp [freeFlag, hflag]

lemma Layout.rejects_listed (hl : Layout h (pre ++ b :: post)) (hc : Coalesced (pre ++ b :: post))
    (hb : b.free = true) : Rejects h (heapStart + total pre + sizeofBlockHeader) := by
  obtain ⟨_, _, hends⟩ := coalesced_zoom.mp hc
  obtain ⟨hlast, hhead⟩ := hends hb
  have hmagic : (header h.memory (heapStart + total pre)).magic = blockMagic := by rw [hl.header_eq]
  have hfree : (header h.memory (heapStart + total pre)).isFree = 1 := by
    rw [hl.header_eq]
    simp [freeFlag, hb]
  apply hl.rejects hl
  rw [kfree_freed hl.payload_lt hmagic hfree (seg_next_used hl.seg hhead),
    mergePrev_eq_self (seg_prev_used hl.seg hlast)]

structure Stale (h : Heap π) (d next prev : ℕ) : Prop where
  left : ∃ size, 0 < size ∧ header h.memory d = ⟨blockMagic, size, 1, next, prev⟩
  fits : d + sizeofBlockHeader < 2 ^ 32

lemma Stale.kfree {d n g : ℕ} (hs : Stale h d n g) (hn : n = 0 ∨ (header h.memory n).isFree = 0)
    (hg : g ≠ 0) (hf : (header h.memory g).isFree ≠ 0) (hgd : Apart g d) :
    kfree h (d + sizeofBlockHeader) = some { h with memory := fuse h.memory g d } := by
  obtain ⟨⟨size, _, hd⟩, hfits⟩ := hs
  rw [kfree_freed hfits (by rw [hd]) (by rw [hd]) (by rw [hd]; exact hn), mergePrev_eq_fuse, hd]
  · rw [hd]
    exact hg
  · rw [hd]
    exact hf
  · rw [hd]
    exact hgd

lemma Stale.not_rejects {d : ℕ}
    (hs : Stale h d (first 0 (heapStart + total pre + b.size) post) (heapStart + total pre))
    (hl : Layout h (pre ++ b :: post)) (hc : Coalesced (pre ++ b :: post)) (hb : b.free = true)
    (hd : Outside (pre ++ b :: post) d) : ¬ Rejects h (d + sizeofBlockHeader) := by
  rintro ⟨h', hf, hsame, _⟩
  have hapart : Apart (heapStart + total pre) d := hd _ _ blockAt_self
  have hhead := hl.header_eq
  have hused := seg_next_used hl.seg ((coalesced_zoom.mp hc).2.2 hb).2
  rw [hhead] at hused
  have hnext : first 0 (heapStart + total pre + b.size) post = 0 ∨
      Apart (first 0 (heapStart + total pre + b.size) post) (heapStart + total pre) := by
    cases post with
    | nil => exact .inl rfl
    | cons c cs => exact .inr (.inr (Nat.add_le_add_left (hl.sized b (by simp)) _))
  have hne : heapStart + total pre ≠ 0 := by
    simp only [heapStart]
    omega
  rw [hs.kfree hused hne (by rw [hhead]; simp [freeFlag, hb]) hapart] at hf
  cases hf
  obtain ⟨size, hpos, hheader⟩ := hs.left
  have hsize := congrArg BlockHeader.size (hl.header_same hsame blockAt_self)
  have hlt := (header_bounded h.memory d).size
  have hlt' := (header_bounded h.memory (heapStart + total pre)).size
  simp only [fuse_size hapart (by rw [hheader]; exact hnext)] at hsize
  rw [hheader] at hsize hlt
  simp only at hsize hlt
  omega

lemma Stale.rejects_iff {d g : ℕ}
    (hs : Stale h d (first 0 (heapStart + total pre + b.size) post) g)
    (hl : Layout h (pre ++ b :: post)) (hc : Coalesced (pre ++ b :: post)) (hb : b.free = true)
    (hg : g ≠ 0) (hf : (header h.memory g).isFree ≠ 0) (hgd : Apart g d) (hlt : g < 2 ^ 32)
    (hout : Outside (pre ++ b :: post) g) :
    Rejects h (d + sizeofBlockHeader) ↔ post = [] := by
  obtain ⟨_, _, hends⟩ := coalesced_zoom.mp hc
  have hused := seg_next_used hl.seg (hends hb).2
  rw [hl.header_eq] at hused
  have hfree := hs.kfree hused hg hf hgd
  obtain ⟨size, _, hheader⟩ := hs.left
  constructor
  · rintro ⟨h', hh', hsame, _⟩
    cases post with
    | nil => rfl
    | cons c cs =>
      rw [hfree] at hh'
      cases hh'
      have hat : BlockAt heapStart (pre ++ b :: c :: cs) (heapStart + total pre + b.size) c := by
        simp [BlockAt]
      have hprev := congrArg BlockHeader.prev (hl.header_same hsame hat)
      have hnext : (header h.memory d).next = heapStart + total pre + b.size := by
        rw [hheader]
        rfl
      have hne : heapStart + total pre + b.size ≠ 0 := by
        simp only [heapStart]
        omega
      have hlist : (header h.memory (heapStart + total pre + b.size)).prev = heapStart + total pre := by
        rw [(seg_zoom.mp hl.seg).2.2.1]
      have hfuse := fuse_prev hgd (by rw [hnext]; exact hne) hlt
      rw [hnext] at hfuse
      rw [hlist] at hprev
      simp only [hfuse] at hprev
      have hself : BlockAt heapStart (pre ++ b :: c :: cs) (heapStart + total pre) b := blockAt_self
      have happ := hout _ _ hself
      rw [hprev] at happ
      simp only [Apart, sizeofBlockHeader] at happ
      omega
  · rintro rfl
    have hkeep : Layout { h with memory := fuse h.memory g d } (pre ++ [b]) := by
      refine ⟨hl.seg.congr_blocks fun x c hx => ?_, hl.start, hl.sized, hl.brk, hl.bounded⟩
      exact fuse_of_apart hgd (hout x c hx).symm (.inl (by rw [hheader]; rfl))
    exact hl.rejects hkeep hfree

structure Inner (h : Heap π) (d : ℕ) (pre : List Block) (b : Block) (post : List Block) : Prop where
  stale : Stale h d (first 0 (heapStart + total pre + b.size) post) (heapStart + total pre)
  lo : heapStart + total pre + sizeofBlockHeader ≤ d
  hi : d + sizeofBlockHeader ≤ heapStart + total pre + b.size

lemma Inner.not_rejects {d : ℕ} (hi : Inner h d pre b post) (hl : Layout h (pre ++ b :: post))
    (hc : Coalesced (pre ++ b :: post)) (hb : b.free = true) :
    ¬ Rejects h (d + sizeofBlockHeader) :=
  hi.stale.not_rejects hl hc hb (outside_of_inside hl.sized blockAt_self hi.lo hi.hi)

lemma Layout.swallows {a : Block} (hl : Layout h (pre ++ a :: b :: post))
    (hc : Coalesced (pre ++ a :: b :: post)) (ha : a.free = true) :
    ∃ h' g, kfree h (heapStart + total pre + a.size + sizeofBlockHeader) = some h' ∧
      g = ⟨a.size + (absorb ⟨b.size, true⟩ post).1.size, true⟩ ∧
      Layout h' (pre ++ g :: (absorb ⟨b.size, true⟩ post).2) ∧
      Coalesced (pre ++ g :: (absorb ⟨b.size, true⟩ post).2) ∧
      Inner h' (heapStart + total pre + a.size) pre g (absorb ⟨b.size, true⟩ post).2 := by
  have hb := hl.sized b (by simp)
  have ha' := hl.sized a (by simp)
  have haddr := hl.addr_lt
  have hlarger := le_absorb ⟨b.size, true⟩ post
  have hpost : Coalesced post := (coalesced_cons.mp (coalesced_zoom.mp hc).2.1).1
  obtain ⟨h', hfree, hl', hleft⟩ := hl.kfree_swallowed hpost ha
  have hc' := hc
  rw [List.append_cons] at hc'
  replace hc' := hc'.release
  rw [release, mergeLeft_concat, if_pos ha] at hc'
  simp only [total_append, total_cons] at haddr
  simp only [sizeofBlockHeader] at hb
  refine ⟨h', _, hfree, rfl, hl', hc', ⟨⟨?_, ?_⟩, ?_, ?_⟩⟩
  · refine ⟨_, ?_, by rw [hleft, Nat.add_assoc]⟩
    simp only at hlarger
    omega
  · simp only [sizeofBlockHeader]
    omega
  · exact Nat.add_le_add_left ha' _
  · simp only [sizeofBlockHeader] at hlarger ⊢
    omega

lemma Layout.stays (hl : Layout h (pre ++ b :: post)) (hc : Coalesced (pre ++ b :: post))
    (hlast : ∀ a ∈ pre.getLast?, a.free = false) :
    ∃ h', kfree h (heapStart + total pre + sizeofBlockHeader) = some h' ∧
      Layout h' (pre ++ (absorb ⟨b.size, true⟩ post).1 :: (absorb ⟨b.size, true⟩ post).2) ∧
      Coalesced (pre ++ (absorb ⟨b.size, true⟩ post).1 :: (absorb ⟨b.size, true⟩ post).2) ∧
      Rejects h' (heapStart + total pre + sizeofBlockHeader) ∧
      ∀ d, Outside (pre ++ (absorb ⟨b.size, true⟩ post).1 :: (absorb ⟨b.size, true⟩ post).2) d →
        header h'.memory d = header h.memory d := by
  obtain ⟨h', hfree, hl', hout⟩ := hl.kfree_stays (coalesced_zoom.mp hc).2.1 hlast
  have hc' := hc.release
  rw [release, mergeLeft_used hlast] at hc'
  exact ⟨h', hfree, hl', hc', hl'.rejects_listed hc' (absorb_free _ _), hout⟩

lemma Stale.congr {h' : Heap π} {d n g : ℕ} (hs : Stale h d n g)
    (he : header h'.memory d = header h.memory d) : Stale h' d n g :=
  ⟨by rw [he]; exact hs.left, hs.fits⟩

variable {q g : Block} {mid : List Block}

lemma getLast?_inside : (pre ++ b :: (mid ++ [g])).getLast? = some g := by
  simp [List.getLast?_append, List.getLast?_cons]

lemma Layout.frees_before (hl : Layout h (pre ++ q :: g :: post))
    (hc : Coalesced (pre ++ q :: g :: post)) (hg : g.free = true)
    (hlast : ∀ a ∈ pre.getLast?, a.free = false) :
    ∃ h', kfree h (heapStart + total pre + sizeofBlockHeader) = some h' ∧
      Rejects h' (heapStart + total pre + sizeofBlockHeader) ∧
      ¬ Rejects h' (heapStart + total pre + q.size + sizeofBlockHeader) ∧
      ∀ d, Inner h d (pre ++ [q]) g post → (Rejects h' (d + sizeofBlockHeader) ↔ post = []) := by
  have haddr : heapStart + total (pre ++ [q]) = heapStart + total pre + q.size := by
    simp [Nat.add_assoc]
  have hsplit : pre ++ q :: g :: post = (pre ++ [q]) ++ g :: post := by simp
  have hlimit := hl.addr_lt
  simp only [total_append, total_cons] at hlimit
  have hsq := hl.sized q (by simp)
  have hsg := hl.sized g (by simp)
  simp only [sizeofBlockHeader] at hsq hsg
  obtain ⟨h', hfree, hl', hc', hrejects, hout⟩ := hl.stays hc hlast
  rw [hsplit] at hl hc
  have habsorb : absorb ⟨q.size, true⟩ (g :: post) = (⟨q.size + g.size, true⟩, post) := by
    rw [absorb, if_pos hg, absorb_used ((coalesced_zoom.mp hc).2.2 hg).2]
  rw [habsorb] at hl' hc' hout
  have hheader := hl.header_eq
  have hlast' : lastStart 0 heapStart (pre ++ [q]) = heapStart + total pre := by simp [lastStart]
  rw [haddr, hlast'] at hheader
  have hinside : ∀ d, heapStart + total pre + q.size ≤ d →
      d + 20 ≤ heapStart + total pre + q.size + g.size →
        Outside (pre ++ ⟨q.size + g.size, true⟩ :: post) d := by
    intro d hlo hhi
    apply outside_of_inside hl'.sized blockAt_self
    · simp only [sizeofBlockHeader]
      omega
    · simp only [sizeofBlockHeader]
      omega
  have hself := hinside _ le_rfl (Nat.add_le_add_left hsg _)
  refine ⟨h', hfree, hrejects, ?_, fun d hd => ?_⟩
  · have hstale : Stale h' (heapStart + total pre + q.size)
        (first 0 (heapStart + total pre + (q.size + g.size)) post) (heapStart + total pre) := by
      refine ⟨⟨g.size, by omega, ?_⟩, by simp only [sizeofBlockHeader]; omega⟩
      rw [hout _ hself, hheader]
      simp [freeFlag, hg, Nat.add_assoc]
    exact hstale.not_rejects hl' hc' rfl hself
  · obtain ⟨hstale, hlo, hhi⟩ := hd
    rw [haddr] at hstale hlo hhi
    simp only [sizeofBlockHeader] at hlo hhi
    have hstale' := hstale.congr (hout d (hinside d (by omega) hhi))
    rw [Nat.add_assoc _ q.size g.size] at hstale'
    have hflag : (header h'.memory (heapStart + total pre + q.size)).isFree ≠ 0 := by
      rw [hout _ hself, hheader]
      simp [freeFlag, hg]
    have hne : heapStart + total pre + q.size ≠ 0 := by
      simp only [heapStart]
      omega
    exact hstale'.rejects_iff hl' hc' rfl hne hflag (.inl hlo) (by omega) hself

lemma Layout.still_listed {h' : Heap π} {pre' post' : List Block}
    (hl' : Layout h' (pre' ++ g :: post')) (hc' : Coalesced (pre' ++ g :: post'))
    (hg : g.free = true) (htotal : total pre' = total pre)
    (hfirst : ∀ a, first 0 a post' = first 0 a post)
    (hout : ∀ d, Outside (pre' ++ g :: post') d → header h'.memory d = header h.memory d) :
    Rejects h' (heapStart + total pre + sizeofBlockHeader) ∧
      ∀ d, Inner h d pre g post → ¬ Rejects h' (d + sizeofBlockHeader) := by
  rw [← htotal]
  refine ⟨hl'.rejects_listed hc' hg, fun d hd => ?_⟩
  obtain ⟨hstale, hlo, hhi⟩ := hd
  rw [← htotal] at hstale hlo hhi
  rw [← hfirst] at hstale
  have hd' : Outside (pre' ++ g :: post') d := outside_of_inside hl'.sized blockAt_self hlo hhi
  exact (hstale.congr (hout d hd')).not_rejects hl' hc' hg hd'

lemma Layout.frees_ahead (hl : Layout h (pre ++ q :: (mid ++ g :: post)))
    (hc : Coalesced (pre ++ q :: (mid ++ g :: post))) (hg : g.free = true) (hmid : mid ≠ [])
    (hlast : ∀ a ∈ pre.getLast?, a.free = false) :
    ∃ h', kfree h (heapStart + total pre + sizeofBlockHeader) = some h' ∧
      Rejects h' (heapStart + total pre + sizeofBlockHeader) ∧
      Rejects h' (heapStart + total (pre ++ q :: mid) + sizeofBlockHeader) ∧
      ∀ d, Inner h d (pre ++ q :: mid) g post → ¬ Rejects h' (d + sizeofBlockHeader) := by
  obtain ⟨us, u, rfl⟩ := (List.eq_nil_or_concat mid).resolve_left hmid
  rw [List.concat_eq_append] at *
  have hsplit : pre ++ q :: (us ++ [u] ++ g :: post) = (pre ++ q :: (us ++ [u])) ++ g :: post := by simp
  have hu : u.free = false := by
    rw [hsplit] at hc
    exact ((coalesced_zoom.mp hc).2.2 hg).1 u (by simp [List.getLast?_cons, List.getLast?_append])
  obtain ⟨h', hfree, hl', hc', hrejects, hout⟩ := hl.stays hc hlast
  have hsum := total_absorb ⟨q.size, true⟩ us
  rw [List.append_assoc, List.singleton_append, absorb_past hu] at hl' hc' hout
  generalize absorb ⟨q.size, true⟩ us = r at *
  have hsplit' : pre ++ r.1 :: (r.2 ++ u :: g :: post) = (pre ++ r.1 :: (r.2 ++ [u])) ++ g :: post := by
    simp
  simp only [hsplit'] at hl' hc' hout
  refine ⟨h', hfree, hrejects, hl'.still_listed hc' hg ?_ (fun a => rfl) hout⟩
  simp only [total_append, total_cons, total_nil] at hsum ⊢
  omega

lemma Layout.frees_behind (hl : Layout h (pre ++ g :: (mid ++ q :: post)))
    (hc : Coalesced (pre ++ g :: (mid ++ q :: post))) (hg : g.free = true)
    (hlast : ∀ a ∈ (pre ++ g :: mid).getLast?, a.free = false) :
    ∃ h', kfree h (heapStart + total (pre ++ g :: mid) + sizeofBlockHeader) = some h' ∧
      Rejects h' (heapStart + total (pre ++ g :: mid) + sizeofBlockHeader) ∧
      Rejects h' (heapStart + total pre + sizeofBlockHeader) ∧
      ∀ d, Inner h d pre g (mid ++ q :: post) → ¬ Rejects h' (d + sizeofBlockHeader) := by
  have hsplit : ∀ c cs, pre ++ g :: (mid ++ c :: cs) = (pre ++ g :: mid) ++ c :: cs := by simp
  rw [hsplit] at hl hc
  obtain ⟨h', hfree, hl', hc', hrejects, hout⟩ := hl.stays hc hlast
  rw [← hsplit] at hl' hc' hout
  have hfirst : ∀ c cs a, first 0 a (mid ++ c :: cs) = first 0 a (mid ++ q :: post) := by
    intro c cs a
    cases mid <;> rfl
  exact ⟨h', hfree, hrejects, hl'.still_listed hc' hg rfl (hfirst _ _) hout⟩

lemma Layout.not_rejectsBoth {p : ℕ} {h₁ : Heap π} (hp : kfree h p = some h₁)
    (hl : Layout h₁ (pre ++ b :: post)) (hc : Coalesced (pre ++ b :: post))
    (hlast : ¬ ∀ a ∈ pre.getLast?, a.free = false) :
    ¬ RejectsBoth h p (heapStart + total pre + sizeofBlockHeader) := by
  rcases List.eq_nil_or_concat pre with rfl | ⟨cs, a, rfl⟩
  · simp at hlast
  · rw [List.concat_eq_append] at *
    have ha : a.free = true := by simpa using hlast
    have haddr : heapStart + total (cs ++ [a]) = heapStart + total cs + a.size := by
      simp [Nat.add_assoc]
    rw [List.append_assoc, List.singleton_append] at hl hc
    obtain ⟨h₂, g, hq, rfl, hl₂, hc₂, hinner⟩ := hl.swallows hc ha
    rw [haddr]
    rintro ⟨x, y, hx, hy, _, hrejects⟩
    rw [hp] at hx
    cases hx
    rw [hq] at hy
    cases hy
    exact hinner.not_rejects hl₂ hc₂ rfl hrejects

lemma rejectsBoth_iff {p q : ℕ} {h₁ h₂ : Heap π} (hp : kfree h p = some h₁)
    (hq : kfree h₁ q = some h₂) (hrejects : Rejects h₂ q) : RejectsBoth h p q ↔ Rejects h₂ p := by
  constructor
  · rintro ⟨x, y, hx, hy, hrejects, _⟩
    rw [hp] at hx
    cases hx
    rw [hq] at hy
    cases hy
    exact hrejects
  · intro hrejects'
    exact ⟨h₁, h₂, hp, hq, hrejects', hrejects⟩

lemma Layout.walled_iff (hl : Layout h (pre ++ b :: post)) {c : ℕ} :
    Walled h.memory (heapStart + total pre) c ↔
      ∀ a ∈ pre.getLast?, a.free = false ∧ heapStart + total pre ≠ c + a.size := by
  rw [Walled, hl.header_eq]
  rcases List.eq_nil_or_concat pre with rfl | ⟨cs, a, rfl⟩
  · simp [lastStart]
  · rw [List.concat_eq_append] at *
    rw [List.append_assoc, List.singleton_append] at hl
    have hne : heapStart + total cs ≠ 0 := by
      simp only [heapStart]
      omega
    have hflag : freeFlag a = 0 ↔ a.free = false := by cases ha : a.free <;> simp [freeFlag, ha]
    simp only [lastStart_append, lastStart, hl.header_eq, hflag, hne, false_or, List.getLast?_append,
      List.getLast?_singleton, Option.some_or, Option.mem_some_iff, forall_eq', total_append,
      total_cons, total_nil, Nat.add_zero]
    rw [and_comm, ← Nat.add_assoc, ne_eq, ne_eq, Nat.add_right_cancel_iff]

lemma Layout.last_iff (hl : Layout h (pre ++ b :: post)) (hc : Coalesced post) :
    ((header h.memory (heapStart + total pre)).next = 0 ∨
        (header h.memory (header h.memory (heapStart + total pre)).next).isFree ≠ 0 ∧
          (header h.memory (header h.memory (heapStart + total pre)).next).next = 0) ↔
      (absorb ⟨b.size, true⟩ post).2 = [] := by
  have hnext := (seg_zoom.mp hl.seg).2.2
  rw [hl.header_eq]
  cases post with
  | nil => simp [first, absorb]
  | cons c cs =>
    have hne : ∀ n, heapStart + total pre + n ≠ 0 := by
      intro n
      simp only [heapStart]
      omega
    simp only [first, hnext.1, hne, false_or, absorb]
    cases hfree : c.free with
    | false => simp [freeFlag, hfree]
    | true =>
      have hused := (coalesced_cons.mp hc).2 hfree
      rw [if_pos rfl, absorb_used hused]
      cases cs with
      | nil => simp [freeFlag, hfree]
      | cons d ds =>
        have hne' := hne (b.size + c.size)
        rw [← Nat.add_assoc] at hne'
        simp only [hne', and_false, reduceCtorEq]

lemma Layout.buried_iff {a : Block} (hl : Layout h (pre ++ a :: b :: post)) (hc : Coalesced post)
    {c : ℕ} : Buried h.memory (heapStart + total (pre ++ [a])) c ↔
      a.free = true ∧ lastStart 0 heapStart pre = c ∧ (absorb ⟨b.size, true⟩ post).2 = [] := by
  have hprev := hl.header_eq
  rw [List.append_cons] at hl
  have hne : heapStart + total pre ≠ 0 := by
    simp only [heapStart]
    omega
  have hflag : freeFlag a ≠ 0 ↔ a.free = true := by cases ha : a.free <;> simp [freeFlag, ha]
  have hback : (header h.memory (heapStart + total (pre ++ [a]))).prev = heapStart + total pre := by
    rw [hl.header_eq]
    simp [lastStart]
  rw [Buried, hl.last_iff hc, hback, hprev, hflag]
  simp only [ne_eq, hne, not_false_eq_true, true_and]

section Second

variable {h₁ : Heap π}

lemma Layout.rejectsBoth_listed
    (hp : kfree h (heapStart + total (pre ++ q :: mid) + sizeofBlockHeader) = some h₁)
    (hl : Layout h₁ (pre ++ q :: (mid ++ g :: post)))
    (hc : Coalesced (pre ++ q :: (mid ++ g :: post))) (hg : g.free = true) :
    RejectsBoth h (heapStart + total (pre ++ q :: mid) + sizeofBlockHeader)
        (heapStart + total pre + sizeofBlockHeader) ↔
      (∀ a ∈ pre.getLast?, a.free = false) ∧ mid ≠ [] := by
  by_cases hlast : ∀ a ∈ pre.getLast?, a.free = false
  · rw [and_iff_right hlast]
    by_cases hmid : mid = []
    · subst hmid
      have haddr : heapStart + total (pre ++ [q]) = heapStart + total pre + q.size := by
        simp [Nat.add_assoc]
      rw [haddr] at hp ⊢
      obtain ⟨h₂, hq, hrejects, hnot, _⟩ := hl.frees_before hc hg hlast
      rw [rejectsBoth_iff hp hq hrejects]
      exact iff_of_false hnot fun hne => hne rfl
    · obtain ⟨h₂, hq, hrejects, hrejects', _⟩ := hl.frees_ahead hc hg hmid hlast
      rw [rejectsBoth_iff hp hq hrejects]
      exact iff_of_true hrejects' hmid
  · exact iff_of_false (hl.not_rejectsBoth hp hc hlast) fun hboth => hlast hboth.1

lemma Inner.rejectsBoth {d : ℕ} (hp : kfree h (d + sizeofBlockHeader) = some h₁)
    (hi : Inner h₁ d (pre ++ q :: mid) g post) (hl : Layout h₁ (pre ++ q :: (mid ++ g :: post)))
    (hc : Coalesced (pre ++ q :: (mid ++ g :: post))) (hg : g.free = true) :
    RejectsBoth h (d + sizeofBlockHeader) (heapStart + total pre + sizeofBlockHeader) ↔
      (∀ a ∈ pre.getLast?, a.free = false) ∧ mid = [] ∧ post = [] := by
  by_cases hlast : ∀ a ∈ pre.getLast?, a.free = false
  · rw [and_iff_right hlast]
    by_cases hmid : mid = []
    · subst hmid
      obtain ⟨h₂, hq, hrejects, _, hinner⟩ := hl.frees_before hc hg hlast
      rw [rejectsBoth_iff hp hq hrejects, hinner d hi, and_iff_right rfl]
    · obtain ⟨h₂, hq, hrejects, _, hinner⟩ := hl.frees_ahead hc hg hmid hlast
      rw [rejectsBoth_iff hp hq hrejects]
      exact iff_of_false (hinner d hi) fun hboth => hmid hboth.1
  · exact iff_of_false (hl.not_rejectsBoth hp hc hlast) fun hboth => hlast hboth.1

def Divides (mid : List Block) : Prop := ∃ u ∈ mid.getLast?, u.free = false

lemma divides_iff (hg : g.free = true) :
    Divides mid ↔ ∀ a ∈ (pre ++ g :: mid).getLast?, a.free = false := by
  rcases List.eq_nil_or_concat mid with rfl | ⟨us, u, rfl⟩
  · simp [Divides, hg]
  · rw [List.concat_eq_append, getLast?_inside]
    simp [Divides]

lemma divides_absorb : Divides (absorb b mid).2 ↔ Divides mid := by
  obtain ⟨ds, hds, hfree⟩ := absorb_split b mid
  generalize absorb b mid = r at *
  subst hds
  rcases List.eq_nil_or_concat r.2 with hr | ⟨us, u, hr⟩
  · rw [hr, List.append_nil]
    refine iff_of_false (by simp [Divides]) ?_
    rintro ⟨u, hu, hused⟩
    rw [hfree u (List.mem_of_mem_getLast? hu)] at hused
    cases hused
  · rw [hr, List.concat_eq_append]
    simp [Divides, ← List.append_assoc]

lemma Layout.rejectsBoth_behind (hp : kfree h (heapStart + total pre + sizeofBlockHeader) = some h₁)
    (hl : Layout h₁ (pre ++ g :: (mid ++ q :: post)))
    (hc : Coalesced (pre ++ g :: (mid ++ q :: post))) (hg : g.free = true) :
    RejectsBoth h (heapStart + total pre + sizeofBlockHeader)
        (heapStart + total (pre ++ g :: mid) + sizeofBlockHeader) ↔ Divides mid := by
  rw [divides_iff hg]
  by_cases hlast : ∀ a ∈ (pre ++ g :: mid).getLast?, a.free = false
  · obtain ⟨h₂, hq, hrejects, hrejects', _⟩ := hl.frees_behind hc hg hlast
    rw [rejectsBoth_iff hp hq hrejects]
    exact iff_of_true hrejects' hlast
  · rw [← List.cons_append, ← List.append_assoc] at hl hc
    exact iff_of_false (hl.not_rejectsBoth hp hc hlast) hlast

lemma Inner.not_rejectsBoth {d : ℕ} (hp : kfree h (d + sizeofBlockHeader) = some h₁)
    (hi : Inner h₁ d pre g (mid ++ q :: post)) (hl : Layout h₁ (pre ++ g :: (mid ++ q :: post)))
    (hc : Coalesced (pre ++ g :: (mid ++ q :: post))) (hg : g.free = true) :
    ¬ RejectsBoth h (d + sizeofBlockHeader)
      (heapStart + total (pre ++ g :: mid) + sizeofBlockHeader) := by
  by_cases hlast : ∀ a ∈ (pre ++ g :: mid).getLast?, a.free = false
  · obtain ⟨h₂, hq, hrejects, _, hinner⟩ := hl.frees_behind hc hg hlast
    rw [rejectsBoth_iff hp hq hrejects]
    exact hinner d hi
  · rw [← List.cons_append, ← List.append_assoc] at hl hc
    exact hl.not_rejectsBoth hp hc hlast

end Second

lemma lastStart_eq_iff {a : ℕ} {us : List Block} (hs : Sized (q :: us)) :
    lastStart 0 a (pre ++ q :: us) = a + total pre ↔ us = [] := by
  have hq := hs.cons.1
  simp only [sizeofBlockHeader] at hq
  rcases List.eq_nil_or_concat us with rfl | ⟨vs, u, rfl⟩
  · simp [lastStart]
  · rw [List.concat_eq_append]
    simp [lastStart]
    omega

lemma lastStart_le {a : ℕ} {bs : List Block} : lastStart 0 a bs ≤ a + total bs := by
  rcases List.eq_nil_or_concat bs with rfl | ⟨cs, c, rfl⟩
  · simp [lastStart]
  · rw [List.concat_eq_append]
    simp [lastStart, ← Nat.add_assoc]

lemma Layout.walled_front (hl : Layout h (pre ++ b :: (mid ++ q :: post))) :
    Walled h.memory (heapStart + total pre) (heapStart + total (pre ++ b :: mid)) ↔
      ∀ a ∈ pre.getLast?, a.free = false := by
  have hsb := hl.sized b (by simp)
  simp only [sizeofBlockHeader] at hsb
  rw [hl.walled_iff]
  refine forall₂_congr fun a _ => and_iff_left ?_
  simp only [total_append, total_cons]
  omega

lemma Layout.walled_behind (hl : Layout h (pre ++ b :: (mid ++ q :: post))) :
    Walled h.memory (heapStart + total (pre ++ b :: mid)) (heapStart + total pre) ↔
      Divides mid := by
  have hsb := hl.sized b (by simp)
  simp only [sizeofBlockHeader] at hsb
  rw [← List.cons_append, ← List.append_assoc] at hl
  rw [hl.walled_iff]
  rcases List.eq_nil_or_concat mid with rfl | ⟨us, u, rfl⟩
  · simp [Divides, Nat.add_assoc]
  · rw [List.concat_eq_append, getLast?_inside, Divides, List.getLast?_concat]
    simp only [Option.mem_some_iff, forall_eq', exists_eq_left', total_append, total_cons]
    exact and_iff_left (by omega)

lemma Layout.buried_behind {us : List Block} {a : Block}
    (hl : Layout h (pre ++ q :: us ++ a :: b :: post)) (hc : Coalesced post) :
    Buried h.memory (heapStart + total (pre ++ q :: (us ++ [a]))) (heapStart + total pre) ↔
      a.free = true ∧ us = [] ∧ (absorb ⟨b.size, true⟩ post).2 = [] := by
  have hsized : Sized (q :: us) := by
    intro c hmem
    exact hl.sized c (by simp only [List.mem_append]; tauto)
  have hprev : pre ++ q :: us ++ [a] = pre ++ q :: (us ++ [a]) := by simp
  rw [← hprev, hl.buried_iff hc, lastStart_eq_iff hsized]

lemma Layout.not_buried_ahead {a : Block} (hl : Layout h (pre ++ a :: b :: (mid ++ q :: post)))
    (hc : Coalesced (mid ++ q :: post)) :
    ¬ Buried h.memory (heapStart + total (pre ++ [a]))
      (heapStart + total (pre ++ [a] ++ b :: mid)) := by
  have hsb := hl.sized b (by simp)
  have hle : lastStart 0 heapStart pre ≤ heapStart + total pre := lastStart_le
  simp only [sizeofBlockHeader] at hsb
  rw [hl.buried_iff hc]
  rintro ⟨_, hlast, _⟩
  simp only [total_append, total_cons] at hlast
  omega

lemma Layout.rejectsBoth_before (hl : Layout h (pre ++ q :: (mid ++ b :: post)))
    (hc : Coalesced (pre ++ q :: (mid ++ b :: post))) (hq : q.free = false) :
    RejectsBoth h (heapStart + total (pre ++ q :: mid) + sizeofBlockHeader)
        (heapStart + total pre + sizeofBlockHeader) ↔
      Separate h.memory (heapStart + total (pre ++ q :: mid)) (heapStart + total pre) := by
  have hsplit : ∀ bs c cs, pre ++ q :: (bs ++ c :: cs) = pre ++ q :: bs ++ c :: cs := by simp
  have hpost : Coalesced post := (coalesced_zoom.mp (hsplit mid b post ▸ hc)).2.1
  rw [Separate, hl.walled_front, hl.walled_behind]
  rcases List.eq_nil_or_concat mid with rfl | ⟨us, a, rfl⟩
  · have hburied : ¬ Buried h.memory (heapStart + total (pre ++ [q])) (heapStart + total pre) := by
      rw [hl.buried_iff hpost, hq]
      simp
    rw [hsplit] at hl hc
    obtain ⟨h₁, hp, hl₁, hc₁, _, _⟩ := hl.stays hc (by simp [hq])
    rw [← hsplit] at hl₁ hc₁
    have hdivides : ¬ Divides ([] : List Block) := by simp [Divides]
    rw [hl₁.rejectsBoth_listed hp hc₁ (absorb_free _ _)]
    simp only [hdivides, hburied, ne_eq, not_true_eq_false, or_self, and_false]
  · rw [List.concat_eq_append] at *
    have hinside : pre ++ q :: (us ++ [a]) ++ b :: post = pre ++ q :: us ++ a :: b :: post := by simp
    have hdivides : Divides (us ++ [a]) ↔ a.free = false := by simp [Divides]
    rw [hsplit] at hl hc
    have hbefore : Layout h (pre ++ q :: us ++ a :: b :: post) := by
      rw [← hinside]
      exact hl
    rw [hdivides, hbefore.buried_behind hpost]
    cases ha : a.free with
    | false =>
      have hlast : ∀ c ∈ (pre ++ q :: (us ++ [a])).getLast?, c.free = false := by
        rw [getLast?_inside]
        simp [ha]
      obtain ⟨h₁, hp, hl₁, hc₁, _, _⟩ := hl.stays hc hlast
      rw [← hsplit] at hl₁ hc₁
      rw [hl₁.rejectsBoth_listed hp hc₁ (absorb_free _ _)]
      simp
    | true =>
      have haddr : total (pre ++ q :: (us ++ [a])) = total (pre ++ q :: us) + a.size := by
        simp [Nat.add_assoc]
      rw [hinside] at hc
      obtain ⟨h₁, g, hp, rfl, hl₁, hc₁, hinner⟩ := hbefore.swallows hc ha
      rw [← hsplit] at hl₁ hc₁
      rw [haddr, ← Nat.add_assoc, hinner.rejectsBoth hp hl₁ hc₁ rfl]
      simp

lemma Layout.rejectsBoth_after (hl : Layout h (pre ++ b :: (mid ++ q :: post)))
    (hc : Coalesced (pre ++ b :: (mid ++ q :: post))) (hq : q.free = false) :
    RejectsBoth h (heapStart + total pre + sizeofBlockHeader)
        (heapStart + total (pre ++ b :: mid) + sizeofBlockHeader) ↔
      Separate h.memory (heapStart + total pre) (heapStart + total (pre ++ b :: mid)) := by
  have hpost : Coalesced (mid ++ q :: post) := (coalesced_zoom.mp hc).2.1
  have hkeep : total (absorb ⟨b.size, true⟩ mid).2 + (absorb ⟨b.size, true⟩ mid).1.size =
      b.size + total mid := by
    rw [← total_absorb ⟨b.size, true⟩ mid, Nat.add_comm]
  have hdivides : Divides (absorb ⟨b.size, true⟩ mid).2 ↔ Divides mid := divides_absorb
  rw [Separate, hl.walled_behind, hl.walled_front]
  by_cases hlast : ∀ a ∈ pre.getLast?, a.free = false
  · obtain ⟨h₁, hp, hl₁, hc₁, _, _⟩ := hl.stays hc hlast
    rw [absorb_past hq] at hl₁ hc₁
    have haddr : total (pre ++ b :: mid) =
        total (pre ++ (absorb ⟨b.size, true⟩ mid).1 :: (absorb ⟨b.size, true⟩ mid).2) := by
      simp only [total_append, total_cons]
      omega
    rw [haddr, hl₁.rejectsBoth_behind hp hc₁ (absorb_free _ _), hdivides]
    exact (and_iff_left (.inl hlast)).symm
  · rcases List.eq_nil_or_concat pre with rfl | ⟨cs, a, rfl⟩
    · simp at hlast
    · rw [List.concat_eq_append] at *
      have ha : a.free = true := by simpa using hlast
      have haddr : total (cs ++ [a]) = total cs + a.size := by simp
      rw [List.append_assoc, List.singleton_append] at hl hc
      have hburied := hl.not_buried_ahead hpost
      obtain ⟨h₁, g, hp, rfl, hl₁, hc₁, hinner⟩ := hl.swallows hc ha
      rw [absorb_past hq] at hl₁ hc₁ hinner
      have hnot := hinner.not_rejectsBoth hp hl₁ hc₁ rfl
      have hq' : heapStart + total (cs ++ [a] ++ b :: mid) = heapStart + total (cs ++
          ⟨a.size + (absorb ⟨b.size, true⟩ mid).1.size, true⟩ :: (absorb ⟨b.size, true⟩ mid).2) := by
        simp only [total_append, total_cons, total_nil]
        omega
      refine iff_of_false ?_ ?_
      · rw [haddr, ← Nat.add_assoc, hq']
        exact hnot
      · rintro ⟨_, hor⟩
        exact hor.elim hlast hburied

end Layouts

lemma CoalescedInv.rejectsBoth_iff {x : Session π} (h : CoalescedInv x) {p q : ℕ}
    (hp : p ∈ x.outstanding.map Prod.fst) (hq : q ∈ x.outstanding.map Prod.fst) (hne : p ≠ q) :
    RejectsBoth x.heap p q ↔
      Separate x.heap.memory (p - sizeofBlockHeader) (q - sizeofBlockHeader) := by
  obtain ⟨bs, hl, hledger, hc⟩ := h
  obtain ⟨⟨_, s⟩, hps, rfl⟩ := List.mem_map.mp hp
  obtain ⟨⟨_, t⟩, hqt, rfl⟩ := List.mem_map.mp hq
  obtain ⟨a, b, hpa, hb, hbused, _⟩ := hledger.inside _ hps
  obtain ⟨e, c, hqe, hc', hcused, _⟩ := hledger.inside _ hqt
  simp only at hpa hqe hne ⊢
  subst hpa hqe
  rw [Nat.add_sub_cancel, Nat.add_sub_cancel]
  rcases hb.order hc' (fun he => hne (by rw [he])) with
    ⟨pre, mid, post, rfl, rfl, rfl⟩ | ⟨pre, mid, post, rfl, rfl, rfl⟩
  · exact hl.rejectsBoth_after hc hcused
  · exact hl.rejectsBoth_before hc hcused

section Runs

variable (L : PageLayer π)

def Unwrapping (x : Session π) (c : Call) (y : Session π) : Prop := Requests L x c y ∧ NoWrap x c y

variable {L} {x y : Session π} {c : Call}

lemma CoalescedInv.unwrapping (h : CoalescedInv x) (hs : Unwrapping L x c y) : CoalescedInv y := by
  obtain ⟨bs, hl, hledger, hc⟩ := h
  obtain ⟨⟨hp, hexec⟩, hfit⟩ := hs
  obtain ⟨z, hz, cs, hl', hledger', hmoves⟩ := hl.promised L hledger hp hfit
  rw [hexec] at hz
  cases hz
  exact ⟨cs, hl', hledger', hmoves.coalesced hc⟩

lemma Step.unwrapping (h : Inv x) (hs : Step L x c y) : Unwrapping L x c y := by
  obtain ⟨bs, hl, _⟩ := h
  obtain ⟨hc, hexec⟩ := hs
  cases c with
  | kmalloc size =>
    refine ⟨⟨Nat.lt_of_le_of_lt hc (by decide), hexec⟩, fun n he => ?_⟩
    cases he
    exact hl.unwrapped hc
  | kfree ptr => exact ⟨⟨hc, hexec⟩, fun n he => by cases he⟩
  | write m => exact ⟨⟨hc, hexec⟩, fun n he => by cases he⟩

lemma run_unwrapping {cs : List Call} (hx : Inv x) (h : Run (Step L) x cs y) : Run (Unwrapping L) x cs y := by
  induction h with
  | nil => exact .nil _
  | cons hs _ ih =>
    have hfit := hs.unwrapping hx
    exact .cons hfit (ih (hx.requests hfit.1 hfit.2))

end Runs

variable (L : PageLayer π)

/-- In every state of every run in which no request wraps, two pointers given back are rejected from
then on exactly when no merge took a block of theirs off the list, or only one that can no longer
reach it. -/
theorem freed_rejected_iff (m : ℕ → UInt8) (pages : π) {cs : List Call} {x : Session π}
    (h : Run (Unwrapping L) ⟨kheapInit L (unused m pages), []⟩ cs x) {p q : ℕ}
    (hp : p ∈ x.outstanding.map Prod.fst) (hq : q ∈ x.outstanding.map Prod.fst) (hne : p ≠ q) :
    RejectsBoth x.heap p q ↔
      Separate x.heap.memory (p - sizeofBlockHeader) (q - sizeofBlockHeader) := by
  have hinv : CoalescedInv x :=
    h.invariant (fun _ _ _ hs hstep => hs.unwrapping hstep) (coalescedInv_kheapInit L m pages)
  exact hinv.rejectsBoth_iff hp hq hne

def threeRequests : List Call := [.kmalloc 24, .kmalloc 24, .kmalloc 24]

lemma loggedPages_threeRequests : ∃ x, Run (Unwrapping loggedPages)
    ⟨kheapInit loggedPages (unused (fun _ => 0) []), []⟩ threeRequests x ∧
      x.outstanding.map Prod.fst = [0xD000006C, 0xD0000040, 0xD0000014] ∧
      Separate x.heap.memory 0xD0000000 0xD0000058 ∧
      ¬ Separate x.heap.memory 0xD0000000 0xD000002C := by
  have hrun : (((exec loggedPages ⟨kheapInit loggedPages (unused (fun _ => 0) []), []⟩
      (.kmalloc 24)).bind fun x => (exec loggedPages x (.kmalloc 24)).bind fun y =>
        exec loggedPages y (.kmalloc 24)).map fun x => (x.outstanding.map Prod.fst,
          decide (Separate x.heap.memory 0xD0000000 0xD0000058),
          decide (Separate x.heap.memory 0xD0000000 0xD000002C))) =
      some ([0xD000006C, 0xD0000040, 0xD0000014], true, false) := by decide +kernel
  obtain ⟨z, hz, hfacts⟩ := Option.map_eq_some_iff.mp hrun
  obtain ⟨x, hx, hrest⟩ := Option.bind_eq_some_iff.mp hz
  obtain ⟨y, hy, hz⟩ := Option.bind_eq_some_iff.mp hrest
  simp only [Prod.mk.injEq, decide_eq_true_eq, decide_eq_false_iff_not] at hfacts
  have hsize : 24 ≤ heapMaxSize := by decide
  have hrun : Run (Step loggedPages) ⟨kheapInit loggedPages (unused (fun _ => 0) []), []⟩ threeRequests z :=
    .cons ⟨hsize, hx⟩ (.cons ⟨hsize, hy⟩ (.single ⟨hsize, hz⟩))
  exact ⟨z, run_unwrapping (inv_kheapInit loggedPages _ _) hrun, hfacts⟩

theorem freed_rejected_iff_apart :
    ∃ x, Run (Unwrapping loggedPages) ⟨kheapInit loggedPages (unused (fun _ => 0) []), []⟩
        threeRequests x ∧ RejectsBoth x.heap 0xD0000014 0xD000006C := by
  obtain ⟨x, hrun, hlist, hseparate, _⟩ := loggedPages_threeRequests
  exact ⟨x, hrun, (freed_rejected_iff loggedPages _ _ hrun (by simp [hlist]) (by simp [hlist])
    (by decide)).mpr hseparate⟩

/-- Two neighbours given back: the second is merged into the first, and giving it back again makes
that block grow again. -/
theorem freed_not_rejected :
    ∃ x, Run (Unwrapping loggedPages) ⟨kheapInit loggedPages (unused (fun _ => 0) []), []⟩
        threeRequests x ∧ 0xD0000014 ∈ x.outstanding.map Prod.fst ∧
      0xD0000040 ∈ x.outstanding.map Prod.fst ∧ ¬ RejectsBoth x.heap 0xD0000014 0xD0000040 := by
  obtain ⟨x, hrun, hlist, _, hjoined⟩ := loggedPages_threeRequests
  have hp : 0xD0000014 ∈ x.outstanding.map Prod.fst := by simp [hlist]
  have hq : 0xD0000040 ∈ x.outstanding.map Prod.fst := by simp [hlist]
  have hinv : CoalescedInv x := hrun.invariant (fun _ _ _ hs hstep => hs.unwrapping hstep)
    (coalescedInv_kheapInit loggedPages _ _)
  refine ⟨x, hrun, hp, hq, ?_⟩
  rw [hinv.rejectsBoth_iff hp hq (by decide)]
  exact hjoined

end Veni.Memory.Heap
