import Veni.Memory.HeapBlocks

/-! The list walks, the split and the merges of the heap, on the blocks they see. -/

namespace Veni.Memory.Heap

open Veni.Lib.ByteMemory Veni.Lib.Blocks

def splitSlack : ℕ := sizeofBlockHeader + 16

lemma findFreeBlock_spec {m : ℕ → UInt8} {n fuel prev a : ℕ} {bs : List Block} (ha : 0 < a)
    (h : Seg m 0 prev a bs) (hf : bs.length < fuel) :
    (∃ pre b post, bs = pre ++ b :: post ∧ (∀ c ∈ pre, ¬ Fits n c) ∧ Fits n b ∧
        findFreeBlock m n fuel (first 0 a bs) = some (a + total pre)) ∨
      ((∀ c ∈ bs, ¬ Fits n c) ∧ findFreeBlock m n fuel (first 0 a bs) = some 0) := by
  induction bs generalizing fuel prev a with
  | nil =>
    cases fuel with
    | zero => simp at hf
    | succ fuel => exact .inr ⟨by simp, by simp [findFreeBlock, first]⟩
  | cons b bs ih =>
    cases fuel with
    | zero => simp at hf
    | succ fuel =>
      have hne : a ≠ 0 := by omega
      have hflag : freeFlag b ≠ 0 ∧ n ≤ b.size ↔ Fits n b := by
        cases hb : b.free <;> simp [freeFlag, Fits, hb]
      have hstep : findFreeBlock m n (fuel + 1) (first 0 a (b :: bs)) =
          if Fits n b then some a else findFreeBlock m n fuel (first 0 (a + b.size) bs) := by
        simp only [findFreeBlock, first, h.1, hne, if_false, ne_eq, not_true_eq_false]
        simp only [ne_eq] at hflag
        simp only [hflag]
      rw [hstep]
      by_cases hfit : Fits n b
      · exact .inl ⟨[], b, bs, rfl, by simp, hfit, by simp [hfit]⟩
      · rw [if_neg hfit]
        rcases ih (by omega) h.2 (by simpa using hf) with
          ⟨pre, c, post, he, hpre, hc, hr⟩ | ⟨hnone, hr⟩
        · refine .inl ⟨b :: pre, c, post, by simp [he], ?_, hc, ?_⟩
          · intro d hd
            rcases List.mem_cons.mp hd with rfl | hd
            · exact hfit
            · exact hpre d hd
          · rw [hr, total_cons, Nat.add_assoc]
        · refine .inr ⟨fun d hd => ?_, hr⟩
          rcases List.mem_cons.mp hd with rfl | hd
          · exact hfit
          · exact hnone d hd

lemma lastBlock_spec {m : ℕ → UInt8} {fuel prev a : ℕ} {b : Block} {bs : List Block} (ha : 0 < a)
    (h : Seg m 0 prev a (b :: bs)) (hf : bs.length < fuel) :
    lastBlock m fuel a = some (lastStart prev a (b :: bs)) := by
  induction bs generalizing fuel prev a b with
  | nil =>
    cases fuel with
    | zero => simp at hf
    | succ fuel => simp [lastBlock, h.1, first, lastStart]
  | cons c cs ih =>
    cases fuel with
    | zero => simp at hf
    | succ fuel =>
      have hne : a + b.size ≠ 0 := by omega
      simp only [lastBlock, h.1, first, hne, if_false]
      exact ih (by omega) h.2 (by simpa using hf)

section Edits

variable {m : ℕ → UInt8} {a n : ℕ} {pre post : List Block} {b : Block}

lemma seg_setIsFree (hs : Sized (pre ++ b :: post)) (h : Seg m 0 0 a (pre ++ b :: post))
    (f : Bool) : Seg (setIsFree m (a + total pre) (freeFlag ⟨b.size, f⟩)) 0 0 a
      (pre ++ ⟨b.size, f⟩ :: post) := by
  obtain ⟨hspre, hspost⟩ := Sized.append.mp hs
  obtain ⟨hsb, hspost⟩ := hspost.cons
  obtain ⟨hpre, hhead, hpost⟩ := seg_zoom.mp h
  have hother : ∀ c, Apart (a + total pre) c →
      header (setIsFree m (a + total pre) (freeFlag ⟨b.size, f⟩)) c = header m c :=
    fun c hc => header_setIsFree_of_apart hc _
  apply seg_zoom.mpr
  refine ⟨hpre.of_apart hspre hother (.inr le_rfl), ?_,
    hpost.of_apart hspost hother (.inl (by simp only; omega))⟩
  rw [header_setIsFree, hhead]

def remainder (m : ℕ → UInt8) (block size : ℕ) : BlockHeader :=
  ⟨blockMagic, (header m block).size - size, 1, (header m block).next, block⟩

lemma splitBlock_large {block : ℕ} (hn : n + splitSlack < (header m block).size)
    (hb : block + (header m block).size < 2 ^ 32) :
    splitBlock m block n =
      setSize (setNext
        (if (header (writeHeader m (block + n) (remainder m block n)) block).next ≠ 0 then
          setPrev (writeHeader m (block + n) (remainder m block n))
            (header (writeHeader m (block + n) (remainder m block n)) block).next (block + n)
        else writeHeader m (block + n) (remainder m block n)) block (block + n)) block n := by
  simp only [splitSlack, sizeofBlockHeader] at hn
  have hmod : (n + sizeofBlockHeader + 16) % 2 ^ 32 < (header m block).size := by
    simp only [sizeofBlockHeader]
    omega
  have hnew : (block + n) % 2 ^ 32 = block + n := Nat.mod_eq_of_lt (by omega)
  have hsize : ((header m block).size + 2 ^ 32 - n) % 2 ^ 32 = (header m block).size - n := by omega
  simp only [splitBlock, gt_iff_lt, hmod, if_true, hnew, hsize, remainder]
  rfl

lemma splitBlock_small {block : ℕ} (hn : (header m block).size ≤ n + splitSlack)
    (hb : n + splitSlack < 2 ^ 32) : splitBlock m block n = m := by
  simp only [splitSlack, sizeofBlockHeader] at hn hb
  have hmod : ¬ (n + sizeofBlockHeader + 16) % 2 ^ 32 < (header m block).size := by
    simp only [sizeofBlockHeader]
    omega
  simp only [splitBlock, gt_iff_lt, hmod, if_false]

lemma splitBlock_seg (hs : Sized (pre ++ b :: post)) (h : Seg m 0 0 a (pre ++ b :: post))
    (hb : a + total (pre ++ b :: post) < 2 ^ 32) (hn : sizeofBlockHeader ≤ n)
    (hfit : n + splitSlack < b.size) :
    Seg (splitBlock m (a + total pre) n) 0 0 a
      (pre ++ ⟨n, b.free⟩ :: ⟨b.size - n, true⟩ :: post) := by
  obtain ⟨hspre, hspost⟩ := Sized.append.mp hs
  obtain ⟨hsb, hspost⟩ := hspost.cons
  obtain ⟨hpre, hhead, hpost⟩ := seg_zoom.mp h
  simp only [total_append, total_cons] at hb
  rw [splitBlock_large (by rw [hhead]; exact hfit) (by rw [hhead]; simp only; omega)]
  generalize hA : a + total pre = A at *
  simp only [splitSlack, sizeofBlockHeader] at hfit hn
  have hbounded : (remainder m A n).Bounded := by
    have hm := header_bounded m A
    refine ⟨(by decide : blockMagic < 2 ^ 32), ?_, hm.next, ?_⟩
    · have := hm.size
      simp only [remainder]
      omega
    · simp only [remainder]
      omega
  have hAN : Apart (A + n) A := .inr (by simp only [sizeofBlockHeader]; omega)
  have hnext : (header (writeHeader m (A + n) (remainder m A n)) A).next =
      first 0 (A + b.size) post := by
    rw [header_writeHeader_of_apart hAN, hhead]
  rw [hnext]
  set m₁ := writeHeader m (A + n) (remainder m A n) with hm₁
  have hpost₁ : Seg m₁ 0 A (A + b.size) post :=
    hpost.of_apart hspost (fun c hc => header_writeHeader_of_apart hc _)
      (.inl (by simp only [sizeofBlockHeader]; omega))
  have hpost₂ := hpost₁.relink (by omega) hspost (by omega : A + n < 2 ^ 32)
  have hother₂ := fun c => header_relink (m := m₁) (c := c) (p := A + n) (a := A + b.size) post
  generalize (if first 0 (A + b.size) post ≠ 0 then
    setPrev m₁ (first 0 (A + b.size) post) (A + n) else m₁) = m₂ at *
  have hfinal : ∀ c, Apart A c → header (setSize (setNext m₂ A (A + n)) A n) c = header m₂ c := by
    intro c hc
    rw [header_setSize_of_apart hc, header_setNext_of_apart hc]
  have hend : A + n + (b.size - n) = A + b.size := by omega
  apply seg_zoom.mpr
  rw [hA]
  refine ⟨?_, ?_, ?_, ?_⟩
  · apply hpre.congr hspre
    intro c _ hhi
    simp only [sizeofBlockHeader] at hhi
    rw [hfinal c (.inr (by simp only [sizeofBlockHeader]; omega)),
      hother₂ c (.inr (by simp only [sizeofBlockHeader]; omega)),
      header_writeHeader_of_apart (.inr (by simp only [sizeofBlockHeader]; omega))]
  · rw [header_setSize _ (by omega), header_setNext _ (by omega),
      hother₂ A (.inr (by simp only [sizeofBlockHeader]; omega)), header_writeHeader_of_apart hAN,
      hhead]
    rfl
  · rw [hfinal _ hAN.symm, hother₂ _ (.inr (by simp only [sizeofBlockHeader]; omega)), hm₁,
      header_writeHeader m (A + n) hbounded]
    simp [remainder, hhead, hend, freeFlag]
  · simp only [hend]
    exact hpost₂.of_apart hspost hfinal (.inl (by simp only [sizeofBlockHeader]; omega))

lemma splitBlock_carve (hs : Sized (pre ++ b :: post)) (h : Seg m 0 0 a (pre ++ b :: post))
    (ha : splitSlack ≤ a) (hb : a + total (pre ++ b :: post) < 2 ^ 32)
    (hn : sizeofBlockHeader ≤ n) (hfit : n ≤ b.size) :
    Seg (setIsFree (splitBlock m (a + total pre) n) (a + total pre) 0) 0 0 a
      (pre ++ (carve splitSlack n b ++ post)) := by
  by_cases hbig : n + splitSlack < b.size
  · have hseg := splitBlock_seg hs h hb hn hbig
    have hs' : Sized (pre ++ ⟨n, b.free⟩ :: ⟨b.size - n, true⟩ :: post) := by
      intro c hc
      simp only [splitSlack, sizeofBlockHeader] at hbig hn ⊢
      simp only [List.mem_append, List.mem_cons] at hc
      rcases hc with hc | rfl | rfl | hc
      · exact hs c (by simp [hc])
      · exact hn
      · simp only
        omega
      · exact hs c (by simp [hc])
    have hfree := seg_setIsFree hs' hseg false
    simpa [carve, hbig, freeFlag] using hfree
  · have hhead := (seg_zoom.mp h).2.1
    simp only [total_append, total_cons] at hb
    have hm : splitBlock m (a + total pre) n = m :=
      splitBlock_small (by rw [hhead]; simp only; omega) (by omega)
    have hfree := seg_setIsFree hs h false
    rw [hm]
    simpa [carve, hbig, freeFlag] using hfree

def fuse (m : ℕ → UInt8) (block next : ℕ) : ℕ → UInt8 :=
  let m₁ := setSize m block (((header m block).size + (header m next).size) % 2 ^ 32)
  let m₂ := setNext m₁ block (header m₁ next).next
  if (header m₂ block).next ≠ 0 then setPrev m₂ (header m₂ block).next block else m₂

lemma fuse_eq {block next : ℕ} (h : Apart block next) :
    fuse m block next =
      if (header m next).next ≠ 0 then
        setPrev (setNext (setSize m block (((header m block).size + (header m next).size) % 2 ^ 32))
          block (header m next).next) (header m next).next block
      else setNext (setSize m block (((header m block).size + (header m next).size) % 2 ^ 32))
        block (header m next).next := by
  simp only [fuse, header_setSize_of_apart h, header_setNext _ (header_bounded m next).next]

lemma mergePrev_eq_fuse {block : ℕ} (hp : (header m block).prev ≠ 0)
    (hf : (header m (header m block).prev).isFree ≠ 0) (h : Apart (header m block).prev block) :
    mergePrev m block = fuse m (header m block).prev block := by
  rw [fuse_eq h]
  simp only [mergePrev, ne_eq, hp, hf, not_false_eq_true, and_self, if_true,
    header_setSize_of_apart h, header_setNext_of_apart h]

lemma mergePrev_eq_self {block : ℕ}
    (h : (header m block).prev = 0 ∨ (header m (header m block).prev).isFree = 0) :
    mergePrev m block = m := by
  have hn : ¬ ((header m block).prev ≠ 0 ∧ (header m (header m block).prev).isFree ≠ 0) := by
    rintro ⟨hp, hf⟩
    rcases h with h | h
    · exact hp h
    · exact hf h
  simp only [mergePrev, hn, if_false]

lemma mergeNext_stop {block fuel : ℕ} (h : (header m block).next = 0 ∨
    (header m (header m block).next).isFree = 0) : mergeNext (fuel + 1) m block = some m := by
  have hn : ¬ ((header m block).next ≠ 0 ∧ (header m (header m block).next).isFree ≠ 0) := by
    rintro ⟨hp, hf⟩
    rcases h with h | h
    · exact hp h
    · exact hf h
  simp only [mergeNext, hn, if_false]

lemma mergeNext_fuse {block fuel : ℕ} (hn : (header m block).next ≠ 0)
    (hf : (header m (header m block).next).isFree ≠ 0) :
    mergeNext (fuel + 1) m block = mergeNext fuel (fuse m block (header m block).next) block := by
  simp only [mergeNext, fuse, ne_eq, hn, hf, not_false_eq_true, and_self, if_true]

lemma seg_next_used (hm : Seg m 0 0 a (pre ++ b :: post))
    (h : ∀ c ∈ post.head?, c.free = false) : (header m (a + total pre)).next = 0 ∨
      (header m (header m (a + total pre)).next).isFree = 0 := by
  obtain ⟨_, hhead, hnext⟩ := seg_zoom.mp hm
  rw [hhead]
  cases post with
  | nil => exact .inl rfl
  | cons c cs =>
    right
    simp only [first]
    rw [hnext.1]
    simp [freeFlag, h c rfl]

lemma seg_prev_used (hm : Seg m 0 0 a (pre ++ b :: post))
    (h : ∀ c ∈ pre.getLast?, c.free = false) : (header m (a + total pre)).prev = 0 ∨
      (header m (header m (a + total pre)).prev).isFree = 0 := by
  obtain ⟨_, hhead, _⟩ := seg_zoom.mp hm
  rcases List.eq_nil_or_concat pre with rfl | ⟨cs, c, rfl⟩
  · exact .inl (by rw [hhead]; rfl)
  · rw [List.concat_eq_append] at *
    rw [List.append_assoc, List.singleton_append] at hm
    obtain ⟨_, hprev, _⟩ := seg_zoom.mp hm
    right
    rw [hhead]
    simp only [lastStart_append, lastStart]
    rw [hprev]
    simp [freeFlag, h c (by simp)]

lemma fuse_seg {c : Block} (hs : Sized (pre ++ b :: c :: post))
    (h : Seg m 0 0 a (pre ++ b :: c :: post)) (hb : a + total (pre ++ b :: c :: post) < 2 ^ 32) :
    Seg (fuse m (a + total pre) (a + total pre + b.size)) 0 0 a
      (pre ++ ⟨b.size + c.size, b.free⟩ :: post) := by
  obtain ⟨hspre, hspost⟩ := Sized.append.mp hs
  obtain ⟨hsb, hspost⟩ := hspost.cons
  obtain ⟨hsc, hspost⟩ := hspost.cons
  obtain ⟨hpre, hhead, hnext, hpost⟩ := seg_zoom.mp h
  simp only [total_append, total_cons] at hb
  simp only [sizeofBlockHeader] at hsb hsc
  generalize hA : a + total pre = A at *
  have hApart : Apart A (A + b.size) := .inl (by simp only [sizeofBlockHeader]; omega)
  have hsize : (b.size + c.size) % 2 ^ 32 = b.size + c.size := Nat.mod_eq_of_lt (by omega)
  have hfirst : first 0 (A + b.size + c.size) post < 2 ^ 32 := by
    cases post <;> simp only [first] <;> omega
  have hself : header (setNext (setSize m A (b.size + c.size)) A
      (first 0 (A + b.size + c.size) post)) A =
        ⟨blockMagic, b.size + c.size, freeFlag b, first 0 (A + b.size + c.size) post,
          lastStart 0 a pre⟩ := by
    rw [header_setNext _ hfirst, header_setSize _ (by omega), hhead]
  have hother : ∀ d, Apart A d → header (setNext (setSize m A (b.size + c.size)) A
      (first 0 (A + b.size + c.size) post)) d = header m d := by
    intro d hd
    rw [header_setNext_of_apart hd, header_setSize_of_apart hd]
  have hfuse : fuse m A (A + b.size) =
      if first 0 (A + b.size + c.size) post ≠ 0 then
        setPrev (setNext (setSize m A (b.size + c.size)) A (first 0 (A + b.size + c.size) post))
          (first 0 (A + b.size + c.size) post) A
      else setNext (setSize m A (b.size + c.size)) A (first 0 (A + b.size + c.size) post) := by
    rw [fuse_eq hApart, hhead, hnext, hsize]
  rw [hfuse]
  generalize setNext (setSize m A (b.size + c.size)) A
    (first 0 (A + b.size + c.size) post) = m₂ at *
  have hpost₂ : Seg m₂ 0 (A + b.size) (A + b.size + c.size) post :=
    hpost.of_apart hspost hother (.inl (by simp only [sizeofBlockHeader]; omega))
  have hpost₃ := hpost₂.relink (by omega) hspost (by omega : A < 2 ^ 32)
  have hother₃ : ∀ d, Apart (A + b.size + c.size) d → header _ d = header m₂ d :=
    fun d hd => header_relink (p := A) post hd
  apply seg_zoom.mpr
  rw [hA]
  refine ⟨?_, ?_, ?_⟩
  · apply hpre.congr hspre
    intro d _ hhi
    simp only [sizeofBlockHeader] at hhi
    rw [hother₃ d (.inr (by simp only [sizeofBlockHeader]; omega)),
      hother d (.inr (by simp only [sizeofBlockHeader]; omega))]
  · rw [hother₃ A (.inr (by simp only [sizeofBlockHeader]; omega)), hself]
    simp [freeFlag, Nat.add_assoc]
  · simpa [Nat.add_assoc] using hpost₃

lemma mergeNext_seg {fuel : ℕ} (hs : Sized (pre ++ b :: post))
    (h : Seg m 0 0 a (pre ++ b :: post)) (ha : 0 < a) (hb : a + total (pre ++ b :: post) < 2 ^ 32)
    (hf : post.length < fuel) :
    ∃ m', mergeNext fuel m (a + total pre) = some m' ∧
      Seg m' 0 0 a (pre ++ (absorb b post).1 :: (absorb b post).2) := by
  induction post generalizing m b fuel with
  | nil =>
    cases fuel with
    | zero => simp at hf
    | succ fuel => exact ⟨m, mergeNext_stop (seg_next_used h (by simp)), h⟩
  | cons c cs ih =>
    obtain ⟨_, hhead, hnext, _⟩ := seg_zoom.mp h
    cases fuel with
    | zero => simp at hf
    | succ fuel =>
      cases hc : c.free with
      | false =>
        refine ⟨m, mergeNext_stop (seg_next_used h (by simpa using hc)), ?_⟩
        simpa [absorb, hc] using h
      | true =>
        have hpos : (header m (a + total pre)).next = a + total pre + b.size := by
          rw [hhead]
          rfl
        have hflag : (header m (header m (a + total pre)).next).isFree ≠ 0 := by
          rw [hpos, hnext]
          simp [freeFlag, hc]
        have hstep : mergeNext (fuel + 1) m (a + total pre) =
            mergeNext fuel (fuse m (a + total pre) (a + total pre + b.size)) (a + total pre) := by
          rw [mergeNext_fuse (by rw [hpos]; omega) hflag, hpos]
        have hs' : Sized (pre ++ ⟨b.size + c.size, b.free⟩ :: cs) := by
          have hsb := hs b (by simp)
          rw [Sized.append] at hs ⊢
          refine ⟨hs.1, fun d hd => ?_⟩
          rcases List.mem_cons.mp hd with rfl | hd
          · exact hsb.trans (Nat.le_add_right _ _)
          · exact hs.2 d (by simp [hd])
        have hb' : a + total (pre ++ ⟨b.size + c.size, b.free⟩ :: cs) < 2 ^ 32 := by
          simp only [total_append, total_cons] at hb ⊢
          omega
        have hr := ih hs' (fuse_seg hs h hb) hb' (by simpa using hf)
        rw [hstep]
        simpa only [absorb, hc, if_true] using hr

lemma mergePrev_free {c : Block} (hs : Sized (pre ++ c :: b :: post))
    (h : Seg m 0 0 a (pre ++ c :: b :: post)) (ha : 0 < a) (hc : c.free = true) :
    mergePrev m (a + total pre + c.size) =
      fuse m (a + total pre) (a + total pre + c.size) := by
  have hsc := hs c (by simp)
  obtain ⟨_, hheadc, hhead, _⟩ := seg_zoom.mp h
  have hback : (header m (a + total pre + c.size)).prev = a + total pre := by rw [hhead]
  have hflag : (header m (header m (a + total pre + c.size)).prev).isFree ≠ 0 := by
    rw [hback, hheadc]
    simp [freeFlag, hc]
  have hapart : Apart (header m (a + total pre + c.size)).prev (a + total pre + c.size) := by
    rw [hback]
    exact .inl (Nat.add_le_add_left hsc _)
  rw [mergePrev_eq_fuse (by rw [hback]; omega) hflag hapart, hback]

lemma mergePrev_seg (hs : Sized (pre ++ b :: post)) (h : Seg m 0 0 a (pre ++ b :: post))
    (ha : 0 < a) (hb : a + total (pre ++ b :: post) < 2 ^ 32) :
    Seg (mergePrev m (a + total pre)) 0 0 a (mergeLeft pre b post) := by
  rcases List.eq_nil_or_concat pre with rfl | ⟨cs, c, rfl⟩
  · rw [mergePrev_eq_self (seg_prev_used h (by simp))]
    exact h
  · rw [List.concat_eq_append, mergeLeft_concat] at *
    cases hc : c.free with
    | false =>
      rw [mergePrev_eq_self (seg_prev_used h (by simpa using hc))]
      simpa using h
    | true =>
      have hadd : a + total (cs ++ [c]) = a + total cs + c.size := by simp [Nat.add_assoc]
      rw [List.append_assoc, List.singleton_append] at hs h hb
      have hfuse := fuse_seg hs h hb
      rw [hadd, mergePrev_free hs h ha hc]
      simpa [hc] using hfuse

lemma mergeFreeBlocks_seg (hs : Sized (pre ++ b :: post)) (h : Seg m 0 0 a (pre ++ b :: post))
    (ha : 0 < a) (hb : a + total (pre ++ b :: post) < 2 ^ 32) (hf : post.length < walkBound)
    (hfree : b.free = true) :
    ∃ m', mergeFreeBlocks m (a + total pre) = some m' ∧ Seg m' 0 0 a (release pre b post) := by
  obtain ⟨m', hm, hseg⟩ := mergeNext_seg hs h ha hb hf
  have hsum := total_absorb b post
  have hb' : a + total (pre ++ (absorb b post).1 :: (absorb b post).2) < 2 ^ 32 := by
    simp only [total_append, total_cons] at hb ⊢
    omega
  refine ⟨mergePrev m' (a + total pre), by simp [mergeFreeBlocks, hm], ?_⟩
  have hb : (⟨b.size, true⟩ : Block) = b := by rw [← hfree]
  simpa only [release, hb] using mergePrev_seg hs.absorb hseg ha hb'

lemma append_seg {l : Block} {size : ℕ} (hs : Sized (pre ++ [l])) (h : Seg m 0 0 a (pre ++ [l]))
    (ha : 0 < a) (hb : a + total (pre ++ [l]) + size < 2 ^ 32) :
    Seg (setPrev (setNext (writeHeader m (a + total (pre ++ [l])) ⟨blockMagic, size, 1, 0, 0⟩)
        (a + total pre) (a + total (pre ++ [l]))) (a + total (pre ++ [l])) (a + total pre)) 0 0 a
      (pre ++ [l] ++ [⟨size, true⟩]) := by
  have hsl := hs l (by simp)
  simp only [sizeofBlockHeader] at hsl
  have hx : (⟨blockMagic, size, 1, 0, 0⟩ : BlockHeader).Bounded :=
    ⟨(by decide : blockMagic < 2 ^ 32), by simp only; omega, by simp, by simp⟩
  have htotal : total (pre ++ [l]) = total pre + l.size := by simp
  have hApart : Apart (a + total pre) (a + total (pre ++ [l])) :=
    .inl (by simp only [sizeofBlockHeader]; omega)
  have h₁ : Seg (writeHeader m (a + total (pre ++ [l])) ⟨blockMagic, size, 1, 0, 0⟩) 0 0 a
      (pre ++ [l]) :=
    h.of_apart hs (fun c hc => header_writeHeader_of_apart hc _) (.inr le_rfl)
  have h₂ := h₁.setNext_concat hs (by omega : a + total (pre ++ [l]) < 2 ^ 32)
  have h₃ := h₂.of_apart hs (fun c hc => header_setPrev_of_apart hc (a + total pre)) (.inr le_rfl)
  rw [seg_append]
  refine ⟨h₃, ?_, trivial⟩
  rw [header_setPrev _ (by omega), header_setNext_of_apart hApart, header_writeHeader m _ hx]
  simp [freeFlag, first, lastStart]

end Edits

end Veni.Memory.Heap
