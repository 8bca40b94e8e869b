import Veni.Lib.Blocks
import Veni.Memory.HeapHeaders

/-! Segments of the block list in memory, and what each list operation does to them. -/

namespace Veni.Memory

open Veni.Lib.ByteMemory Veni.Lib.Blocks

def first (next a : ℕ) : List Block → ℕ
  | [] => next
  | _ :: _ => a

def lastStart (prev a : ℕ) : List Block → ℕ
  | [] => prev
  | b :: bs => lastStart a (a + b.size) bs

def freeFlag (b : Block) : UInt8 := if b.free then 1 else 0

def Seg (m : ℕ → UInt8) (next : ℕ) : ℕ → ℕ → List Block → Prop
  | _, _, [] => True
  | prev, a, b :: bs =>
    header m a = ⟨blockMagic, b.size, freeFlag b, first next (a + b.size) bs, prev⟩ ∧
      Seg m next a (a + b.size) bs

def Sized (bs : List Block) : Prop := ∀ b ∈ bs, sizeofBlockHeader ≤ b.size

@[simp] lemma first_append (next a : ℕ) (bs cs : List Block) :
    first next a (bs ++ cs) = first (first next (a + total bs) cs) a bs := by
  cases bs <;> simp [first]

@[simp] lemma lastStart_append (prev a : ℕ) (bs cs : List Block) :
    lastStart prev a (bs ++ cs) = lastStart (lastStart prev a bs) (a + total bs) cs := by
  induction bs generalizing prev a with
  | nil => simp [lastStart]
  | cons b bs ih => simp [lastStart, ih, Nat.add_assoc]

lemma seg_append {m : ℕ → UInt8} {next prev a : ℕ} {bs cs : List Block} :
    Seg m next prev a (bs ++ cs) ↔
      Seg m (first next (a + total bs) cs) prev a bs ∧
        Seg m next (lastStart prev a bs) (a + total bs) cs := by
  induction bs generalizing prev a with
  | nil => simp [Seg, lastStart]
  | cons b bs ih =>
    simp only [List.cons_append, Seg, first_append, ih, lastStart, total_cons, and_assoc,
      Nat.add_assoc]

lemma Sized.cons {b : Block} {bs : List Block} (h : Sized (b :: bs)) :
    sizeofBlockHeader ≤ b.size ∧ Sized bs :=
  ⟨h b (by simp), fun c hc => h c (by simp [hc])⟩

lemma Sized.append {bs cs : List Block} : Sized (bs ++ cs) ↔ Sized bs ∧ Sized cs := by
  simp only [Sized, List.mem_append, or_imp, forall_and]

lemma Sized.replace {bs cs : List Block} {b c : Block} (h : Sized (bs ++ b :: cs))
    (hc : sizeofBlockHeader ≤ c.size) : Sized (bs ++ c :: cs) := by
  intro d hd
  simp only [List.mem_append, List.mem_cons] at hd
  rcases hd with hd | rfl | hd
  · exact h d (by simp [hd])
  · exact hc
  · exact h d (by simp [hd])

lemma Sized.absorb {bs cs : List Block} {b : Block} (h : Sized (bs ++ b :: cs)) :
    Sized (bs ++ (absorb b cs).1 :: (absorb b cs).2) := by
  obtain ⟨ds, hds, _⟩ := absorb_split b cs
  have hb := h b (by simp)
  intro d hd
  simp only [List.mem_append, List.mem_cons] at hd
  rcases hd with hd | rfl | hd
  · exact h d (by simp [hd])
  · exact hb.trans (le_absorb b cs)
  · exact h d (by rw [hds]; simp [hd])

lemma Sized.mergeLeft {bs cs : List Block} {b : Block} (h : Sized (bs ++ b :: cs)) :
    Sized (mergeLeft bs b cs) := by
  rcases List.eq_nil_or_concat bs with rfl | ⟨ds, d, rfl⟩
  · exact h
  · rw [List.concat_eq_append] at h ⊢
    rw [mergeLeft_concat]
    rw [List.append_assoc, List.singleton_append] at h
    split
    · have hd := h d (by simp)
      rw [Sized.append] at h ⊢
      refine ⟨h.1, fun c hc => ?_⟩
      rcases List.mem_cons.mp hc with rfl | hc
      · exact hd.trans (Nat.le_add_right _ _)
      · exact h.2 c (by simp [hc])
    · exact h

lemma Sized.release {bs cs : List Block} {b : Block} (h : Sized (bs ++ b :: cs)) :
    Sized (release bs b cs) :=
  (h.replace (c := ⟨b.size, true⟩) (h b (by simp))).absorb.mergeLeft

lemma first_release (next a : ℕ) (bs : List Block) (b : Block) (cs : List Block) :
    first next a (release bs b cs) = a := by
  rcases List.eq_nil_or_concat bs with rfl | ⟨ds, d, rfl⟩
  · rfl
  · rw [List.concat_eq_append, release, mergeLeft_concat]
    cases ds <;> split <;> rfl

lemma Sized.length_le {bs : List Block} (h : Sized bs) : 20 * bs.length ≤ total bs := by
  induction bs with
  | nil => simp
  | cons b bs ih =>
    have hb := h.cons.1
    have hbs := ih h.cons.2
    simp only [sizeofBlockHeader, List.length_cons, total_cons] at hb ⊢
    omega

lemma Seg.congr {m n : ℕ → UInt8} {next prev a : ℕ} {bs : List Block} (hs : Sized bs)
    (h : Seg m next prev a bs)
    (hc : ∀ c, a ≤ c → c + sizeofBlockHeader ≤ a + total bs → header n c = header m c) :
    Seg n next prev a bs := by
  induction bs generalizing prev a with
  | nil => trivial
  | cons b bs ih =>
    obtain ⟨hb, hbs⟩ := hs.cons
    simp only [total_cons] at hc
    refine ⟨(hc a le_rfl (by omega)).trans h.1, ih hbs h.2 fun c hlo hhi => hc c ?_ ?_⟩
    · omega
    · omega

lemma Sized.pos {bs : List Block} (hs : Sized bs) {a x : ℕ} {b : Block} (h : BlockAt a bs x b) :
    0 < b.size :=
  lt_of_lt_of_le (by decide) (hs b h.mem)

lemma Sized.unique {bs : List Block} (hs : Sized bs) {a x : ℕ} {b c : Block}
    (hb : BlockAt a bs x b) (hc : BlockAt a bs x c) : b = c := by
  have hpos := hs.pos hb
  have hpos' := hs.pos hc
  rcases hb.disjoint hc with ⟨_, h⟩ | h | h
  · exact h
  · omega
  · omega

lemma Seg.congr_blocks {m n : ℕ → UInt8} {next prev a : ℕ} {bs : List Block}
    (h : Seg m next prev a bs) (hc : ∀ x b, BlockAt a bs x b → header n x = header m x) :
    Seg n next prev a bs := by
  induction bs generalizing prev a with
  | nil => trivial
  | cons b bs ih =>
    exact ⟨(hc a b (.inl ⟨rfl, rfl⟩)).trans h.1, ih h.2 fun x c hx => hc x c (.inr hx)⟩

lemma Seg.of_apart {m n : ℕ → UInt8} {next prev a d : ℕ} {bs : List Block} (hs : Sized bs)
    (h : Seg m next prev a bs) (hn : ∀ c, Apart d c → header n c = header m c)
    (hd : d + sizeofBlockHeader ≤ a ∨ a + total bs ≤ d) : Seg n next prev a bs := by
  apply h.congr hs
  intro c hlo hhi
  apply hn
  unfold Apart
  omega

lemma Seg.setPrev {m : ℕ → UInt8} {next prev a p : ℕ} {b : Block} {bs : List Block}
    (hs : Sized (b :: bs)) (h : Seg m next prev a (b :: bs)) (hp : p < 2 ^ 32) :
    Seg (setPrev m a p) next p a (b :: bs) := by
  obtain ⟨hb, hbs⟩ := hs.cons
  refine ⟨?_, h.2.of_apart hbs (fun c hc => header_setPrev_of_apart hc p) (.inl (by omega))⟩
  rw [header_setPrev m hp, h.1]

lemma Seg.setNext_concat {m : ℕ → UInt8} {next prev a p : ℕ} {b : Block} {bs : List Block}
    (hs : Sized (bs ++ [b])) (h : Seg m next prev a (bs ++ [b])) (hp : p < 2 ^ 32) :
    Seg (setNext m (a + total bs) p) p prev a (bs ++ [b]) := by
  obtain ⟨hbs, hb⟩ := Sized.append.mp hs
  rw [seg_append] at h ⊢
  refine ⟨h.1.of_apart hbs (fun c hc => header_setNext_of_apart hc p) (.inr le_rfl), ?_, trivial⟩
  rw [header_setNext m hp, h.2.1]
  rfl

lemma Seg.relink {m : ℕ → UInt8} {prev a p : ℕ} {bs : List Block} (ha : a ≠ 0) (hs : Sized bs)
    (h : Seg m 0 prev a bs) (hp : p < 2 ^ 32) :
    Seg (if first 0 a bs ≠ 0 then Memory.setPrev m (first 0 a bs) p else m) 0 p a bs := by
  cases bs with
  | nil => trivial
  | cons b bs =>
    simp only [first, ne_eq, ha, not_false_eq_true, if_true]
    exact h.setPrev hs hp

lemma header_relink {m : ℕ → UInt8} {a c p : ℕ} (bs : List Block) (h : Apart a c) :
    header (if first 0 a bs ≠ 0 then Memory.setPrev m (first 0 a bs) p else m) c = header m c := by
  cases bs with
  | nil => simp [first]
  | cons b bs =>
    by_cases ha : a = 0
    · simp [first, ha]
    · simp only [first, ne_eq, ha, not_false_eq_true, if_true]
      exact header_setPrev_of_apart h p

lemma seg_zoom {m : ℕ → UInt8} {next prev a : ℕ} {pre post : List Block} {b : Block} :
    Seg m next prev a (pre ++ b :: post) ↔
      Seg m (a + total pre) prev a pre ∧
        header m (a + total pre) =
          ⟨blockMagic, b.size, freeFlag b, first next (a + total pre + b.size) post,
            lastStart prev a pre⟩ ∧
        Seg m next (a + total pre) (a + total pre + b.size) post := by
  rw [seg_append]
  exact Iff.rfl

end Veni.Memory
