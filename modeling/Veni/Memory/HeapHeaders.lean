import Veni.Memory.Heap

/-! Header accesses of the heap: what one field write leaves of every header. -/

namespace Veni.Memory

open Veni.Lib.ByteMemory

def Apart (b c : ℕ) : Prop := b + sizeofBlockHeader ≤ c ∨ c + sizeofBlockHeader ≤ b

lemma Apart.symm {b c : ℕ} (h : Apart b c) : Apart c b := Or.symm h

lemma header_congr {m n : ℕ → UInt8} {b : ℕ} (h : ∀ a, b ≤ a → a < b + 20 → n a = m a) :
    header n b = header m b := by
  simp only [header, BlockHeader.mk.injEq]
  refine ⟨?_, ?_, h _ (by omega) (by omega), ?_, ?_⟩
  all_goals exact read32_congr fun i hi => h _ (by omega) (by omega)

section Fields

variable (m : ℕ → UInt8) {b c : ℕ}

lemma header_setMagic {v : ℕ} (hv : v < 2 ^ 32) :
    header (setMagic m b v) b = { header m b with magic := v } := by
  simp only [header, setMagic, read32_write32 m b hv, BlockHeader.mk.injEq]
  refine ⟨trivial, ?_, write32_of_ne _ _ (by omega), ?_, ?_⟩
  all_goals exact read32_write32_of_ne m v (by omega)

lemma header_setSize {v : ℕ} (hv : v < 2 ^ 32) :
    header (setSize m b v) b = { header m b with size := v } := by
  simp only [header, setSize, read32_write32 m (b + 4) hv, BlockHeader.mk.injEq]
  refine ⟨?_, trivial, write32_of_ne _ _ (by omega), ?_, ?_⟩
  all_goals exact read32_write32_of_ne m v (by omega)

lemma header_setIsFree (v : UInt8) :
    header (setIsFree m b v) b = { header m b with isFree := v } := by
  simp only [header, setIsFree, BlockHeader.mk.injEq]
  refine ⟨?_, ?_, by simp [write8], ?_, ?_⟩
  all_goals exact read32_write8_of_ne m v (by omega)

lemma header_setNext {v : ℕ} (hv : v < 2 ^ 32) :
    header (setNext m b v) b = { header m b with next := v } := by
  simp only [header, setNext, read32_write32 m (b + 12) hv, BlockHeader.mk.injEq]
  refine ⟨?_, ?_, write32_of_ne _ _ (by omega), trivial, ?_⟩
  all_goals exact read32_write32_of_ne m v (by omega)

lemma header_setPrev {v : ℕ} (hv : v < 2 ^ 32) :
    header (setPrev m b v) b = { header m b with prev := v } := by
  simp only [header, setPrev, read32_write32 m (b + 16) hv, BlockHeader.mk.injEq]
  refine ⟨?_, ?_, write32_of_ne _ _ (by omega), ?_, trivial⟩
  all_goals exact read32_write32_of_ne m v (by omega)

variable {m}

lemma header_setMagic_of_apart (h : Apart b c) (v : ℕ) :
    header (setMagic m b v) c = header m c :=
  header_congr fun a hlo hhi => write32_of_ne m v (by unfold Apart sizeofBlockHeader at h; omega)

lemma header_setSize_of_apart (h : Apart b c) (v : ℕ) :
    header (setSize m b v) c = header m c :=
  header_congr fun a hlo hhi => write32_of_ne m v (by unfold Apart sizeofBlockHeader at h; omega)

lemma header_setNext_of_apart (h : Apart b c) (v : ℕ) :
    header (setNext m b v) c = header m c :=
  header_congr fun a hlo hhi => write32_of_ne m v (by unfold Apart sizeofBlockHeader at h; omega)

lemma header_setPrev_of_apart (h : Apart b c) (v : ℕ) :
    header (setPrev m b v) c = header m c :=
  header_congr fun a hlo hhi => write32_of_ne m v (by unfold Apart sizeofBlockHeader at h; omega)

lemma header_setIsFree_of_apart (h : Apart b c) (v : UInt8) :
    header (setIsFree m b v) c = header m c := by
  apply header_congr
  intro a hlo hhi
  have hne : a ≠ b + 8 := by
    unfold Apart sizeofBlockHeader at h
    omega
  simp [setIsFree, write8, hne]

end Fields

structure BlockHeader.Bounded (x : BlockHeader) : Prop where
  magic : x.magic < 2 ^ 32
  size : x.size < 2 ^ 32
  next : x.next < 2 ^ 32
  prev : x.prev < 2 ^ 32

lemma header_writeHeader (m : ℕ → UInt8) (b : ℕ) {x : BlockHeader} (hx : x.Bounded) :
    header (writeHeader m b x) b = x := by
  rw [writeHeader, header_setPrev _ hx.prev, header_setNext _ hx.next, header_setIsFree,
    header_setSize _ hx.size, header_setMagic _ hx.magic]

lemma header_writeHeader_of_apart {m : ℕ → UInt8} {b c : ℕ} (h : Apart b c) (x : BlockHeader) :
    header (writeHeader m b x) c = header m c := by
  rw [writeHeader, header_setPrev_of_apart h, header_setNext_of_apart h,
    header_setIsFree_of_apart h, header_setSize_of_apart h, header_setMagic_of_apart h]

lemma header_bounded (m : ℕ → UInt8) (b : ℕ) : (header m b).Bounded :=
  ⟨read32_lt _ _, read32_lt _ _, read32_lt _ _, read32_lt _ _⟩

end Veni.Memory
