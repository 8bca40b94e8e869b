import Veni.Lib.Transition
import Veni.Memory.Pmm

/-! The frames handed out after `kearly` against the memory the kernel image and the bitmap occupy. -/

namespace Veni.Memory.KernelFrames

open Veni.Lib.Transition Pmm

def imageStart : ℕ := 1024 * 1024

def bootMemory : ℕ := 16 * 1024 * 1024

def bitmapBytes : ℕ := bootMemory / pageSize / 32 * 4

def kearlyPmm (storage : ℕ → BitVec 32) (kernelEnd : ℕ) : Pmm :=
  pmmInit storage kernelEnd bootMemory

def Occupied (kernelEnd b : ℕ) : Prop :=
  (imageStart ≤ b ∧ b < kernelEnd) ∨ (kernelEnd ≤ b ∧ b < kernelEnd + bitmapBytes)

def AvoidsKernel (kernelEnd : ℕ) (p : Pmm) (op : Op) (_ : Pmm) : Prop :=
  op = .alloc → ∀ b, (pmmAllocPage p).1 ≤ b → b < (pmmAllocPage p).1 + pageSize →
    ¬ Occupied kernelEnd b

def LowFrameFree (p : Pmm) (op : Op) (_ : Pmm) : Prop :=
  op = .alloc → ∃ i < imageStart / pageSize, p.pageUsed i = false

structure LowOnly (p : Pmm) : Prop where
  inv : Inv p
  total_eq : p.totalPages = 4096
  high_unused : ∀ i < 4096, 256 ≤ i → p.pageUsed i = false

lemma kearly_low (storage : ℕ → BitVec 32) (kernelEnd : ℕ) :
    LowOnly (kearlyPmm storage kernelEnd) where
  inv := init_inv storage kernelEnd (by decide) (by decide)
  total_eq := rfl
  high_unused _ hi _ := init_unused storage kernelEnd (by decide) hi

lemma exec_low {p : Pmm} (h : LowOnly p) {op : Op} {q : Pmm}
    (hl : LowFrameFree p op q) : LowOnly (exec p op) where
  inv := exec_inv h.inv op
  total_eq := (exec_total h.inv op).trans h.total_eq
  high_unused i hi hge := by
    have hu := h.high_unused i hi hge
    cases op with
    | alloc =>
      obtain ⟨k, hk, hku⟩ := hl rfl
      have hk' : k < 256 := hk
      obtain ⟨j, q, hj, ha, ht⟩ := alloc_takes h.inv (by rw [h.total_eq]; omega) hku
      have hne : j ≠ i := by omega
      simp [exec, ha, ht.pageUsed, hu, hne]
    | free page => simp [exec, free_pageUsed p page i (h.total_eq ▸ hi), hu]

lemma avoids_iff_low {kernelEnd : ℕ} (hk : imageStart ≤ kernelEnd) (p : Pmm) (op : Op) (q : Pmm)
    (h : LowOnly p) : AvoidsKernel kernelEnd p op q ↔ LowFrameFree p op q := by
  constructor
  · intro hs hop
    by_contra hlow
    have hused : ∀ i < 256, p.pageUsed i = true := by
      intro i hi
      by_contra hu
      exact hlow ⟨i, hi, by simpa using hu⟩
    obtain ⟨j, q, hj, ha, ht⟩ := alloc_takes h.inv (by rw [h.total_eq]; omega)
      (h.high_unused 256 (by omega) (by omega))
    have hj' : j = 256 := by
      by_contra hne
      simpa [ht.unused] using hused j (by omega)
    -- the lowest free frame is the one at 1 MiB, whose first byte the kernel occupies
    subst hj'
    have hlo : (pmmAllocPage p).1 ≤ imageStart := by
      rw [ha]
      exact (by decide : 256 * pageSize ≤ imageStart)
    have hhi : imageStart < (pmmAllocPage p).1 + pageSize := by
      rw [ha]
      exact (by decide : imageStart < 256 * pageSize + pageSize)
    apply hs hop imageStart hlo hhi
    unfold Occupied
    have : 0 < bitmapBytes := by decide
    omega
  · intro hl hop b hlo hhi
    obtain ⟨k, hk', hku⟩ := hl hop
    have hk'' : k < 256 := hk'
    obtain ⟨j, q, hj, ha, _⟩ := alloc_takes h.inv (by rw [h.total_eq]; omega) hku
    rw [ha] at hhi
    have hb : b < imageStart := by
      simp only [pageSize, imageStart] at hhi ⊢
      omega
    unfold Occupied
    omega

/-- Along a run, no frame handed out overlaps the kernel image or the bitmap exactly when every
allocation finds a frame below 1 MiB unused. -/
theorem frames_avoid_kernel_iff (storage : ℕ → BitVec 32) (kernelEnd : ℕ)
    (hk : imageStart ≤ kernelEnd) (ops : List Op) :
    Along (Steps exec) (AvoidsKernel kernelEnd) (kearlyPmm storage kernelEnd) ops ↔
      Along (Steps exec) LowFrameFree (kearlyPmm storage kernelEnd) ops := by
  apply along_iff (I := LowOnly) (H := fun _ _ _ => True)
  · exact fun p op q h _ _ => avoids_iff_low hk p op q h
  · rintro p op q h rfl _ hl
    exact exec_low h hl
  · exact kearly_low storage kernelEnd
  · exact along_true _ _

structure Filled (p : Pmm) (k : ℕ) : Prop where
  inv : Inv p
  total_eq : p.totalPages = 4096
  used_iff : ∀ i < 4096, p.pageUsed i = decide (i < k)

lemma Filled.alloc {p : Pmm} {k : ℕ} (h : Filled p k) (hk : k < 4096) :
    (pmmAllocPage p).1 = k * pageSize ∧ Filled (pmmAllocPage p).2 (k + 1) := by
  have htaken : Taken p k := ⟨h.inv, fun i hi => h.used_iff i (h.total_eq ▸ hi)⟩
  obtain ⟨ha, ht, hs⟩ := htaken.alloc (by rw [h.total_eq]; exact hk)
  have htotal := ht.trans h.total_eq
  exact ⟨ha, hs.inv, htotal, fun i hi => hs.used_iff i (htotal ▸ hi)⟩

lemma Filled.allocs {p : Pmm} {k n : ℕ} (h : Filled p k) (hn : k + n ≤ 4096) :
    Filled ((List.replicate n Op.alloc).foldl exec p) (k + n) := by
  induction n generalizing p k with
  | zero => exact h
  | succ n ih =>
    have hs := ih (h.alloc (by omega)).2 (by omega)
    rw [List.replicate_succ, List.foldl_cons]
    have he : k + (n + 1) = k + 1 + n := by omega
    rw [he]
    exact hs

lemma kearly_filled (storage : ℕ → BitVec 32) (kernelEnd : ℕ) :
    Filled (kearlyPmm storage kernelEnd) 0 where
  inv := (kearly_low storage kernelEnd).inv
  total_eq := rfl
  used_iff i hi := by
    have hu : (kearlyPmm storage kernelEnd).pageUsed i = false :=
      init_unused storage kernelEnd (by decide) hi
    simp [hu]

lemma Filled.low {p : Pmm} {k n : ℕ} (h : Filled p k) (hn : k + n ≤ 256) {ops : List Op}
    (hrest : ∀ q, Filled q (k + n) → Along (Steps exec) LowFrameFree q ops) :
    Along (Steps exec) LowFrameFree p (List.replicate n .alloc ++ ops) := by
  induction n generalizing p k with
  | zero => exact hrest p h
  | succ n ih =>
    have hfree : p.pageUsed k = false := by simp [h.used_iff k (by omega)]
    rintro q rfl
    refine ⟨fun _ => ⟨k, (by omega : k < 256), hfree⟩, ih (h.alloc (by omega)).2 (by omega) fun q hq => ?_⟩
    exact hrest q (by rwa [Nat.add_comm n 1, ← Nat.add_assoc])

theorem frames_avoid_kernel_boot :
    Along (Steps exec) (AvoidsKernel 0x110000) (kearlyPmm (fun _ => 0) 0x110000)
      (List.replicate 256 .alloc ++ [.free 0x3000, .alloc]) := by
  apply (frames_avoid_kernel_iff (fun _ => 0) 0x110000 (by decide) _).mpr
  apply (kearly_filled (fun _ => 0) 0x110000).low (by omega)
  intro p hp
  have hfree : (pmmFreePage p 0x3000).pageUsed 3 = false := by
    rw [free_pageUsed p 0x3000 3 (by rw [hp.total_eq]; decide)]
    simp [pageSize]
  rintro q rfl
  refine ⟨fun hop => (by cases hop), ?_⟩
  rintro q rfl
  exact ⟨fun _ => ⟨3, by decide, hfree⟩, trivial⟩

theorem kernel_frame_handed_out :
    ¬ Along (Steps exec) (AvoidsKernel 0x110000) (kearlyPmm (fun _ => 0) 0x110000)
      (List.replicate 256 .alloc ++ [.alloc]) := by
  intro h
  have hs := h.run (Run.of_exec _ _) rfl
  have hf := (kearly_filled (fun _ => 0) 0x110000).allocs (n := 256) (by omega)
  have ha := (hf.alloc (by omega)).1
  refine hs rfl imageStart (by rw [ha]; decide) (by rw [ha]; decide) (.inl ?_)
  decide

end Veni.Memory.KernelFrames
