import Veni.Lib.Transition
import Veni.Memory.Heap
import Veni.Memory.Pmm

/-! What the null pointer of `pmm_alloc_page` tells its callers. -/

namespace Veni.Memory.Pmm

open Veni.Lib Transition

lemma Inv.used_le {p : Pmm} (h : Inv p) : p.usedPages ≤ p.totalPages := by
  rw [h.used_eq]
  exact BitSet.count_le _ _

lemma Inv.free_eq_zero_iff {p : Pmm} (h : Inv p) :
    pmmGetFreePages p = 0 ↔ ∀ i < p.totalPages, p.pageUsed i = true := by
  have hle := h.used_le
  have htotal := h.total_le
  have hcount := BitSet.count_eq_iff p.bitmap p.totalPages
  rw [← h.used_eq] at hcount
  rw [pmmGetFreePages]
  constructor
  · intro hz
    apply hcount.mp
    omega
  · intro hall
    have hused := hcount.mpr hall
    rw [hused]
    omega

/-- `pmm_alloc_page` returns NULL exactly when no page is free, and a loop of `sbrk` that sees it ends
with the frames as they were. -/
structure SignalsNull (p : Pmm) : Prop where
  null_iff : (pmmAllocPage p).1 = 0 ↔ pmmGetFreePages p = 0
  bitmap : (pmmAllocPage p).1 = 0 → (pmmAllocPage p).2.bitmap = p.bitmap
  counter : (pmmAllocPage p).1 = 0 → (pmmAllocPage p).2.usedPages = p.usedPages
  caller : ∀ (L : PageLayer Pmm) (n addr brk : ℕ), L.pmmAllocPage = pmmAllocPage →
    (pmmAllocPage p).1 = 0 → addr < brk → Heap.mapNewPages L (n + 1) p addr brk = (p, false)

lemma signalsNull_of_null {p : Pmm} (h : Inv p) (hall : ∀ i < p.totalPages, p.pageUsed i = true)
    (ha : pmmAllocPage p = (0, p)) : SignalsNull p where
  null_iff := by
    rw [ha]
    exact iff_of_true rfl (h.free_eq_zero_iff.mpr hall)
  bitmap _ := by rw [ha]
  counter _ := by rw [ha]
  caller L n addr brk hL _ hlt := by
    rw [Heap.mapNewPages, if_pos hlt, hL, ha]
    rfl

lemma Takes.signalsNull {p q : Pmm} {i : ℕ} (h : Takes p q i) (hp : Inv p)
    (ha : pmmAllocPage p = (i * pageSize, q)) (hi : i ≠ 0) : SignalsNull p := by
  have hne : (pmmAllocPage p).1 ≠ 0 := by
    rw [ha]
    exact Nat.mul_ne_zero hi (by decide)
  refine ⟨iff_of_false hne fun hz => ?_, fun hz => absurd hz hne, fun hz => absurd hz hne,
    fun _ _ _ _ _ hz => absurd hz hne⟩
  have hused := hp.free_eq_zero_iff.mp hz i h.lt
  rw [h.unused] at hused
  cases hused

lemma Inv.signalsNull_iff {p : Pmm} (h : Inv p) :
    SignalsNull p ↔ p.totalPages = 0 ∨ p.pageUsed 0 = true := by
  rcases alloc_cases h with ⟨hall, ha⟩ | ⟨i, q, ha, ht⟩
  · refine iff_of_true (signalsNull_of_null h hall ha) ?_
    rcases Nat.eq_zero_or_pos p.totalPages with hz | hpos
    · exact .inl hz
    · exact .inr (hall 0 hpos)
  · have hlt := ht.lt
    by_cases hi : i = 0
    · subst hi
      refine iff_of_false (fun hs => ?_) ?_
      · have hz := h.free_eq_zero_iff.mp (hs.null_iff.mp (by rw [ha, Nat.zero_mul])) 0 hlt
        rw [ht.unused] at hz
        cases hz
      · rintro (hz | hu)
        · omega
        · rw [ht.unused] at hu
          cases hu
    · exact iff_of_true (ht.signalsNull h ha hi) (.inr (ht.lowest 0 (Nat.pos_of_ne_zero hi)))

lemma run_inv {p q : Pmm} {ops : List Op} (h : Run (Steps exec) p ops q) (hp : Inv p) : Inv q :=
  h.invariant (I := Inv) (fun p op q hI hq => by
    rw [← hq]
    exact exec_inv hI op) hp

/-- In every reachable state NULL means that no page is free if and only if frame 0 is in use or there
are no frames. -/
theorem alloc_null_iff (storage : ℕ → BitVec 32) (start : ℕ) {size : ℕ} (hs : size < 2 ^ 32)
    (hd : 32 ∣ size / pageSize) {ops : List Op} {p : Pmm}
    (hrun : Run (Steps exec) (pmmInit storage start size) ops p) :
    SignalsNull p ↔ p.totalPages = 0 ∨ p.pageUsed 0 = true :=
  (run_inv hrun (init_inv storage start hs hd)).signalsNull_iff

theorem alloc_null_iff_boot :
    SignalsNull ([.alloc, .alloc, .free 0x1000].foldl exec (pmmInit (fun _ => 7#32) 0x110000 0x1000000)) ↔
      ([.alloc, .alloc, .free 0x1000].foldl exec
        (pmmInit (fun _ => 7#32) 0x110000 0x1000000)).totalPages = 0 ∨
      ([.alloc, .alloc, .free 0x1000].foldl exec
        (pmmInit (fun _ => 7#32) 0x110000 0x1000000)).pageUsed 0 = true :=
  alloc_null_iff (fun _ => 7#32) 0x110000 (by decide) (by decide) (Run.of_exec _ _)

/-- The first frame after `pmm_init` is at the address NULL. -/
theorem first_frame_null :
    ¬ ∀ (ops : List Op) (p : Pmm),
      Run (Steps exec) (pmmInit (fun _ => 0#32) 0x110000 0x1000000) ops p → SignalsNull p := by
  intro h
  have hs := h [] _ (.nil _)
  have hinv : Inv (pmmInit (fun _ => 0#32) 0x110000 0x1000000) := init_inv _ _ (by decide) (by decide)
  rcases hinv.signalsNull_iff.mp hs with hz | hu
  · cases hz
  · rw [init_unused _ _ (by decide) (by decide)] at hu
    cases hu

end Veni.Memory.Pmm
