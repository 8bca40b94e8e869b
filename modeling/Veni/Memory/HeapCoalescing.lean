import Veni.Memory.HeapAllocations

/-! Free blocks are never neighbours, so that giving everything back leaves one block. -/

namespace Veni.Memory.Heap

open Veni.Lib Veni.Lib.Blocks Veni.Lib.Transition

variable {π : Type*} (L : PageLayer π)

def NoFreePair (h : Heap π) : Prop :=
  ∃ blocks, Visits h.memory h.start blocks ∧
    blocks.IsChain fun b c => (header h.memory b).isFree = 0 ∨ (header h.memory c).isFree = 0

/-- The list is one free block from `HEAP_START` to the break, or empty where nothing lies between. -/
def SingleFree (h : Heap π) : Prop :=
  if h.currentBreak = heapStart then Visits h.memory h.start []
  else Visits h.memory h.start [heapStart] ∧ (header h.memory heapStart).isFree ≠ 0 ∧
    heapStart + (header h.memory heapStart).size = h.currentBreak

def SameBlocks (h h' : Heap π) : Prop :=
  h'.currentBreak = h.currentBreak ∧ ∃ blocks, Visits h.memory h.start blocks ∧
    Visits h'.memory h'.start blocks ∧ ∀ b ∈ blocks, header h'.memory b = header h.memory b

def CoalescedInv (x : Session π) : Prop :=
  ∃ bs, Layout x.heap bs ∧ Ledger bs x.outstanding ∧ Coalesced bs

lemma Moves.coalesced {bs cs : List Block} (h : Moves bs cs) (hc : Coalesced bs) : Coalesced cs := by
  cases h with
  | keep => exact hc
  | @carve n pre post b hv =>
    rcases hv.blocks with rfl | ⟨rfl, _, rfl⟩
    · obtain ⟨hpre, hpost, hends⟩ := coalesced_zoom.mp hc
      exact hpre.carve hpost (hends hv.fits.1).2 _ _ _
    · exact hc.carve .nil (by simp) _ _ _
  | release he =>
    subst he
    exact hc.release

lemma CoalescedInv.step {x y : Session π} {c : Call} (h : CoalescedInv x) (hs : Step L x c y) :
    CoalescedInv y := by
  obtain ⟨bs, hl, hledger, hc⟩ := h
  obtain ⟨z, hz, cs, hl', hledger', hmoves⟩ := hl.step L hledger hs.1
  rw [hs.2] at hz
  cases hz
  exact ⟨cs, hl', hledger', hmoves.coalesced hc⟩

lemma coalescedInv_kheapInit (m : ℕ → UInt8) (pages : π) :
    CoalescedInv ⟨kheapInit L (unused m pages), []⟩ := by
  obtain ⟨bs, hl, hledger, hc⟩ := kheapInit_layout L m pages
  generalize kheapInit L (unused m pages) = h at hl ⊢
  exact ⟨bs, hl, hledger, hc⟩

lemma Layout.visits {h : Heap π} {bs : List Block} (hl : Layout h bs) :
    Visits h.memory h.start (addresses heapStart bs) := hl.tiling.visits

lemma chain_addresses {m : ℕ → UInt8} {prev a : ℕ} {bs : List Block} (h : Seg m 0 prev a bs)
    (hc : Coalesced bs) : (addresses a bs).IsChain fun b c =>
      (header m b).isFree = 0 ∨ (header m c).isFree = 0 := by
  induction bs generalizing prev a with
  | nil => exact .nil
  | cons b bs ih =>
    obtain ⟨hhead, htail⟩ := List.isChain_cons.mp hc
    refine List.isChain_cons.mpr ⟨fun x hx => ?_, ih h.2 htail⟩
    cases bs with
    | nil => cases hx
    | cons c cs =>
      cases hx
      rw [h.1, h.2.1]
      rcases hhead c rfl with hf | hf
      · exact .inl (by simp [freeFlag, hf])
      · exact .inr (by simp [freeFlag, hf])

lemma Layout.sameBlocks {h h' : Heap π} {bs : List Block} (hl : Layout h bs) (hl' : Layout h' bs) :
    SameBlocks h h' := by
  refine ⟨hl'.brk.trans hl.brk.symm, _, hl.visits, hl'.visits, fun x hx => ?_⟩
  obtain ⟨b, hb⟩ := mem_addresses.mp hx
  obtain ⟨pre, post, rfl, rfl⟩ := blockAt_iff.mp hb
  rw [(seg_zoom.mp hl.seg).2.1, (seg_zoom.mp hl'.seg).2.1]

lemma CoalescedInv.singleFree {x : Session π} (h : CoalescedInv x) (hx : x.outstanding = []) :
    SingleFree x.heap := by
  obtain ⟨bs, hl, hledger, hc⟩ := h
  have hfree : ∀ b ∈ bs, b.free = true := by
    intro b hb
    obtain ⟨pre, post, rfl⟩ := List.append_of_mem hb
    by_contra hne
    obtain ⟨s, hs⟩ := hledger.complete _ b blockAt_self (by simpa using hne)
    rw [hx] at hs
    cases hs
  have hbrk := hl.brk
  have hvisits := hl.visits
  rcases hc.single hfree with rfl | he
  · have hempty : x.heap.currentBreak = heapStart := hbrk
    rw [SingleFree, if_pos hempty]
    exact hvisits
  · rw [he] at hl hvisits
    have hpos := hl.sized ⟨total bs, true⟩ List.mem_cons_self
    simp only [sizeofBlockHeader] at hpos
    rw [SingleFree, if_neg (by omega), hl.seg.1]
    exact ⟨hvisits, by simp [freeFlag], hbrk.symm⟩

lemma CoalescedInv.freeAll {x : Session π} {ps : List ℕ} (h : CoalescedInv x)
    (hp : ps.Perm (x.outstanding.map Prod.fst)) :
    ∃ y, Run (Step L) x (ps.map .kfree) y ∧ SingleFree y.heap := by
  induction ps generalizing x with
  | nil =>
    have hx : x.outstanding = [] := List.map_eq_nil_iff.mp (List.nil_perm.mp hp)
    exact ⟨x, .nil x, h.singleFree hx⟩
  | cons p ps ih =>
    have hmem : p ∈ x.outstanding.map Prod.fst := hp.subset List.mem_cons_self
    obtain ⟨q, hq, rfl⟩ := List.mem_map.mp hmem
    have hallowed : Allowed x (.kfree q.1) := .inr ⟨q.2, hq⟩
    obtain ⟨bs, hl, hledger, hc⟩ := h
    obtain ⟨y, hy, cs, hl', hledger', hmoves⟩ := hl.step L hledger hallowed
    have hrest : ps.Perm (y.outstanding.map Prod.fst) := by
      obtain ⟨h', _, rfl⟩ := Option.map_eq_some_iff.mp hy
      have hnodup : (q.1 :: ps).Nodup := hp.nodup_iff.mpr hledger.nodup
      have hkeep : (q.1 :: ps).filter (fun p => decide (p ≠ q.1)) = ps := by
        rw [List.filter_cons_of_neg (by simp)]
        apply List.filter_eq_self.mpr
        intro p hp
        have hne : p ≠ q.1 := by
          rintro rfl
          exact (List.nodup_cons.mp hnodup).1 hp
        simpa using hne
      have hfilter := hp.filter (fun p => decide (p ≠ q.1))
      rwa [hkeep, List.filter_map] at hfilter
    obtain ⟨z, hz, hsingle⟩ := ih ⟨cs, hl', hledger', hmoves.coalesced hc⟩ hrest
    exact ⟨z, .cons ⟨hallowed, hy⟩ hz, hsingle⟩

lemma CoalescedInv.restores {x : Session π} (h : CoalescedInv x) {size : ℕ} {r : ℕ × Heap π}
    (hsize : size ≤ heapMaxSize) (hr : kmalloc L x.heap size = some r)
    (hbrk : r.2.currentBreak = x.heap.currentBreak) :
    ∃ h', kfree r.2 r.1 = some h' ∧ SameBlocks x.heap h' := by
  obtain ⟨bs, hl, _, hc⟩ := h
  obtain ⟨r', hr', hspec⟩ := kmalloc_spec L hl (hl.unwrapped hsize)
  rw [hr] at hr'
  cases hr'
  rcases hspec with ⟨hzero, hl'⟩ | ⟨pre, b, post, hv, hs, hptr, hl'⟩
  · exact ⟨r.2, by rw [hzero, kfree, if_pos rfl], hl.sameBlocks hl'⟩
  · rcases hv.blocks with rfl | ⟨rfl, hb, rfl⟩
    · rw [carve_eq, List.cons_append] at hl'
      obtain ⟨h', hfree, hl''⟩ := kfree_spec hl'
      rw [hc.release_carved hv.fits] at hl''
      exact ⟨h', by rw [hptr]; exact hfree, hl.sameBlocks hl''⟩
    · have htotal := hl'.brk
      rw [hbrk, hl.brk] at htotal
      simp only [List.append_nil, total_append, total_carve splitSlack hv.fits.2, hb] at htotal
      have hpage : 0 < max (alignedSize size) pageSize := lt_max_of_lt_right (by decide)
      omega

/-- In every state of every run no two adjacent blocks are free; giving back everything leaves one
free block; and a request served without extending the heap is undone by giving it back. -/
theorem blocks_coalesced (m : ℕ → UInt8) (pages : π) {cs : List Call} {x : Session π}
    (h : Run (Step L) ⟨kheapInit L (unused m pages), []⟩ cs x) :
    NoFreePair x.heap ∧
      (∀ ps : List ℕ, ps.Perm (x.outstanding.map Prod.fst) →
        ∃ y, Run (Step L) x (ps.map .kfree) y ∧ SingleFree y.heap) ∧
      ∀ size r, size ≤ heapMaxSize → kmalloc L x.heap size = some r →
        r.2.currentBreak = x.heap.currentBreak →
          ∃ h', kfree r.2 r.1 = some h' ∧ SameBlocks x.heap h' := by
  have hinv : CoalescedInv x := by
    exact h.invariant (fun _ _ _ hs hstep => hs.step L hstep) (coalescedInv_kheapInit L m pages)
  refine ⟨?_, fun ps hp => hinv.freeAll L hp, fun size r hsize hr hbrk => hinv.restores L hsize hr hbrk⟩
  obtain ⟨bs, hl, _, hc⟩ := hinv
  exact ⟨_, hl.visits, chain_addresses hl.seg hc⟩

theorem blocks_coalesced_kmalloc :
    ∃ x, Run (Step loggedPages) ⟨kheapInit loggedPages (unused (fun _ => 0) []), []⟩
        [.kmalloc 24] x ∧ NoFreePair x.heap ∧
      ∃ y, Run (Step loggedPages) x [.kfree 0xD0000014] y ∧ SingleFree y.heap := by
  obtain ⟨x, hrun, hlist⟩ := loggedPages_kmalloc
  obtain ⟨hpair, hall, _⟩ := blocks_coalesced loggedPages _ _ hrun
  exact ⟨x, hrun, hpair, hall [0xD0000014] (by simp [hlist])⟩

end Veni.Memory.Heap
