import Veni.Lib.Transition
import Veni.Memory.HeapInvariant

/-! Runs of the heap calls with the pointers that are outstanding, and users that write payloads. -/

namespace Veni.Memory.Heap

open Veni.Lib Veni.Lib.ByteMemory Veni.Lib.Blocks Veni.Lib.Transition

variable {π : Type*} (L : PageLayer π)

/-- A heap, and every pointer it handed out and did not get back, with the requested size. -/
structure Session (π : Type*) where
  heap : Heap π
  outstanding : List (ℕ × ℕ)

inductive Call
  | kmalloc (size : ℕ)
  | kfree (ptr : ℕ)
  | write (memory : ℕ → UInt8)

def exec (x : Session π) : Call → Option (Session π)
  | .kmalloc size =>
    (Heap.kmalloc L x.heap size).map fun r =>
      ⟨r.2, if r.1 = 0 then x.outstanding else (r.1, size) :: x.outstanding⟩
  | .kfree ptr => (Heap.kfree x.heap ptr).map fun h => ⟨h, x.outstanding.filter fun p => p.1 ≠ ptr⟩
  | .write m => some ⟨{ x.heap with memory := m }, x.outstanding⟩

/-- What callers promise: no request above the heap's size, no pointer that is not outstanding, and
no write below the break outside the payloads. -/
def Allowed (x : Session π) : Call → Prop
  | .kmalloc size => size ≤ heapMaxSize
  | .kfree ptr => ptr = 0 ∨ ∃ s, (ptr, s) ∈ x.outstanding
  | .write m => ∀ a, heapStart ≤ a → a < x.heap.currentBreak → m a ≠ x.heap.memory a →
      ∃ p ∈ x.outstanding, p.1 ≤ a ∧ a < p.1 + p.2

def Step : Session π → Call → Session π → Prop :=
  Guarded Allowed fun x c y => exec L x c = some y

structure Ledger (bs : List Block) (outs : List (ℕ × ℕ)) : Prop where
  inside : ∀ p ∈ outs, ∃ x b, p.1 = x + sizeofBlockHeader ∧ BlockAt heapStart bs x b ∧
    b.free = false ∧ sizeofBlockHeader + p.2 ≤ b.size
  nodup : (outs.map Prod.fst).Nodup
  complete : ∀ x b, BlockAt heapStart bs x b → b.free = false →
    ∃ s, (x + sizeofBlockHeader, s) ∈ outs

def Inv (x : Session π) : Prop := ∃ bs, Layout x.heap bs ∧ Ledger bs x.outstanding

lemma Serves.blockAt {n : ℕ} {bs pre post : List Block} {b c : Block} (h : Serves n bs pre b post)
    (hc : c.free = false) {x : ℕ} :
    BlockAt heapStart (pre ++ b :: post) x c ↔ BlockAt heapStart bs x c := by
  rcases h.blocks with he | ⟨rfl, _, rfl⟩
  · rw [he]
  · have hne : c ≠ b := by
      rintro rfl
      simp [h.fits.1] at hc
    simp [BlockAt, hne]

lemma Ledger.kmalloc {n size : ℕ} {bs pre post : List Block} {b : Block} {outs : List (ℕ × ℕ)}
    (hs : Sized (pre ++ b :: post)) (h : Ledger bs outs) (hv : Serves n bs pre b post)
    (hn : size + sizeofBlockHeader ≤ n) :
    Ledger (pre ++ (carve splitSlack n b ++ post))
      ((heapStart + total pre + sizeofBlockHeader, size) :: outs) := by
  have hle := le_carved (s := splitSlack) hv.fits.2
  refine ⟨fun p hp => ?_, ?_, fun x c hx hc => ?_⟩
  · rcases List.mem_cons.mp hp with rfl | hp
    · exact ⟨_, _, rfl, (blockAt_carve hv.fits rfl).mpr (.inr ⟨rfl, rfl⟩), rfl, by simp only; omega⟩
    · obtain ⟨x, c, hpx, hx, hc, hroom⟩ := h.inside p hp
      exact ⟨x, c, hpx, (blockAt_carve hv.fits hc).mpr (.inl ((hv.blockAt hc).mpr hx)), hc, hroom⟩
  · rw [List.map_cons, List.nodup_cons]
    refine ⟨fun hmem => ?_, h.nodup⟩
    obtain ⟨p, hp, hpeq⟩ := List.mem_map.mp hmem
    obtain ⟨x, c, hpx, hx, hc, _⟩ := h.inside p hp
    have hxeq : x = heapStart + total pre := by
      simp only at hpeq
      omega
    have hcb := hs.unique ((hv.blockAt hc).mpr hx) (hxeq ▸ blockAt_self)
    rw [hcb, hv.fits.1] at hc
    cases hc
  · rcases (blockAt_carve hv.fits hc).mp hx with hx | ⟨rfl, rfl⟩
    · obtain ⟨s, hmem⟩ := h.complete x c ((hv.blockAt hc).mp hx) hc
      exact ⟨s, List.mem_cons_of_mem _ hmem⟩
    · exact ⟨size, List.mem_cons_self⟩

lemma Ledger.kfree {pre post : List Block} {b : Block} {outs : List (ℕ × ℕ)}
    (hs : Sized (pre ++ b :: post)) (h : Ledger (pre ++ b :: post) outs) :
    Ledger (release pre b post)
      (outs.filter fun p => p.1 ≠ heapStart + total pre + sizeofBlockHeader) := by
  have hb : BlockAt heapStart (pre ++ b :: post) (heapStart + total pre) b :=
    blockAt_self
  have hkeep : ∀ x c, c.free = false → (BlockAt heapStart (release pre b post) x c ↔
      BlockAt heapStart (pre ++ b :: post) x c ∧ x ≠ heapStart + total pre) := by
    intro x c hc
    rw [blockAt_release hc]
    simp only [blockAt_append, BlockAt]
    have hpos := hs.pos hb
    constructor
    · rintro (hx | hx)
      · have hlt := hx.bounds.2
        have hcpos := hs.pos (blockAt_append.mpr (.inl hx))
        exact ⟨.inl hx, by omega⟩
      · have hge := hx.bounds.1
        exact ⟨.inr (.inr hx), by omega⟩
    · rintro ⟨hx | ⟨rfl, rfl⟩ | hx, hne⟩
      · exact .inl hx
      · exact absurd rfl hne
      · exact .inr hx
  refine ⟨fun p hp => ?_, ?_, fun x c hx hc => ?_⟩
  · obtain ⟨hp, hne⟩ := List.mem_filter.mp hp
    obtain ⟨x, c, hpx, hx, hc, hroom⟩ := h.inside p hp
    refine ⟨x, c, hpx, (hkeep x c hc).mpr ⟨hx, ?_⟩, hc, hroom⟩
    rintro rfl
    simp [hpx] at hne
  · exact (List.filter_sublist.map Prod.fst).nodup h.nodup
  · obtain ⟨hx, hne⟩ := (hkeep x c hc).mp hx
    obtain ⟨s, hmem⟩ := h.complete x c hx hc
    exact ⟨s, List.mem_filter.mpr ⟨hmem, by simpa using hne⟩⟩

lemma Ledger.write {x : Session π} {m : ℕ → UInt8} {bs : List Block}
    (hledger : Ledger bs x.outstanding) (hl : Layout x.heap bs) (hm : Allowed x (.write m)) :
    Layout { x.heap with memory := m } bs := by
  refine ⟨hl.seg.congr_blocks fun y b hy => header_congr fun a hlo hhi => ?_, hl.start, hl.sized,
    hl.brk, hl.bounded⟩
  by_contra hne
  have hroom := hl.sized b hy.mem
  have hbounds := hy.bounds
  have hbrk := hl.brk
  simp only [sizeofBlockHeader] at hroom
  obtain ⟨p, hp, hpa, hap⟩ := hm a (by omega) (by omega) hne
  obtain ⟨z, c, hpz, hz, _, hfit⟩ := hledger.inside p hp
  simp only [sizeofBlockHeader] at hpz hfit
  rcases hy.disjoint hz with ⟨rfl, rfl⟩ | hdis | hdis
  · omega
  · omega
  · omega

inductive Moves (bs : List Block) : List Block → Prop
  | keep : Moves bs bs
  | carve {n : ℕ} {pre post : List Block} {b : Block} (hv : Serves n bs pre b post) :
      Moves bs (pre ++ (Blocks.carve splitSlack n b ++ post))
  | release {pre post : List Block} {b : Block} (he : pre ++ b :: post = bs) :
      Moves bs (Blocks.release pre b post)

lemma Layout.request {x : Session π} {size : ℕ} {bs : List Block} (hl : Layout x.heap bs)
    (hledger : Ledger bs x.outstanding) (hsize : Unwrapped x.heap size) :
    ∃ y, exec L x (.kmalloc size) = some y ∧
      ∃ cs, Layout y.heap cs ∧ Ledger cs y.outstanding ∧ Moves bs cs := by
  obtain ⟨r, hr, hspec⟩ := kmalloc_spec L hl hsize
  have hexec : exec L x (.kmalloc size) =
      some ⟨r.2, if r.1 = 0 then x.outstanding else (r.1, size) :: x.outstanding⟩ := by
    rw [exec, hr]
    rfl
  refine ⟨_, hexec, ?_⟩
  rcases hspec with ⟨hnull, hl'⟩ | ⟨pre, b, post, hserves, hsized, hptr, hl'⟩
  · rw [if_pos hnull]
    exact ⟨bs, hl', hledger, .keep⟩
  · have hne : r.1 ≠ 0 := by
      rw [hptr, heapStart]
      omega
    have hzero : size ≠ 0 := by
      rintro rfl
      rw [kmalloc, if_pos rfl] at hr
      cases hr
      exact hne rfl
    have hsum := hsize.resolve_left hzero
    have hroom : size + sizeofBlockHeader ≤ alignedSize size := by
      rw [alignedSize_eq (Nat.lt_of_le_of_lt (Nat.le_add_left _ _) hsum), wholeSize]
      omega
    rw [if_neg hne, hptr]
    exact ⟨_, hl', hledger.kmalloc hsized hserves hroom, .carve hserves⟩

lemma Layout.step {x : Session π} {c : Call} {bs : List Block} (hl : Layout x.heap bs)
    (hledger : Ledger bs x.outstanding) (hc : Allowed x c) :
    ∃ y, exec L x c = some y ∧ ∃ cs, Layout y.heap cs ∧ Ledger cs y.outstanding ∧ Moves bs cs := by
  cases c with
  | kmalloc size => exact hl.request L hledger (hl.unwrapped hc)
  | kfree ptr =>
    rcases hc with rfl | ⟨s, hs⟩
    · have hkeep : (x.outstanding.filter fun p => p.1 ≠ 0) = x.outstanding := by
        apply List.filter_eq_self.mpr
        intro p hp
        obtain ⟨y, b, hpy, _⟩ := hledger.inside p hp
        simp only [sizeofBlockHeader] at hpy
        simp [hpy]
      refine ⟨x, ?_, bs, hl, hledger, .keep⟩
      simp only [exec, Heap.kfree, if_true, Option.map_some, hkeep]
    · obtain ⟨z, b, hpz, hz, _, _⟩ := hledger.inside _ hs
      obtain ⟨pre, post, rfl, rfl⟩ := blockAt_iff.mp hz
      obtain ⟨h', hfree, hl'⟩ := kfree_spec hl
      simp only at hpz
      subst hpz
      have hexec : exec L x (.kfree (heapStart + total pre + sizeofBlockHeader)) = some ⟨h',
          x.outstanding.filter fun p => p.1 ≠ heapStart + total pre + sizeofBlockHeader⟩ := by
        rw [exec, hfree]
        rfl
      exact ⟨_, hexec, _, hl', hledger.kfree hl.sized, .release rfl⟩
  | write m => exact ⟨_, rfl, bs, hledger.write hl hc, hledger, .keep⟩

lemma Inv.step {x : Session π} {c : Call} (h : Inv x) (hc : Allowed x c) :
    ∃ y, exec L x c = some y ∧ Inv y := by
  obtain ⟨bs, hl, hledger⟩ := h
  obtain ⟨y, hy, cs, hl', hledger', _⟩ := hl.step L hledger hc
  exact ⟨y, hy, cs, hl', hledger'⟩

section Tiling

def Visits (m : ℕ → UInt8) : ℕ → List ℕ → Prop
  | a, [] => a = 0
  | a, b :: bs => a = b ∧ a ≠ 0 ∧ Visits m (header m a).next bs

/-- The block list of a heap tiles it from `HEAP_START` to the break. -/
structure Tiling (h : Heap π) (blocks : List ℕ) : Prop where
  visits : Visits h.memory h.start blocks
  magic : ∀ b ∈ blocks, (header h.memory b).magic = blockMagic
  increasing : blocks.Pairwise (· < ·)
  adjacent : blocks.IsChain fun b c => c = b + (header h.memory b).size ∧
    (header h.memory b).next = c ∧ (header h.memory c).prev = b
  begins : ∀ b ∈ blocks.head?, b = heapStart ∧ (header h.memory b).prev = 0
  ends : ∀ b ∈ blocks.getLast?, b + (header h.memory b).size = h.currentBreak
  empty : blocks = [] → h.currentBreak = heapStart
  bounded : h.currentBreak ≤ heapEnd

structure Payloads (x : Session π) (blocks : List ℕ) : Prop where
  disjoint : x.outstanding.Pairwise fun p q => p.1 + p.2 ≤ q.1 ∨ q.1 + q.2 ≤ p.1
  clear : ∀ p ∈ x.outstanding, ∀ b ∈ blocks, b + sizeofBlockHeader ≤ p.1 ∨ p.1 + p.2 ≤ b
  inside : ∀ p ∈ x.outstanding, ∃ b ∈ blocks, (header x.heap.memory b).isFree = 0 ∧
    b + sizeofBlockHeader ≤ p.1 ∧ p.1 + p.2 ≤ b + (header x.heap.memory b).size

def addresses (a : ℕ) : List Block → List ℕ
  | [] => []
  | b :: bs => a :: addresses (a + b.size) bs

lemma mem_addresses {a x : ℕ} {bs : List Block} :
    x ∈ addresses a bs ↔ ∃ b, BlockAt a bs x b := by
  induction bs generalizing a with
  | nil => simp [addresses, BlockAt]
  | cons b bs ih => simp [addresses, BlockAt, ih, exists_or]

lemma Seg.header_at {m : ℕ → UInt8} {next prev a x : ℕ} {b : Block} {bs : List Block}
    (h : Seg m next prev a bs) (hx : BlockAt a bs x b) :
    (header m x).magic = blockMagic ∧ (header m x).size = b.size ∧
      (header m x).isFree = freeFlag b := by
  obtain ⟨pre, post, rfl, rfl⟩ := blockAt_iff.mp hx
  rw [(seg_zoom.mp h).2.1]
  exact ⟨rfl, rfl, rfl⟩

lemma Seg.visits {m : ℕ → UInt8} {prev a : ℕ} {bs : List Block} (ha : 0 < a)
    (h : Seg m 0 prev a bs) : Visits m (first 0 a bs) (addresses a bs) := by
  induction bs generalizing prev a with
  | nil => rfl
  | cons b bs ih =>
    refine ⟨rfl, ha.ne', ?_⟩
    simp only [first, h.1]
    exact ih (by omega) h.2

lemma Seg.increasing {a : ℕ} {bs : List Block} (hs : Sized bs) :
    (addresses a bs).Pairwise (· < ·) := by
  induction bs generalizing a with
  | nil => exact .nil
  | cons b bs ih =>
    refine .cons (fun x hx => ?_) (ih hs.cons.2)
    obtain ⟨c, hc⟩ := mem_addresses.mp hx
    have hlo := hc.bounds.1
    have hb := hs.pos (a := a) (.inl ⟨rfl, rfl⟩)
    omega

lemma Seg.adjacent {m : ℕ → UInt8} {prev a : ℕ} {bs : List Block} (h : Seg m 0 prev a bs) :
    (addresses a bs).IsChain fun b c => c = b + (header m b).size ∧
      (header m b).next = c ∧ (header m c).prev = b := by
  induction bs generalizing prev a with
  | nil => exact .nil
  | cons b bs ih =>
    cases bs with
    | nil => exact .singleton _
    | cons c bs =>
      refine .cons_cons ⟨?_, ?_, ?_⟩ (ih h.2)
      · rw [h.1]
      · rw [h.1]
        rfl
      · rw [h.2.1]

lemma Seg.ends {m : ℕ → UInt8} {prev a : ℕ} {bs : List Block} (h : Seg m 0 prev a bs) :
    ∀ b ∈ (addresses a bs).getLast?, b + (header m b).size = a + total bs := by
  induction bs generalizing prev a with
  | nil => simp [addresses]
  | cons b bs ih =>
    cases bs with
    | nil => simp [addresses, h.1]
    | cons c bs =>
      intro x hx
      rw [total_cons, ← Nat.add_assoc]
      exact ih h.2 x hx

lemma Layout.tiling {h : Heap π} {bs : List Block} (hl : Layout h bs) :
    Tiling h (addresses heapStart bs) where
  visits := by
    rw [hl.start]
    exact Seg.visits (by decide) hl.seg
  magic b hb := by
    obtain ⟨c, hc⟩ := mem_addresses.mp hb
    exact (Seg.header_at hl.seg hc).1
  increasing := Seg.increasing hl.sized
  adjacent := Seg.adjacent hl.seg
  begins := by
    cases bs with
    | nil => simp [addresses]
    | cons b bs => simp [addresses, hl.seg.1]
  ends := by
    rw [hl.brk]
    exact Seg.ends hl.seg
  empty he := by
    cases bs with
    | nil => exact hl.brk
    | cons b bs => cases he
  bounded := hl.bounded

lemma Ledger.payloads {x : Session π} {bs : List Block} (hl : Layout x.heap bs)
    (h : Ledger bs x.outstanding) : Payloads x (addresses heapStart bs) where
  disjoint := by
    have hne : x.outstanding.Pairwise fun p q => p.1 ≠ q.1 := List.pairwise_map.mp h.nodup
    apply hne.imp_of_mem
    intro p q hp hq hpq
    obtain ⟨y, b, hpy, hy, _, hb⟩ := h.inside p hp
    obtain ⟨z, c, hqz, hz, _, hc⟩ := h.inside q hq
    rcases hy.disjoint hz with ⟨rfl, _⟩ | hdis | hdis
    · exact absurd (hpy.trans hqz.symm) hpq
    · left
      omega
    · right
      omega
  clear p hp a ha := by
    obtain ⟨y, b, hpy, hy, _, hb⟩ := h.inside p hp
    obtain ⟨c, hc⟩ := mem_addresses.mp ha
    have hsize := hl.sized c hc.mem
    rcases hc.disjoint hy with ⟨rfl, _⟩ | hdis | hdis
    · left
      omega
    · left
      omega
    · right
      omega
  inside p hp := by
    obtain ⟨y, b, hpy, hy, hfree, hb⟩ := h.inside p hp
    obtain ⟨_, hsize, hflag⟩ := Seg.header_at hl.seg hy
    refine ⟨y, mem_addresses.mpr ⟨b, hy⟩, ?_, hpy.ge, ?_⟩
    · simp [hflag, freeFlag, hfree]
    · omega

end Tiling

def unused (m : ℕ → UInt8) (pages : π) : Heap π := ⟨m, 0, heapStart, pages⟩

lemma ledger_nil {bs : List Block} (h : ∀ b ∈ bs, b.free = true) : Ledger bs [] := by
  refine ⟨fun p hp => absurd hp List.not_mem_nil, List.nodup_nil, fun x b hx hb => ?_⟩
  rw [h b hx.mem] at hb
  cases hb

lemma kheapInit_layout (m : ℕ → UInt8) (pages : π) :
    ∃ bs, Layout (kheapInit L (unused m pages)) bs ∧ Ledger bs [] ∧ Coalesced bs := by
  have hempty : Layout (unused m pages) [] :=
    ⟨trivial, rfl, by simp [Sized], rfl, (by decide : heapStart ≤ heapEnd)⟩
  obtain ⟨bs, hl, hfree, hc⟩ := kheapInit_spec L hempty
  generalize kheapInit L (unused m pages) = h at hl ⊢
  exact ⟨bs, hl, ledger_nil hfree, hc⟩

lemma inv_kheapInit (m : ℕ → UInt8) (pages : π) : Inv ⟨kheapInit L (unused m pages), []⟩ := by
  obtain ⟨bs, hl, hledger, _⟩ := kheapInit_layout L m pages
  generalize kheapInit L (unused m pages) = h at hl ⊢
  exact ⟨bs, hl, hledger⟩

/-- In every state of every run the blocks tile the heap, the payloads lie in them, and every allowed
call returns. -/
theorem heap_layout (m : ℕ → UInt8) (pages : π) {cs : List Call} {x : Session π}
    (h : Run (Step L) ⟨kheapInit L (unused m pages), []⟩ cs x) :
    (∃ blocks, Tiling x.heap blocks ∧ Payloads x blocks) ∧
      ∀ c, Allowed x c → ∃ y, exec L x c = some y := by
  have hinv : Inv x := by
    refine h.invariant (fun s c t hs hstep => ?_) (inv_kheapInit L m pages)
    obtain ⟨y, hy, hinv⟩ := hs.step L hstep.1
    rw [hstep.2] at hy
    cases hy
    exact hinv
  refine ⟨?_, fun c hc => ?_⟩
  · obtain ⟨bs, hl, hledger⟩ := hinv
    exact ⟨_, hl.tiling, hledger.payloads hl⟩
  · obtain ⟨y, hy, _⟩ := hinv.step L hc
    exact ⟨y, hy⟩

def loggedPages : PageLayer (List (ℕ × ℕ)) where
  pmmAllocPage s := (pageSize * (s.length + 2), s)
  mapPage s virtual physical := (virtual, physical) :: s

lemma loggedPages_kmalloc : ∃ x, Run (Step loggedPages)
    ⟨kheapInit loggedPages (unused (fun _ => 0) []), []⟩ [.kmalloc 24] x ∧
      x.outstanding = [(0xD0000014, 24)] := by
  have hout : (exec loggedPages ⟨kheapInit loggedPages (unused (fun _ => 0) []), []⟩
      (.kmalloc 24)).map Session.outstanding = some [(0xD0000014, 24)] := by decide +kernel
  obtain ⟨x, hx, hlist⟩ := Option.map_eq_some_iff.mp hout
  exact ⟨x, Run.single ⟨(by decide : 24 ≤ heapMaxSize), hx⟩, hlist⟩

theorem heap_layout_kmalloc :
    ∃ x, Run (Step loggedPages) ⟨kheapInit loggedPages (unused (fun _ => 0) []), []⟩
        [.kmalloc 24] x ∧ x.outstanding = [(0xD0000014, 24)] ∧
      ((∃ blocks, Tiling x.heap blocks ∧ Payloads x blocks) ∧
        ∀ c, Allowed x c → ∃ y, exec loggedPages x c = some y) := by
  obtain ⟨x, hrun, hlist⟩ := loggedPages_kmalloc
  exact ⟨x, hrun, hlist, heap_layout loggedPages _ _ hrun⟩

end Veni.Memory.Heap
