import Veni.Memory.HeapGrowth

/-! Requests of any 32-bit size: which calls of `kmalloc` stay inside the heap. -/

namespace Veni.Memory.Heap

open Veni.Lib Veni.Lib.ByteMemory Veni.Lib.Blocks Veni.Lib.Transition

variable {π : Type*} (L : PageLayer π)

/-- What callers promise when a request may be any 32-bit number. -/
def Promised (x : Session π) : Call → Prop
  | .kmalloc size => size < 2 ^ 32
  | .kfree ptr => Allowed x (.kfree ptr)
  | .write m => Allowed x (.write m)

def Requests : Session π → Call → Session π → Prop :=
  Guarded Promised fun x c y => exec L x c = some y

/-- A used block before `p` has room for `size` bytes from `p` on, below the break. -/
structure Offers (h : Heap π) (p size : ℕ) : Prop where
  lower : heapStart + sizeofBlockHeader ≤ p
  upper : p + size ≤ h.currentBreak
  magic : (header h.memory (p - sizeofBlockHeader)).magic = blockMagic
  used : (header h.memory (p - sizeofBlockHeader)).isFree = 0
  room : sizeofBlockHeader + size ≤ (header h.memory (p - sizeofBlockHeader)).size

def BreakInside (h : Heap π) : Prop := heapStart ≤ h.currentBreak ∧ h.currentBreak ≤ heapEnd

structure Sound (x : Session π) (c : Call) (y : Session π) : Prop where
  breakInside : BreakInside y.heap
  rounds : ∀ size, c = .kmalloc size → size ≠ 0 → wholeSize size < 2 ^ 32
  sums : ∀ size, c = .kmalloc size → NoFit x.heap size → x.heap.currentBreak + growth size < 2 ^ 32
  returns : ∀ size p h, c = .kmalloc size → kmalloc L x.heap size = some (p, h) →
    p = 0 ∨ Offers h p size

def NoWrap (x : Session π) (c : Call) (_ : Session π) : Prop :=
  ∀ size, c = .kmalloc size → Unwrapped x.heap size

section Layouts

variable {h : Heap π} {bs : List Block}

lemma Layout.breakInside (hl : Layout h bs) : BreakInside h :=
  ⟨hl.brk ▸ Nat.le_add_right _ _, hl.bounded⟩

lemma Ledger.offers {outs : List (ℕ × ℕ)} {p size : ℕ} (hl : Layout h bs) (hledger : Ledger bs outs)
    (hp : (p, size) ∈ outs) : Offers h p size := by
  obtain ⟨x, b, hpx, hx, hused, hroom⟩ := hledger.inside _ hp
  obtain ⟨hmagic, hsize, hflag⟩ := Seg.header_at hl.seg hx
  obtain ⟨hlo, hhi⟩ := hx.bounds
  have hbrk := hl.brk
  simp only at hpx hroom
  subst hpx
  refine ⟨by omega, by omega, ?_, ?_, ?_⟩
  · rw [Nat.add_sub_cancel]
    exact hmagic
  · rw [Nat.add_sub_cancel, hflag]
    simp [freeFlag, hused]
  · rw [Nat.add_sub_cancel, hsize]
    exact hroom

lemma Layout.noFit_or_fits (hl : Layout h bs) {size : ℕ} (hzero : size ≠ 0) :
    NoFit h size ∨ heapStart + alignedSize size ≤ h.currentBreak := by
  rcases Nat.lt_or_ge h.currentBreak (heapStart + alignedSize size) with hlt | hge
  · exact .inl (noFit_of_total hl hzero hlt)
  · exact .inr hge

variable {L} in
lemma Layout.extend_returns (hl : Layout h bs) {n b : ℕ} (hn : n > pageSize)
    (hs : sbrk L h n = (h.currentBreak, { h with currentBreak := b })) :
    ∃ h', extend L h n = some (h.currentBreak, h') ∧ h'.currentBreak = b := by
  have hne : h.currentBreak ≠ 0 := by
    rw [hl.brk, heapStart]
    omega
  simp only [extend, if_pos hn, hs, hne, if_false]
  rcases List.eq_nil_or_concat bs with rfl | ⟨cs, l, rfl⟩
  · have hstart : h.start = 0 := hl.start
    rw [if_pos hstart]
    exact ⟨_, rfl, rfl⟩
  · rw [List.concat_eq_append] at hl
    have hstart : h.start = heapStart := by
      rw [hl.start]
      cases cs <;> rfl
    have hzero : heapStart ≠ 0 := by decide
    have hlast := hl.lastBlock_written ⟨blockMagic, n, 1, 0, 0⟩
    simp only [hstart, hzero, if_false, hlast, Option.map_some]
    exact ⟨_, rfl, rfl⟩

lemma sbrk_wraps {n : ℕ} (hn : n < 2 ^ 32) (hb : h.currentBreak ≤ heapEnd)
    (hwrap : 2 ^ 32 ≤ h.currentBreak + n) :
    sbrk L h n = (h.currentBreak, { h with currentBreak := h.currentBreak + n - 2 ^ 32 }) := by
  have hnew : (h.currentBreak + n) % 2 ^ 32 = h.currentBreak + n - 2 ^ 32 := by
    rw [Nat.mod_eq_sub_mod hwrap]
    exact Nat.mod_eq_of_lt (by simp only [heapEnd] at hb; omega)
  have hloop : mapNewPages L n h.pages h.currentBreak (h.currentBreak + n - 2 ^ 32) = (h.pages, true) := by
    cases n with
    | zero => rfl
    | succ n => rw [mapNewPages, if_neg (by omega)]
  rw [sbrk, hnew, if_neg (by omega), hloop]
  rfl

lemma Layout.wraps (hl : Layout h bs) {size : ℕ} (hzero : size ≠ 0) (hround : wholeSize size < 2 ^ 32)
    (hwrap : 2 ^ 32 ≤ h.currentBreak + wholeSize size) :
    ∃ h', kmalloc L h size = some (h.currentBreak + sizeofBlockHeader, h') ∧
      h'.currentBreak = h.currentBreak + wholeSize size - 2 ^ 32 ∧
        heapEnd < h.currentBreak + sizeofBlockHeader + size := by
  have hwhole := alignedSize_eq hround
  obtain ⟨hlo, hhi⟩ := hl.breakInside
  have hfits := hl.noFit_or_fits hzero
  rw [hwhole] at hfits
  simp only [heapStart, heapEnd] at hlo hhi hfits
  have hfind := (hfits.resolve_right (by omega)).2
  rw [hwhole] at hfind
  have hlarge : wholeSize size > pageSize := by
    simp only [pageSize]
    omega
  obtain ⟨h', hext, hbrk⟩ := hl.extend_returns hlarge (sbrk_wraps L hround hl.bounded hwrap)
  have hne : h.currentBreak ≠ 0 := by omega
  have hmod : (h.currentBreak + sizeofBlockHeader) % 2 ^ 32 = h.currentBreak + sizeofBlockHeader :=
    Nat.mod_eq_of_lt (by simp only [sizeofBlockHeader]; omega)
  refine ⟨{ h' with
    memory := setIsFree (splitBlock h'.memory h.currentBreak (wholeSize size)) h.currentBreak 0 },
    ?_, hbrk, ?_⟩
  · simp only [kmalloc, hzero, if_false, hwhole, hfind, Option.bind_some, if_true, hext, Option.map_some,
      hne, hmod]
  · simp only [wholeSize, sizeofBlockHeader] at hround hwrap ⊢
    simp only [heapEnd]
    omega

end Layouts

lemma Layout.growth_lt {h : Heap π} {bs : List Block} (hl : Layout h bs) {size : ℕ} (hzero : size ≠ 0)
    (hfit : Unwrapped h size) : h.currentBreak + growth size < 2 ^ 32 := by
  have hlt := hfit.resolve_left hzero
  have hb := hl.bounded
  rw [growth, alignedSize_eq (Nat.lt_of_le_of_lt (Nat.le_add_left _ _) hlt)]
  simp only [heapEnd, pageSize] at hb ⊢
  omega

section Steps

variable {x y : Session π} {c : Call}

lemma Layout.promised {bs : List Block} (hl : Layout x.heap bs) (hledger : Ledger bs x.outstanding)
    (hp : Promised x c) (hfit : ∀ size, c = .kmalloc size → Unwrapped x.heap size) :
    ∃ z, exec L x c = some z ∧ ∃ cs, Layout z.heap cs ∧ Ledger cs z.outstanding ∧ Moves bs cs := by
  cases c with
  | kmalloc size => exact hl.request L hledger (hfit size rfl)
  | kfree ptr => exact hl.step L hledger hp
  | write m => exact hl.step L hledger hp

lemma Inv.promised (h : Inv x) (hp : Promised x c) (hfit : ∀ size, c = .kmalloc size → Unwrapped x.heap size) :
    ∃ z, exec L x c = some z ∧ Inv z := by
  obtain ⟨bs, hl, hledger⟩ := h
  obtain ⟨z, hz, cs, hl', hledger', _⟩ := hl.promised L hledger hp hfit
  exact ⟨z, hz, cs, hl', hledger'⟩

variable {L}

lemma Inv.requests (h : Inv x) (hs : Requests L x c y) (hfit : NoWrap x c y) : Inv y := by
  obtain ⟨z, hz, hinv⟩ := h.promised L hs.1 hfit
  rw [hs.2] at hz
  cases hz
  exact hinv

lemma noWrap_of_sound (h : Inv x) (hs : Sound L x c y) : NoWrap x c y := by
  obtain ⟨bs, hl, _⟩ := h
  intro size he
  by_cases hzero : size = 0
  · exact .inl hzero
  right
  have hround := hs.rounds size he hzero
  have hwhole := alignedSize_eq hround
  rcases hl.noFit_or_fits hzero with hnone | hfits
  · have hsum := hs.sums size he hnone
    have hle : alignedSize size ≤ growth size := Nat.le_max_left _ _
    omega
  · have hb := hl.bounded
    simp only [heapStart, heapEnd] at hfits hb
    omega

lemma sound_of_noWrap (h : Inv x) (hs : Requests L x c y) (hfit : NoWrap x c y) : Sound L x c y := by
  obtain ⟨bs, hl', hledger'⟩ := h.requests hs hfit
  obtain ⟨cs, hl, _⟩ := h
  refine ⟨hl'.breakInside, fun size he hzero => ?_, fun size he hnone => ?_, fun size p h' he hp => ?_⟩
  · exact Nat.lt_of_le_of_lt (Nat.le_add_left _ _) ((hfit size he).resolve_left hzero)
  · exact hl.growth_lt hnone.1 (hfit size he)
  · subst he
    have hexec := hs.2
    simp only [exec, hp, Option.map_some, Option.some.injEq] at hexec
    by_cases hnull : p = 0
    · exact .inl hnull
    · right
      rw [if_neg hnull] at hexec
      subst hexec
      exact Ledger.offers hl' hledger' List.mem_cons_self

end Steps

/-- Along every run of requests of any 32-bit size, the payloads and the break stay inside the heap
and no addition wraps if and only if the break and each rounded request with its header stay below
2 ^ 32, and then every call returns. -/
theorem kmalloc_sound_iff (m : ℕ → UInt8) (pages : π) (cs : List Call) :
    BreakInside (kheapInit L (unused m pages)) ∧
      (Along (Requests L) (Sound L) ⟨kheapInit L (unused m pages), []⟩ cs ↔
        Along (Requests L) NoWrap ⟨kheapInit L (unused m pages), []⟩ cs) ∧
      ∀ x, Run (Requests L) ⟨kheapInit L (unused m pages), []⟩ cs x →
        Along (Requests L) NoWrap ⟨kheapInit L (unused m pages), []⟩ cs →
        ∀ c, Promised x c → (∀ size, c = .kmalloc size → Unwrapped x.heap size) →
          ∃ y, exec L x c = some y := by
  have hinv := inv_kheapInit L m pages
  generalize kheapInit L (unused m pages) = h at *
  refine ⟨?_, along_iff (I := Inv) (H := fun _ _ _ => True) ?_ ?_ hinv (along_true _ _), ?_⟩
  · obtain ⟨bs, hl, _⟩ := hinv
    exact hl.breakInside
  · exact fun x c y hI hs _ => ⟨noWrap_of_sound hI, sound_of_noWrap hI hs⟩
  · exact fun x c y hI hs _ hfit => hI.requests hs hfit
  · intro x hrun halong c hp hfit
    have hlast := hrun.invariant_along (fun s c t hI hs hq => Inv.requests hI hs hq) halong hinv
    obtain ⟨y, hy, _⟩ := hlast.promised L hp hfit
    exact ⟨y, hy⟩

/-- A request of 0xF0000000 bytes on the fresh heap. -/
theorem kmalloc_lowers_break :
    (∃ y, Run (Requests loggedPages) ⟨kheapInit loggedPages (unused (fun _ => 0) []), []⟩
        [.kmalloc 0xF0000000] y ∧
      y.outstanding = [(0xD0001014, 0xF0000000)] ∧ y.heap.currentBreak = 0xC0001014) ∧
      ¬ Along (Requests loggedPages) (Sound loggedPages)
        ⟨kheapInit loggedPages (unused (fun _ => 0) []), []⟩ [.kmalloc 0xF0000000] := by
  obtain ⟨bs, hl, _, _⟩ := kheapInit_layout loggedPages (fun _ => 0) []
  have hbrk : (kheapInit loggedPages (unused (fun _ => 0) [])).currentBreak = 0xD0001000 := by decide
  generalize kheapInit loggedPages (unused (fun _ => 0) []) = h at *
  obtain ⟨h', hmalloc, hbrk', _⟩ := hl.wraps loggedPages (by decide : 0xF0000000 ≠ 0) (by decide)
    (by rw [hbrk]; decide)
  rw [hbrk] at hmalloc hbrk'
  have hexec : exec loggedPages ⟨h, []⟩ (.kmalloc 0xF0000000) =
      some ⟨h', [(0xD0001014, 0xF0000000)]⟩ := by
    rw [exec, hmalloc]
    rfl
  have hstep : Requests loggedPages ⟨h, []⟩ (.kmalloc 0xF0000000) ⟨h', [(0xD0001014, 0xF0000000)]⟩ :=
    ⟨(by decide : 0xF0000000 < 2 ^ 32), hexec⟩
  refine ⟨⟨_, Run.single hstep, rfl, hbrk'⟩, fun halong => ?_⟩
  have hlow := (halong _ hstep).1.breakInside.1
  simp only [hbrk'] at hlow
  revert hlow
  decide

end Veni.Memory.Heap
