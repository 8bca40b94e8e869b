import Veni.Lib.OracleRuns
import Veni.Libc.Malloc
import Veni.Memory.HeapContents

/-! `malloc` and `free` of the kernel library over the kernel heap, against the table of buffers that
stands for them. -/

namespace Veni.Memory.Heap

open Veni.Lib Veni.Lib.ByteMemory Veni.Lib.Blocks Veni.Lib.OracleRuns Veni.Libc

variable {π : Type*} (L : PageLayer π)

def malloc (h : Heap π) (size : ℕ) : Option (ℕ × Heap π) := kmalloc L h size

def free (h : Heap π) (ptr : ℕ) : Option (Heap π) := kfree h ptr

/-- What a user of `malloc` asks for; a buffer is named by the number of the call that returned it. -/
inductive Request
  | malloc (size : ℕ)
  | free (buffer : ℕ)
  | store (buffer offset : ℕ) (bytes : List UInt8)
  | load (buffer offset count : ℕ)

inductive Reply
  | pointer (found : Bool)
  | done
  | bytes (bs : List UInt8)

/-- A request to the table; `none` is a use of a buffer that is not there, or past its end. -/
def serveTable (h : Malloc) : Request → Option (Reply × Malloc)
  | .malloc size => some (.pointer (h.malloc size).1.isSome, (h.malloc size).2)
  | .free k => (h.buffers k).map fun _ => (.done, h.free k)
  | .store k offset bs => (h.store (some k) offset bs).map fun h => (.done, h)
  | .load k offset n => (h.load (some k) offset n).map fun bs => (.bytes bs, h)

structure Program (π : Type*) where
  heap : Heap π
  pointers : List ℕ

def Program.pointer (x : Program π) (k : ℕ) : ℕ := x.pointers.getD k 0

def serveHeap (x : Program π) : Request → Option (Reply × Program π)
  | .malloc size =>
    (malloc L x.heap size).map fun r => (.pointer (r.1 ≠ 0), ⟨r.2, x.pointers ++ [r.1]⟩)
  | .free k => (free x.heap (x.pointer k)).map fun h => (.done, ⟨h, x.pointers⟩)
  | .store k offset bs =>
    some (.done,
      ⟨{ x.heap with memory := Malloc.patch x.heap.memory (x.pointer k + offset) bs }, x.pointers⟩)
  | .load k offset n =>
    some (.bytes ((List.range n).map fun i => x.heap.memory (x.pointer k + offset + i)), x)

/-- The buffers of the table lie in the heap, apart from each other and with the same bytes. -/
structure Represents (x : Program π) (h : Malloc) : Prop where
  bytes : ∀ k b, h.buffers k = some b → ∀ i < b.size, x.heap.memory (x.pointer k + i) = b.bytes i
  inside : ∀ k b, h.buffers k = some b →
    heapStart < x.pointer k ∧ x.pointer k + b.size ≤ x.heap.currentBreak
  disjoint : ∀ j k b c, j ≠ k → h.buffers j = some b → h.buffers k = some c →
    x.pointer j + b.size ≤ x.pointer k ∨ x.pointer k + c.size ≤ x.pointer j

/-- The client uses buffers that are there, within their size, whatever `malloc` returns. -/
def Careful (client : List Reply → Request) : Prop :=
  ∀ outcome n, (play serveTable client n ⟨outcome, 0, fun _ => none⟩).isSome

structure Matches (x : Program π) (h : Malloc) (bs : List Block) (outs : List (ℕ × ℕ)) : Prop where
  layout : Layout x.heap bs
  ledger : Ledger bs outs
  count : x.pointers.length = h.calls
  fresh : ∀ k, h.calls ≤ k → h.buffers k = none
  live : ∀ k b, h.buffers k = some b → (x.pointer k, b.size) ∈ outs
  apart : ∀ j k b c, h.buffers j = some b → h.buffers k = some c → x.pointer j = x.pointer k → j = k
  bytes : ∀ k b, h.buffers k = some b → ∀ i < b.size, x.heap.memory (x.pointer k + i) = b.bytes i

lemma Ledger.inPayload {bs : List Block} {outs : List (ℕ × ℕ)} (h : Ledger bs outs) {p size i : ℕ}
    (hp : (p, size) ∈ outs) (hi : i < size) : ∃ x b, InPayload bs x b (p + i) := by
  obtain ⟨x, b, hpx, hx, hused, hroom⟩ := h.inside _ hp
  simp only at hpx hroom
  exact ⟨x, b, hx, hused, by omega, by omega⟩

section Serving

variable {x : Program π} {h : Malloc} {bs : List Block} {outs : List (ℕ × ℕ)}

lemma Matches.represents (hm : Matches x h bs outs) : Represents x h where
  bytes := hm.bytes
  inside k b hb := by
    obtain ⟨y, c, hpy, hy, _, hroom⟩ := hm.ledger.inside _ (hm.live k b hb)
    have hbounds := hy.bounds
    have hbrk := hm.layout.brk
    simp only [sizeofBlockHeader] at hpy hroom
    omega
  disjoint j k b c hne hb hc := by
    have hpq : (x.pointer j, b.size) ≠ (x.pointer k, c.size) := by
      intro he
      exact hne (hm.apart j k b c hb hc (Prod.mk.inj he).1)
    have hsymm : Std.Symm fun p q : ℕ × ℕ => p.1 + p.2 ≤ q.1 ∨ q.1 + q.2 ≤ p.1 :=
      ⟨fun _ _ hd => hd.symm⟩
    have hpays : Payloads ⟨x.heap, outs⟩ _ := hm.ledger.payloads hm.layout
    exact hpays.disjoint.forall (hm.live j b hb) (hm.live k c hc) hpq

lemma pointer_append {h' : Heap π} {p k : ℕ} (hk : k < x.pointers.length) :
    Program.pointer ⟨h', x.pointers ++ [p]⟩ k = x.pointer k := by
  rw [Program.pointer, Program.pointer, List.getD_append _ _ _ _ hk]

lemma pointer_last {h' : Heap π} {p : ℕ} :
    Program.pointer ⟨h', x.pointers ++ [p]⟩ x.pointers.length = p := by
  simp [Program.pointer, List.getD_eq_getElem?_getD]

lemma Matches.lt (hm : Matches x h bs outs) {k : ℕ} {b : Buffer} (hb : h.buffers k = some b) :
    k < h.calls := by
  by_contra hge
  rw [hm.fresh k (Nat.le_of_not_lt hge)] at hb
  cases hb

def foundBy (r : ℕ × Heap π) : Option (ℕ → UInt8) :=
  if r.1 = 0 then none else some fun i => r.2.memory (r.1 + i)

lemma Matches.malloc (hm : Matches x h bs outs) {size : ℕ} (hsize : size ≤ heapMaxSize) :
    ∃ r, Heap.malloc L x.heap size = some r ∧
      ((h.outcome h.calls = foundBy r →
        (h.malloc size).1.isSome = decide (r.1 ≠ 0) ∧
          ∃ cs outs', Matches ⟨r.2, x.pointers ++ [r.1]⟩ (h.malloc size).2 cs outs')) := by
  obtain ⟨y, hy, cs, hl, hledger, _⟩ :=
    (show Layout (⟨x.heap, outs⟩ : Session π).heap bs from hm.layout).request L hm.ledger
      (hm.layout.unwrapped hsize)
  obtain ⟨r, hr, rfl⟩ := Option.map_eq_some_iff.mp hy
  refine ⟨r, hr, fun hout => ?_⟩
  have hkept : ∀ k b, h.buffers k = some b → ∀ i < b.size,
      r.2.memory (x.pointer k + i) = b.bytes i := by
    intro k b hb i hi
    obtain ⟨z, c, hz⟩ := hm.ledger.inPayload (hm.live k b hb) hi
    rw [kmalloc_beside L hm.layout (hm.layout.unwrapped hsize) hz hr]
    exact hm.bytes k b hb i hi
  have hold : ∀ k b, h.buffers k = some b →
      Program.pointer ⟨r.2, x.pointers ++ [r.1]⟩ k = x.pointer k := by
    intro k b hb
    apply pointer_append
    rw [hm.count]
    exact hm.lt hb
  rcases h.malloc_cases size with ⟨hnone, he⟩ | ⟨bytes, hsome, he⟩
  · have hzero : r.1 = 0 := by
      rw [hnone, foundBy] at hout
      by_contra hne
      rw [if_neg hne] at hout
      cases hout
    rw [he]
    refine ⟨by simp [hzero], cs, _, hl, hledger, ?_, ?_, ?_, ?_, ?_⟩
    · simp [hm.count]
    · intro k hk
      exact hm.fresh k (Nat.le_of_succ_le hk)
    · intro k b hb
      rw [hold k b hb, if_pos hzero]
      exact hm.live k b hb
    · intro j k b c hb hc hp
      rw [hold j b hb, hold k c hc] at hp
      exact hm.apart j k b c hb hc hp
    · intro k b hb
      rw [hold k b hb]
      exact hkept k b hb
  · have hne : r.1 ≠ 0 := by
      intro hzero
      rw [hsome, foundBy, if_pos hzero] at hout
      cases hout
    rw [hsome, foundBy, if_neg hne] at hout
    cases hout
    rw [he]
    simp only [if_neg hne] at hledger
    have hnew : Program.pointer ⟨r.2, x.pointers ++ [r.1]⟩ h.calls = r.1 := by
      rw [← hm.count]
      exact pointer_last
    have hother : ∀ k b, h.buffers k = some b → x.pointer k ≠ r.1 := by
      intro k b hb hp
      have hnodup := hledger.nodup
      rw [List.map_cons, List.nodup_cons] at hnodup
      exact hnodup.1 (List.mem_map.mpr ⟨_, hm.live k b hb, hp⟩)
    have hcases : ∀ k b, Function.update h.buffers h.calls
        (some ⟨size, fun i => r.2.memory (r.1 + i)⟩) k = some b →
        k = h.calls ∧ b = ⟨size, fun i => r.2.memory (r.1 + i)⟩ ∨ h.buffers k = some b := by
      intro k b hb
      by_cases hk : k = h.calls
      · subst hk
        rw [Function.update_self] at hb
        exact .inl ⟨rfl, (Option.some.inj hb).symm⟩
      · rw [Function.update_of_ne hk] at hb
        exact .inr hb
    refine ⟨by simp [hne], cs, _, hl, hledger, ?_, ?_, ?_, ?_, ?_⟩
    · simp [hm.count]
    · intro k hk
      have hk' : k ≠ h.calls := fun he => Nat.not_succ_le_self _ (he ▸ hk)
      simp only [Function.update_of_ne hk']
      exact hm.fresh k (Nat.le_of_succ_le hk)
    · intro k b hb
      rcases hcases k b hb with ⟨rfl, rfl⟩ | hb
      · rw [hnew]
        exact List.mem_cons_self
      · rw [hold k b hb]
        exact List.mem_cons_of_mem _ (hm.live k b hb)
    · intro j k b c hb hc hp
      rcases hcases j b hb with ⟨rfl, rfl⟩ | hb
      · rcases hcases k c hc with ⟨rfl, rfl⟩ | hc
        · rfl
        · rw [hnew, hold k c hc] at hp
          exact absurd hp.symm (hother k c hc)
      · rcases hcases k c hc with ⟨rfl, rfl⟩ | hc
        · rw [hnew, hold j b hb] at hp
          exact absurd hp (hother j b hb)
        · rw [hold j b hb, hold k c hc] at hp
          exact hm.apart j k b c hb hc hp
    · intro k b hb
      rcases hcases k b hb with ⟨rfl, rfl⟩ | hb
      · rw [hnew]
        exact fun i _ => rfl
      · rw [hold k b hb]
        exact hkept k b hb

lemma Matches.free (hm : Matches x h bs outs) {k : ℕ} {b : Buffer} (hb : h.buffers k = some b) :
    ∃ g, Heap.free x.heap (x.pointer k) = some g ∧
      ∃ cs outs', Matches ⟨g, x.pointers⟩ (h.free k) cs outs' := by
  have hlive := hm.live k b hb
  obtain ⟨z, d, hpz, hz, _, _⟩ := hm.ledger.inside _ hlive
  obtain ⟨pre, post, rfl, rfl⟩ := blockAt_iff.mp hz
  obtain ⟨g, hg, hl⟩ := kfree_spec hm.layout
  simp only at hpz
  have hcases : ∀ j c, (h.free k).buffers j = some c → j ≠ k ∧ h.buffers j = some c := by
    intro j c hc
    by_cases hj : j = k
    · subst hj
      simp [Malloc.free] at hc
    · simp only [Malloc.free, Function.update_of_ne hj] at hc
      exact ⟨hj, hc⟩
  refine ⟨g, by rw [hpz]; exact hg, _, _, hl, hm.ledger.kfree hm.layout.sized, hm.count, ?_, ?_, ?_, ?_⟩
  · intro j hj
    by_cases hjk : j = k
    · subst hjk
      simp [Malloc.free]
    · simp only [Malloc.free, Function.update_of_ne hjk]
      exact hm.fresh j hj
  · intro j c hc
    obtain ⟨hj, hc⟩ := hcases j c hc
    refine List.mem_filter.mpr ⟨hm.live j c hc, ?_⟩
    exact decide_eq_true fun hp => hj (hm.apart j k c b hc hb (hp.trans hpz.symm))
  · intro i j c d hc hd hp
    exact hm.apart i j c d (hcases i c hc).2 (hcases j d hd).2 hp
  · intro j c hc i hi
    obtain ⟨_, hc⟩ := hcases j c hc
    obtain ⟨w, e, hw⟩ := hm.ledger.inPayload (hm.live j c hc) hi
    exact (kfree_beside hm.layout hw hg).trans (hm.bytes j c hc i hi)

lemma Matches.store (hm : Matches x h bs outs) {k offset : ℕ} {us : List UInt8} {h' : Malloc}
    (hst : h.store (some k) offset us = some h') :
    Matches
      ⟨{ x.heap with memory := Malloc.patch x.heap.memory (x.pointer k + offset) us }, x.pointers⟩
      h' bs outs := by
  rcases Malloc.store_eq_some hst with ⟨rfl, rfl⟩ | ⟨q, b, hq, hb, hle, rfl⟩
  · rw [Malloc.patch_nil]
    exact hm
  · cases hq
    have hlive := hm.live k b hb
    have hcases : ∀ j c, Function.update h.buffers k
        (some ⟨b.size, Malloc.patch b.bytes offset us⟩) j = some c →
        (j = k ∧ c = ⟨b.size, Malloc.patch b.bytes offset us⟩) ∨ j ≠ k ∧ h.buffers j = some c := by
      intro j c hc
      by_cases hj : j = k
      · subst hj
        rw [Function.update_self] at hc
        exact .inl ⟨rfl, (Option.some.inj hc).symm⟩
      · rw [Function.update_of_ne hj] at hc
        exact .inr ⟨hj, hc⟩
    have hallowed : Allowed ⟨x.heap, outs⟩
        (.write (Malloc.patch x.heap.memory (x.pointer k + offset) us)) := by
      intro a _ _ hne
      refine ⟨_, hlive, ?_, ?_⟩
      · by_contra hlt
        exact hne (Malloc.patch_of_lt _ _ (by simp only at hlt; omega))
      · by_contra hge
        exact hne (Malloc.patch_of_le _ (by simp only at hge; omega))
    have hledger : Ledger bs (⟨x.heap, outs⟩ : Session π).outstanding := hm.ledger
    refine ⟨hledger.write hm.layout hallowed, hm.ledger, hm.count, ?_, ?_, ?_, ?_⟩
    · intro j hj
      have hjk : j ≠ k := by
        rintro rfl
        rw [hm.fresh j hj] at hb
        cases hb
      simp only [Function.update_of_ne hjk]
      exact hm.fresh j hj
    · intro j c hc
      rcases hcases j c hc with ⟨rfl, rfl⟩ | ⟨_, hc⟩
      · exact hlive
      · exact hm.live j c hc
    · intro i j c d hc hd hp
      rcases hcases i c hc with ⟨rfl, rfl⟩ | ⟨_, hi⟩
      · rcases hcases j d hd with ⟨rfl, rfl⟩ | ⟨_, hj⟩
        · rfl
        · exact hm.apart i j b d hb hj hp
      · rcases hcases j d hd with ⟨rfl, rfl⟩ | ⟨_, hj⟩
        · exact hm.apart i j c b hi hb hp
        · exact hm.apart i j c d hi hj hp
    · intro j c hc i hi
      have hpointer : Program.pointer ⟨{ x.heap with
          memory := Malloc.patch x.heap.memory (x.pointer k + offset) us }, x.pointers⟩ j =
            x.pointer j := rfl
      rw [hpointer]
      simp only
      rcases hcases j c hc with ⟨rfl, rfl⟩ | ⟨hj, hc⟩
      · have hold := hm.bytes j b hb i hi
        by_cases hlo : offset ≤ i
        · have hsub : x.pointer j + i - (x.pointer j + offset) = i - offset := by omega
          simp only [Malloc.patch, hlo, if_true, Nat.add_le_add_iff_left, hsub, hold]
        · simp only [Malloc.patch_of_lt x.heap.memory us
            (Nat.add_lt_add_left (Nat.lt_of_not_le hlo) (x.pointer j)),
            Malloc.patch_of_lt b.bytes us (Nat.lt_of_not_le hlo), hold]
      · rw [← hm.bytes j c hc i hi]
        rcases hm.represents.disjoint j k c b hj hc hb with hd | hd
        · exact Malloc.patch_of_lt _ _ (by omega)
        · exact Malloc.patch_of_le _ (by omega)

lemma Matches.load (hm : Matches x h bs outs) {k offset n : ℕ} {us : List UInt8}
    (hld : h.load (some k) offset n = some us) :
    us = (List.range n).map fun i => x.heap.memory (x.pointer k + offset + i) := by
  unfold Malloc.load at hld
  split at hld
  · next hn =>
    cases hld
    simp [hn]
  · obtain ⟨b, hb, hres⟩ := Option.bind_eq_some_iff.mp hld
    split at hres
    · next hle =>
      cases hres
      apply List.map_congr_left
      intro i hi
      rw [Nat.add_assoc, hm.bytes k b hb]
      have hlt := List.mem_range.mp hi
      omega
    · cases hres

end Serving

def consult (outcome : ℕ → Option (ℕ → UInt8)) (s : ℕ × (ℕ → Option Buffer)) (q : Request) :
    Option (Reply × ℕ × (ℕ → Option Buffer)) :=
  (serveTable ⟨outcome, s.1, s.2⟩ q).map fun r => (r.1, r.2.calls, r.2.buffers)

lemma serveTable_outcome {h h' : Malloc} {q : Request} {a : Reply}
    (hs : serveTable h q = some (a, h')) : h'.outcome = h.outcome := by
  cases q with
  | malloc size =>
    obtain ⟨_, rfl⟩ := Prod.mk.inj (Option.some.inj hs)
    rcases h.malloc_cases size with ⟨_, he⟩ | ⟨bytes, _, he⟩
    all_goals rw [he]
  | free k =>
    obtain ⟨b, _, he⟩ := Option.map_eq_some_iff.mp hs
    cases he
    rfl
  | store k offset us =>
    obtain ⟨g, hg, he⟩ := Option.map_eq_some_iff.mp hs
    cases he
    rcases Malloc.store_eq_some hg with ⟨_, rfl⟩ | ⟨_, _, _, _, _, rfl⟩
    all_goals rfl
  | load k offset n =>
    obtain ⟨us, _, he⟩ := Option.map_eq_some_iff.mp hs
    cases he
    rfl

lemma play_outcome {client : List Reply → Request} {n : ℕ} {h h' : Malloc} {rs : List Reply}
    (hp : play serveTable client n h = some (rs, h')) : h'.outcome = h.outcome :=
  play_invariant (I := fun g => g.outcome = h.outcome)
    (fun _ _ _ _ hg hs => (serveTable_outcome hs).trans hg) rfl hp

lemma play_consult (client : List Reply → Request) (n : ℕ) (h : Malloc) :
    play (consult h.outcome) client n (h.calls, h.buffers) =
      (play serveTable client n h).map fun r => (r.1, r.2.calls, r.2.buffers) := by
  induction n with
  | zero => rfl
  | succ n ih =>
    rw [play, play, ih]
    cases hp : play serveTable client n h with
    | none => rfl
    | some r =>
      have hself : (⟨h.outcome, r.2.calls, r.2.buffers⟩ : Malloc) = r.2 := by
        rw [← play_outcome hp]
      simp only [Option.map_some, Option.bind_some, consult, hself, Option.map_map]
      rfl

lemma consult_malloc (o : ℕ → Option (ℕ → UInt8)) (s : ℕ × (ℕ → Option Buffer)) (size : ℕ) :
    consult o s (.malloc size) = some (.pointer (o s.1).isSome, s.1 + 1,
      match o s.1 with
      | none => s.2
      | some bytes => Function.update s.2 s.1 (some ⟨size, bytes⟩)) := by
  simp only [consult, serveTable, Malloc.malloc]
  cases o s.1 <;> rfl

lemma consult_store (o o' : ℕ → Option (ℕ → UInt8)) (s : ℕ × (ℕ → Option Buffer)) (k offset : ℕ)
    (us : List UInt8) : consult o' s (.store k offset us) = consult o s (.store k offset us) := by
  cases us with
  | nil => rfl
  | cons u us =>
    simp only [consult, serveTable, Malloc.store, reduceCtorEq, if_false, Option.bind_some]
    cases s.2 k with
    | none => rfl
    | some b =>
      simp only [Option.bind_some]
      split <;> rfl

lemma consult_calls {o : ℕ → Option (ℕ → UInt8)} {s t : ℕ × (ℕ → Option Buffer)} {q : Request}
    {a : Reply} (hs : consult o s q = some (a, t)) : s.1 ≤ t.1 := by
  cases q with
  | malloc size =>
    rw [consult_malloc] at hs
    cases hs
    exact Nat.le_succ s.1
  | free k =>
    obtain ⟨r, hr, he⟩ := Option.map_eq_some_iff.mp hs
    cases he
    obtain ⟨b, _, rfl⟩ := Option.map_eq_some_iff.mp hr
    exact Nat.le_refl s.1
  | store k offset us =>
    obtain ⟨r, hr, he⟩ := Option.map_eq_some_iff.mp hs
    cases he
    obtain ⟨g, hg, rfl⟩ := Option.map_eq_some_iff.mp hr
    rcases Malloc.store_eq_some hg with ⟨_, rfl⟩ | ⟨_, _, _, _, _, rfl⟩
    all_goals exact Nat.le_refl s.1
  | load k offset n =>
    obtain ⟨r, hr, he⟩ := Option.map_eq_some_iff.mp hs
    cases he
    obtain ⟨us, _, rfl⟩ := Option.map_eq_some_iff.mp hr
    exact Nat.le_refl s.1

lemma consult_inOrder : InOrder consult Prod.fst where
  later _ _ _ _ _ hs := consult_calls hs
  reads o o' s q a t hs hsame := by
    cases q with
    | malloc size =>
      have hnext : t.1 = s.1 + 1 := by
        rw [consult_malloc] at hs
        cases hs
        rfl
      have hat := hsame s.1 (Nat.le_refl _) (hnext ▸ Nat.lt_succ_self s.1)
      rw [consult_malloc] at hs ⊢
      rw [hat]
      exact hs
    | free k =>
      rw [← hs]
      simp only [consult, serveTable, Option.map_map]
      rfl
    | store k offset us => exact (consult_store o o' s k offset us).trans hs
    | load k offset n =>
      rw [← hs]
      simp only [consult, serveTable, Option.map_map]
      rfl

def Agrees (x : Program π) (s : ℕ × (ℕ → Option Buffer)) : Prop :=
  ∃ bs outs, ∀ o, Matches x ⟨o, s.1, s.2⟩ bs outs

lemma Matches.agrees {x : Program π} {h : Malloc} {bs : List Block} {outs : List (ℕ × ℕ)}
    (hm : Matches x h bs outs) : Agrees x (h.calls, h.buffers) :=
  ⟨bs, outs, fun _ =>
    ⟨hm.layout, hm.ledger, hm.count, hm.fresh, hm.live, hm.apart, hm.bytes⟩⟩

lemma Agrees.serve {x : Program π} {s : ℕ × (ℕ → Option Buffer)} (hx : Agrees x s) {q : Request}
    (hq : ∀ size, q = .malloc size → size ≤ heapMaxSize) (o : ℕ → Option (ℕ → UInt8)) :
    ∃ o', (∀ k < s.1, o' k = o k) ∧ ∀ a t, consult o' s q = some (a, t) →
      ∃ y, serveHeap L x q = some (a, y) ∧ Agrees y t := by
  obtain ⟨bs, outs, hm⟩ := hx
  cases q with
  | malloc size =>
    obtain ⟨r, hr, _⟩ := (hm o).malloc L (hq size rfl)
    refine ⟨Function.update o s.1 (foundBy r), fun k hk => ?_, fun a t ht => ?_⟩
    · exact Function.update_of_ne (Nat.ne_of_lt hk) _ _
    · obtain ⟨r', hr', hspec⟩ := (hm (Function.update o s.1 (foundBy r))).malloc L (hq size rfl)
      rw [hr] at hr'
      cases hr'
      obtain ⟨hnull, cs, outs', hmatch⟩ := hspec (Function.update_self _ _ _)
      obtain ⟨g, hg, he⟩ := Option.map_eq_some_iff.mp ht
      cases he
      cases hg
      refine ⟨_, ?_, hmatch.agrees⟩
      rw [serveHeap, hr, hnull]
      rfl
  | free k =>
    refine ⟨o, fun _ _ => rfl, fun a t ht => ?_⟩
    obtain ⟨g, hg, he⟩ := Option.map_eq_some_iff.mp ht
    cases he
    obtain ⟨c, hc, rfl⟩ := Option.map_eq_some_iff.mp hg
    obtain ⟨g, hfree, cs, outs', hmatch⟩ := (hm o).free hc
    refine ⟨_, ?_, hmatch.agrees⟩
    rw [serveHeap, hfree]
    rfl
  | store k offset us =>
    refine ⟨o, fun _ _ => rfl, fun a t ht => ?_⟩
    obtain ⟨g, hg, he⟩ := Option.map_eq_some_iff.mp ht
    cases he
    obtain ⟨g, hst, rfl⟩ := Option.map_eq_some_iff.mp hg
    exact ⟨_, rfl, ((hm o).store hst).agrees⟩
  | load k offset n =>
    refine ⟨o, fun _ _ => rfl, fun a t ht => ?_⟩
    obtain ⟨g, hg, he⟩ := Option.map_eq_some_iff.mp ht
    cases he
    obtain ⟨us, hld, rfl⟩ := Option.map_eq_some_iff.mp hg
    refine ⟨_, ?_, (hm o).agrees⟩
    rw [serveHeap, (hm o).load hld]

lemma agrees_kheapInit (m : ℕ → UInt8) (pages : π) :
    Agrees ⟨kheapInit L (unused m pages), []⟩ (0, fun _ => none) := by
  obtain ⟨bs, hl, hledger, _⟩ := kheapInit_layout L m pages
  generalize kheapInit L (unused m pages) = h at hl
  refine ⟨bs, [], fun o => ⟨hl, hledger, rfl, fun _ _ => rfl, ?_, ?_, ?_⟩⟩
  · intro k b hb
    cases hb
  · intro j k b c hb
    cases hb
  · intro k b hb
    cases hb

/-- A client that is careful with `malloc` runs on the kernel heap as on a table of buffers: the heap
is one of the allocators the table stands for. -/
theorem heap_refines_malloc (m : ℕ → UInt8) (pages : π) (client : List Reply → Request)
    (hcareful : Careful client) (hsize : ∀ rs size, client rs = .malloc size → size ≤ heapMaxSize)
    (n : ℕ) :
    ∃ outcome rs h x, play serveTable client n ⟨outcome, 0, fun _ => none⟩ = some (rs, h) ∧
      play (serveHeap L) client n ⟨kheapInit L (unused m pages), []⟩ = some (rs, x) ∧
        Represents x h := by
  obtain ⟨o, ho⟩ := consult_inOrder.simulates (P := fun q => ∀ size, q = .malloc size → _)
    (fun x s q hx hq o => hx.serve L hq o) hsize (fun _ => none) (agrees_kheapInit L m pages) n
  obtain ⟨⟨rs, h⟩, hrun⟩ := Option.isSome_iff_exists.mp (hcareful o n)
  have hconsult := play_consult client n ⟨o, 0, fun _ => none⟩
  rw [hrun] at hconsult
  obtain ⟨x, hx, bs, outs, hm⟩ := ho rs (h.calls, h.buffers) hconsult
  exact ⟨o, rs, h, x, hrun, hx, (hm h.outcome).represents⟩

def noteClient : List Reply → Request
  | [] => .malloc 24
  | [.pointer true] => .store 0 8 [7]
  | [.done, .pointer true] => .load 0 8 1
  | _ => .load 0 0 0

inductive NoteState : List Reply → Malloc → Prop
  | start (h : Malloc) : NoteState [] h
  | got (h : Malloc) {bytes : ℕ → UInt8} (hb : h.buffers 0 = some ⟨24, bytes⟩) :
      NoteState [.pointer true] h
  | kept (h : Malloc) {bytes : ℕ → UInt8} (hb : h.buffers 0 = some ⟨24, bytes⟩) :
      NoteState [.done, .pointer true] h
  | past (h : Malloc) {rs : List Reply} (hrs : ∀ ps, noteClient (ps ++ rs) = .load 0 0 0) :
      NoteState rs h

lemma noteClient_past {rs : List Reply} (h : 3 ≤ rs.length) : noteClient rs = .load 0 0 0 := by
  unfold noteClient
  split <;> simp at h ⊢

lemma NoteState.serve {rs : List Reply} {h : Malloc} (hs : NoteState rs h)
    (hstart : rs = [] → h.calls = 0) :
    ∃ a h', serveTable h (noteClient rs) = some (a, h') ∧ NoteState (a :: rs) h' := by
  cases hs with
  | start =>
    refine ⟨_, _, rfl, ?_⟩
    rcases h.malloc_cases 24 with ⟨_, he⟩ | ⟨bytes, _, he⟩
    · rw [he]
      refine .past _ fun ps => ?_
      unfold noteClient
      split <;> simp_all [List.append_eq_cons_iff, List.cons_eq_append_iff]
    · rw [he]
      apply NoteState.got
      simp only [hstart rfl]
      exact Function.update_self 0 _ h.buffers
  | got _ hb =>
    have hst := Malloc.store_of_le (h := h) hb (show 8 + [(7 : UInt8)].length ≤ 24 by decide)
    have hserve : serveTable h (noteClient [.pointer true]) = some (.done, _) :=
      congrArg (Option.map fun h => (Reply.done, h)) hst
    exact ⟨.done, _, hserve, .kept _ (Function.update_self 0 _ h.buffers)⟩
  | kept _ hb =>
    have hld := Malloc.load_of_le (h := h) (p := some 0) hb (show 8 + 1 ≤ 24 by decide)
    have hserve : serveTable h (noteClient [.done, .pointer true]) = some (.bytes _, h) :=
      congrArg (Option.map fun us => (Reply.bytes us, h)) hld
    refine ⟨_, h, hserve, .past h fun ps => noteClient_past ?_⟩
    simp
  | past _ hrs =>
    refine ⟨.bytes [], h, ?_, .past h fun ps => ?_⟩
    · have hnow : noteClient rs = .load 0 0 0 := hrs []
      rw [hnow]
      rfl
    · have hnext := hrs (ps ++ [.bytes []])
      simpa using hnext

lemma noteClient_careful : Careful noteClient := by
  intro outcome n
  have hrun : ∃ rs h, play serveTable noteClient n ⟨outcome, 0, fun _ => none⟩ = some (rs, h) ∧
      NoteState rs h ∧ (rs = [] → h.calls = 0) := by
    induction n with
    | zero => exact ⟨_, _, rfl, .start _, fun _ => rfl⟩
    | succ n ih =>
      obtain ⟨rs, h, hp, hs, hstart⟩ := ih
      obtain ⟨a, h', ha, hs'⟩ := hs.serve hstart
      refine ⟨_, _, ?_, hs', fun he => by cases he⟩
      rw [play_succ hp, ha]
      rfl
  obtain ⟨rs, h, hp, _⟩ := hrun
  rw [hp]
  rfl

lemma noteClient_size : ∀ rs size, noteClient rs = .malloc size → size ≤ heapMaxSize := by
  intro rs size h
  have hsize : size = 24 := by
    unfold noteClient at h
    split at h
    · cases h
      rfl
    all_goals cases h
  rw [hsize]
  decide

theorem heap_refines_malloc_note :
    ∃ outcome rs h x, play serveTable noteClient 3 ⟨outcome, 0, fun _ => none⟩ = some (rs, h) ∧
      play (serveHeap loggedPages) noteClient 3
          ⟨kheapInit loggedPages (unused (fun _ => 0) []), []⟩ = some (rs, x) ∧
        Represents x h :=
  heap_refines_malloc loggedPages _ _ noteClient noteClient_careful noteClient_size 3

end Veni.Memory.Heap
