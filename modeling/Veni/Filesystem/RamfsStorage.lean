import Veni.Filesystem.RamfsInvariant

/-! The contents of files: every file has a buffer of its own, and one write changes one file. -/

namespace Veni.Filesystem.Ramfs

open Veni.Libc

def byteAt (r : Ramfs) (i k : ℕ) : UInt8 :=
  (((r.inodes i).data.bind r.heap.buffers).map fun b => b.bytes k).getD 0

def contents (r : Ramfs) (i : ℕ) : List UInt8 := (List.range (r.inodes i).size).map (byteAt r i)

def overwrite (c : List UInt8) (offset : ℕ) (buf : List UInt8) : List UInt8 :=
  (c ++ List.replicate (offset - c.length) 0).take offset ++ buf ++ c.drop (offset + buf.length)

structure Storage (r : Ramfs) : Prop where
  empty : ∀ i, (r.inodes i).used = true → (r.inodes i).data = none → (r.inodes i).capacity = 0
  buffer : ∀ i p, (r.inodes i).used = true → (r.inodes i).data = some p →
    ∃ b, r.heap.buffers p = some b ∧ b.size = (r.inodes i).capacity
  size_le : ∀ i, (r.inodes i).used = true → (r.inodes i).size ≤ (r.inodes i).capacity
  capacity_lt : ∀ i, (r.inodes i).used = true → (r.inodes i).capacity < 2 ^ 32
  apart : ∀ i j p, (r.inodes i).used = true → (r.inodes j).used = true →
    (r.inodes i).data = some p → (r.inodes j).data = some p → i = j
  fresh : ∀ p, r.heap.calls ≤ p → r.heap.buffers p = none

structure Keeps (r r' : Ramfs) : Prop where
  outcome : r'.heap.outcome = r.heap.outcome
  calls : r.heap.calls ≤ r'.heap.calls
  foreign : ∀ p < r.heap.calls, (∀ i, (r.inodes i).used = true → (r.inodes i).data ≠ some p) →
    r'.heap.buffers p = r.heap.buffers p
  data : ∀ i p, (r'.inodes i).used = true → (r'.inodes i).data = some p →
    ((r.inodes i).used = true ∧ (r.inodes i).data = some p) ∨ r.heap.calls ≤ p

lemma Keeps.refl (r : Ramfs) : Keeps r r :=
  ⟨rfl, le_rfl, fun _ _ _ => rfl, fun _ _ hu hd => .inl ⟨hu, hd⟩⟩

lemma Keeps.trans {q r s : Ramfs} (h : Keeps q r) (g : Keeps r s) : Keeps q s where
  outcome := g.outcome.trans h.outcome
  calls := h.calls.trans g.calls
  foreign p hp hno := by
    refine (g.foreign p (hp.trans_le h.calls) fun i hu hd => ?_).trans (h.foreign p hp hno)
    rcases h.data i p hu hd with ⟨hu', hd'⟩ | hle
    · exact hno i hu' hd'
    · omega
  data i p hu hd := by
    rcases g.data i p hu hd with ⟨hu', hd'⟩ | hle
    · exact h.data i p hu' hd'
    · exact .inr (h.calls.trans hle)

section Contents

variable {r r' : Ramfs}

lemma length_contents (r : Ramfs) (i : ℕ) : (contents r i).length = (r.inodes i).size := by
  simp [contents]

lemma contents_congr {i : ℕ} (hsize : (r'.inodes i).size = (r.inodes i).size)
    (hbyte : ∀ k < (r.inodes i).size, byteAt r' i k = byteAt r i k) :
    contents r' i = contents r i := by
  rw [contents, contents, hsize]
  exact List.map_congr_left fun k hk => hbyte k (List.mem_range.mp hk)

lemma byteAt_of_buffer {i : ℕ} {b : Buffer} (hb : (r.inodes i).data.bind r.heap.buffers = some b)
    (k : ℕ) : byteAt r i k = b.bytes k := by
  rw [byteAt, hb]
  rfl

lemma length_overwrite (c : List UInt8) (offset : ℕ) (buf : List UInt8) :
    (overwrite c offset buf).length = max c.length (offset + buf.length) := by
  simp only [overwrite, List.length_append, List.length_take, List.length_replicate,
    List.length_drop]
  omega

lemma getElem_overwrite {bs buf : List UInt8} {offset k : ℕ}
    (hk : k < (overwrite bs offset buf).length) :
    (overwrite bs offset buf)[k] =
      if h : k < offset then (if h' : k < bs.length then bs[k] else 0)
      else if h' : k - offset < buf.length then buf[k - offset]
      else bs.get ⟨k, by rw [length_overwrite] at hk; omega⟩ := by
  rw [length_overwrite] at hk
  have hlen : ((bs ++ List.replicate (offset - bs.length) 0).take offset).length = offset := by
    simp only [List.length_take, List.length_append, List.length_replicate]
    omega
  simp only [overwrite]
  by_cases hlt : k < offset
  · rw [dif_pos hlt, List.getElem_append_left (by rw [List.length_append, hlen]; omega),
      List.getElem_append_left (by omega), List.getElem_take]
    by_cases hc : k < bs.length
    · rw [dif_pos hc, List.getElem_append_left hc]
    · rw [dif_neg hc, List.getElem_append_right (by omega), List.getElem_replicate]
  · rw [dif_neg hlt]
    by_cases hb : k - offset < buf.length
    · rw [dif_pos hb, List.getElem_append_left (by rw [List.length_append, hlen]; omega),
        List.getElem_append_right (by omega)]
      simp only [hlen]
    · rw [dif_neg hb, List.getElem_append_right (by rw [List.length_append, hlen]; omega),
        List.getElem_drop]
      congr 1
      rw [List.length_append, hlen]
      omega

end Contents

section Operations

variable {r : Ramfs} (hs : Storage r)

include hs

lemma Storage.bound {i : ℕ} (hu : (r.inodes i).used = true) : (r.inodes i).size < 2 ^ 32 :=
  (hs.size_le i hu).trans_lt (hs.capacity_lt i hu)

lemma Storage.read {i : ℕ} (h : r.isOpenFile i = true) (size offset : ℕ) :
    ramfsRead r i size offset = some (((contents r i).drop offset).take size,
      offset + (((contents r i).drop offset).take size).length) := by
  have hu : (r.inodes i).used = true := by
    simp only [isOpenFile, Bool.and_eq_true] at h
    exact h.1.2
  have hlen := length_contents r i
  simp only [ramfsRead, h, Bool.true_eq_false, false_or]
  split
  · next hend =>
    have hle : (r.inodes i).size ≤ offset := by
      rcases hend with hle | hnone
      · exact hle
      · have hcap := hs.empty i hu hnone
        have hsize := hs.size_le i hu
        omega
    rw [List.drop_eq_nil_of_le (by omega)]
    simp
  · next hmore =>
    obtain ⟨hlt, hdata⟩ := not_or.mp hmore
    obtain ⟨p, hp⟩ := Option.ne_none_iff_exists'.mp hdata
    obtain ⟨b, hb, hcap⟩ := hs.buffer i p hu hp
    have hbind : (r.inodes i).data.bind r.heap.buffers = some b := by rw [hp, Option.bind_some, hb]
    have hsize := hs.size_le i hu
    have hbound := hs.bound hu
    generalize hn : (if size > (r.inodes i).size - offset then (r.inodes i).size - offset else size) = n
    have hmin : n = min size ((r.inodes i).size - offset) := by
      rw [← hn]
      split <;> omega
    have hbytes : (List.range n).map (fun k => b.bytes (offset + k)) =
        ((contents r i).drop offset).take size := by
      refine List.ext_getElem ?_ fun k hk hk' => ?_
      · simp only [List.length_map, List.length_range, List.length_take, List.length_drop]
        omega
      · simp only [List.getElem_map, List.getElem_range, List.getElem_take, List.getElem_drop, contents,
          byteAt_of_buffer hbind]
    have hcount : (((contents r i).drop offset).take size).length = n := by
      simp only [List.length_take, List.length_drop]
      omega
    rw [Malloc.load_of_le hbind (by omega), Option.map_some, hbytes, hcount,
      Nat.mod_eq_of_lt (by omega)]

lemma Storage.lt_calls {i p : ℕ} (hu : (r.inodes i).used = true) (hp : (r.inodes i).data = some p) :
    p < r.heap.calls := by
  obtain ⟨b, hb, _⟩ := hs.buffer i p hu hp
  by_contra hle
  have hnone := hs.fresh p (by omega)
  rw [hb] at hnone
  cases hnone

end Operations

structure Grown (r r' : Ramfs) (i needed : ℕ) : Prop where
  storage : Storage r'
  keeps : Keeps r r'
  sameTree : SameTree r.inodes r'.inodes
  capacity : needed ≤ (r'.inodes i).capacity
  size : ∀ j, (r'.inodes j).size = (r.inodes j).size
  byte : ∀ j, (r.inodes j).used = true → ∀ k < (r.inodes j).size, byteAt r' j k = byteAt r j k

structure Moved (r r' : Ramfs) (i needed : ℕ) (bytes : ℕ → UInt8) : Prop where
  inodes : r'.inodes = Function.update r.inodes i
    { r.inodes i with data := some r.heap.calls, capacity := needed }
  outcome : r'.heap.outcome = r.heap.outcome
  calls : r'.heap.calls = r.heap.calls + 1
  buffer : r'.heap.buffers r.heap.calls = some ⟨needed, bytes⟩
  copied : ∀ k < (r.inodes i).size, bytes k = byteAt r i k
  old : ∀ p, p ≠ r.heap.calls → (r.inodes i).data ≠ some p → r'.heap.buffers p = r.heap.buffers p

section Moved

variable {r r' : Ramfs} {i needed : ℕ} {bytes : ℕ → UInt8} (h : Moved r r' i needed bytes)

include h

lemma Moved.self : r'.inodes i = { r.inodes i with data := some r.heap.calls, capacity := needed } := by
  simp [h.inodes]

lemma Moved.other {j : ℕ} (hj : j ≠ i) : r'.inodes j = r.inodes j := by
  simp [h.inodes, hj]

lemma Moved.used (j : ℕ) : (r'.inodes j).used = (r.inodes j).used := by
  by_cases hj : j = i
  · rw [hj, h.self]
  · rw [h.other hj]

lemma Moved.sameTree : SameTree r.inodes r'.inodes := by
  refine sameTree_of_other (i := i) ?_ fun j hj => h.other hj
  rw [h.self]
  exact ⟨rfl, rfl, rfl⟩

lemma Moved.size (j : ℕ) : (r'.inodes j).size = (r.inodes j).size := by
  by_cases hj : j = i
  · rw [hj, h.self]
  · rw [h.other hj]

variable (hs : Storage r) (hu : (r.inodes i).used = true)

include hs hu

lemma Moved.frame {j p : ℕ} (hj : j ≠ i) (hju : (r.inodes j).used = true)
    (hp : (r.inodes j).data = some p) :
    p ≠ r.heap.calls ∧ r'.heap.buffers p = r.heap.buffers p := by
  have hpc := (hs.lt_calls hju hp).ne
  exact ⟨hpc, h.old p hpc fun hd => hj (hs.apart j i p hju hu hp hd)⟩

omit hs hu in
lemma Moved.keeps (hu : (r.inodes i).used = true) : Keeps r r' := by
  refine ⟨h.outcome, by rw [h.calls]; omega, fun p hp hno => h.old p hp.ne (hno i hu),
    fun j p hju hp => ?_⟩
  rw [h.used] at hju
  by_cases hj : j = i
  · rw [hj, h.self] at hp
    cases hp
    exact .inr le_rfl
  · rw [h.other hj] at hp
    exact .inl ⟨hju, hp⟩

lemma Moved.apart {j k p : ℕ} (hju : (r.inodes j).used = true) (hku : (r.inodes k).used = true)
    (hjp : (r'.inodes j).data = some p) (hkp : (r'.inodes k).data = some p) : j = k := by
  by_cases hj : j = i
  · by_cases hk : k = i
    · rw [hj, hk]
    · rw [hj, h.self] at hjp
      rw [h.other hk] at hkp
      cases hjp
      exact absurd rfl (h.frame hs hu hk hku hkp).1
  · rw [h.other hj] at hjp
    by_cases hk : k = i
    · rw [hk, h.self] at hkp
      cases hkp
      exact absurd rfl (h.frame hs hu hj hju hjp).1
    · rw [h.other hk] at hkp
      exact hs.apart j k p hju hku hjp hkp

lemma Moved.storage (hn : (r.inodes i).capacity < needed) (hlt : needed < 2 ^ 32) : Storage r' := by
  refine ⟨fun j hju hd => ?_, fun j p hju hp => ?_, fun j hju => ?_, fun j hju => ?_,
    fun j k p hju hku hjp hkp => ?_, fun p hp => ?_⟩
  · rw [h.used] at hju
    by_cases hj : j = i
    · rw [hj, h.self] at hd
      cases hd
    · rw [h.other hj] at hd ⊢
      exact hs.empty j hju hd
  · rw [h.used] at hju
    by_cases hj : j = i
    · rw [hj, h.self] at hp ⊢
      cases hp
      exact ⟨_, h.buffer, rfl⟩
    · rw [h.other hj] at hp ⊢
      rw [(h.frame hs hu hj hju hp).2]
      exact hs.buffer j p hju hp
  · rw [h.used] at hju
    by_cases hj : j = i
    · rw [hj, h.self]
      exact (hs.size_le i hu).trans hn.le
    · rw [h.other hj]
      exact hs.size_le j hju
  · rw [h.used] at hju
    by_cases hj : j = i
    · rw [hj, h.self]
      exact hlt
    · rw [h.other hj]
      exact hs.capacity_lt j hju
  · rw [h.used] at hju hku
    exact h.apart hs hu hju hku hjp hkp
  · rw [h.calls] at hp
    rw [h.old p (by omega) fun hd => absurd (hs.lt_calls hu hd) (by omega)]
    exact hs.fresh p (by omega)

lemma Moved.byteAt_eq {j k : ℕ} (hju : (r.inodes j).used = true) (hk : k < (r.inodes j).size) :
    byteAt r' j k = byteAt r j k := by
  by_cases hj : j = i
  · subst hj
    rw [← h.copied k hk]
    exact byteAt_of_buffer (b := ⟨needed, bytes⟩) (by rw [h.self, Option.bind_some, h.buffer]) k
  · simp only [byteAt, h.other hj]
    cases hd : (r.inodes j).data with
    | none => rfl
    | some p => rw [Option.bind_some, Option.bind_some, (h.frame hs hu hj hju hd).2]

lemma Moved.grown (hn : (r.inodes i).capacity < needed) (hlt : needed < 2 ^ 32) :
    Grown r r' i needed :=
  ⟨h.storage hs hu hn hlt, h.keeps hu, h.sameTree, by rw [h.self], h.size,
    fun _ hju _ hk => h.byteAt_eq hs hu hju hk⟩

end Moved

section Write

variable {r : Ramfs} (hs : Storage r)

include hs

lemma Storage.moveData {i needed : ℕ} (junk : ℕ → UInt8) (hu : (r.inodes i).used = true)
    (hn : (r.inodes i).capacity < needed) :
    ∃ heap bytes, moveData { r.heap with
          calls := r.heap.calls + 1
          buffers := Function.update r.heap.buffers r.heap.calls (some ⟨needed, junk⟩) }
        (r.inodes i).data (r.inodes i).size r.heap.calls = some heap ∧
      heap.outcome = r.heap.outcome ∧ heap.calls = r.heap.calls + 1 ∧
      heap.buffers r.heap.calls = some ⟨needed, bytes⟩ ∧
      (∀ k < (r.inodes i).size, bytes k = byteAt r i k) ∧
      ∀ p, p ≠ r.heap.calls → (r.inodes i).data ≠ some p → heap.buffers p = r.heap.buffers p := by
  have hsize := hs.size_le i hu
  cases hd : (r.inodes i).data with
  | none =>
    have hcap := hs.empty i hu hd
    refine ⟨_, junk, rfl, rfl, rfl, by simp, fun k hk => by omega, fun p hp _ => ?_⟩
    exact Function.update_of_ne hp _ _
  | some p =>
    obtain ⟨b, hb, hcap⟩ := hs.buffer i p hu hd
    have hpc : p ≠ r.heap.calls := (hs.lt_calls hu hd).ne
    have hbind : (r.inodes i).data.bind r.heap.buffers = some b := by rw [hd, Option.bind_some, hb]
    simp only [Ramfs.moveData]
    rw [Malloc.load_of_le (b := b) (by simp [hpc, hb]) (by omega), Option.bind_some,
      Malloc.store_of_le (b := ⟨needed, junk⟩) (by simp)
        (by simp only [List.length_map, List.length_range]; omega), Option.map_some]
    refine ⟨_, Malloc.patch junk 0 ((List.range (r.inodes i).size).map fun k => b.bytes (0 + k)), rfl,
      rfl, rfl, ?_, fun k hk => ?_, fun q hq hqp => ?_⟩
    · simp [Malloc.free, hpc.symm]
    · rw [Malloc.patch_mid _ (by omega) (by simpa using hk), byteAt_of_buffer hbind]
      simp
    · have hne : q ≠ p := fun he => hqp (by rw [he])
      simp [Malloc.free, hne, hq]

lemma Storage.grow_moved {i needed : ℕ} {junk : ℕ → UInt8} (hu : (r.inodes i).used = true)
    (hn : (r.inodes i).capacity < needed) (hout : r.heap.outcome r.heap.calls = some junk) :
    ∃ r' bytes, grow r i needed = some (true, r') ∧ r'.strtokNext = r.strtokNext ∧
      Moved r r' i needed bytes := by
  unfold Ramfs.grow
  rw [if_neg (not_le.mpr hn)]
  rcases r.heap.malloc_cases needed with ⟨hfail, _⟩ | ⟨found, _, hm⟩
  · rw [hout] at hfail
    cases hfail
  · rw [hm]
    obtain ⟨heap, bytes, hmove, hsame, hcalls, hnew, hbytes, hold⟩ := hs.moveData found hu hn
    simp only [hmove, Option.map_some]
    exact ⟨_, bytes, rfl, rfl, rfl, hsame, hcalls, hnew, hbytes, hold⟩

omit hs in
lemma grow_fits {i needed : ℕ} (h : needed ≤ (r.inodes i).capacity) :
    grow r i needed = some (true, r) := by
  rw [grow, if_pos h]

omit hs in
lemma grow_failed {i needed : ℕ} (hcap : (r.inodes i).capacity < needed)
    (hout : r.heap.outcome r.heap.calls = none) :
    grow r i needed = some (false, { r with heap := { r.heap with calls := r.heap.calls + 1 } }) := by
  unfold grow
  rw [if_neg (not_le.mpr hcap)]
  rcases r.heap.malloc_cases needed with ⟨_, hm⟩ | ⟨bytes, hsome, _⟩
  · rw [hm]
  · rw [hout] at hsome
    cases hsome

lemma Storage.grow {i needed : ℕ} (hu : (r.inodes i).used = true) (hlt : needed < 2 ^ 32) :
    (grow r i needed = some (false, { r with heap := { r.heap with calls := r.heap.calls + 1 } }) ∧
        (r.inodes i).capacity < needed ∧ r.heap.outcome r.heap.calls = none) ∨
      ∃ r', grow r i needed = some (true, r') ∧ Grown r r' i needed := by
  by_cases hle : needed ≤ (r.inodes i).capacity
  · exact .inr ⟨r, grow_fits hle, hs, Keeps.refl r, SameTree.refl _, hle, fun _ => rfl,
      fun _ _ _ _ => rfl⟩
  · cases hout : r.heap.outcome r.heap.calls with
    | none => exact .inl ⟨grow_failed (not_le.mp hle) hout, not_le.mp hle, rfl⟩
    | some junk =>
      obtain ⟨r', bytes, hg, _, hmoved⟩ := hs.grow_moved hu (not_le.mp hle) hout
      exact .inr ⟨r', hg, hmoved.grown hs hu (not_le.mp hle) hlt⟩

end Write

structure Written (r r' : Ramfs) (i : ℕ) (c : List UInt8) : Prop where
  storage : Storage r'
  keeps : Keeps r r'
  sameTree : SameTree r.inodes r'.inodes
  self : contents r' i = c
  other : ∀ j, j ≠ i → (r.inodes j).used = true → contents r' j = contents r j

structure Stored (r r' : Ramfs) (i p n : ℕ) (b : Buffer) (bytes : ℕ → UInt8) : Prop where
  data : (r.inodes i).data = some p
  buffer : r.heap.buffers p = some b
  le : n ≤ b.size
  inodes : r'.inodes = Function.update r.inodes i { r.inodes i with size := n }
  heap : r'.heap = { r.heap with
    buffers := Function.update r.heap.buffers p (some ⟨b.size, bytes⟩) }

section Stored

variable {r r' : Ramfs} {i p n : ℕ} {b : Buffer} {bytes : ℕ → UInt8} (h : Stored r r' i p n b bytes)

include h

lemma Stored.self : r'.inodes i = { r.inodes i with size := n } := by
  simp [h.inodes]

lemma Stored.other {j : ℕ} (hj : j ≠ i) : r'.inodes j = r.inodes j := by
  simp [h.inodes, hj]

lemma Stored.same (j : ℕ) : (r'.inodes j).used = (r.inodes j).used ∧
    (r'.inodes j).data = (r.inodes j).data ∧ (r'.inodes j).capacity = (r.inodes j).capacity := by
  by_cases hj : j = i
  · rw [hj, h.self]
    exact ⟨rfl, rfl, rfl⟩
  · rw [h.other hj]
    exact ⟨rfl, rfl, rfl⟩

lemma Stored.sameTree : SameTree r.inodes r'.inodes := by
  refine sameTree_of_other (i := i) ?_ fun j hj => h.other hj
  rw [h.self]
  exact ⟨rfl, rfl, rfl⟩

lemma Stored.new : r'.heap.buffers p = some ⟨b.size, bytes⟩ := by
  simp [h.heap]

lemma Stored.frame {q : ℕ} (hq : q ≠ p) : r'.heap.buffers q = r.heap.buffers q := by
  simp [h.heap, hq]

lemma Stored.keeps (hu : (r.inodes i).used = true) : Keeps r r' := by
  refine ⟨by rw [h.heap], by rw [h.heap], fun q hq hno => ?_, fun j q hju hq => ?_⟩
  · exact h.frame fun hqp => hno i hu (by rw [hqp, h.data])
  · rw [(h.same j).1] at hju
    rw [(h.same j).2.1] at hq
    exact .inl ⟨hju, hq⟩

lemma Stored.contents_self : contents r' i = (List.range n).map bytes := by
  rw [contents, h.self]
  refine List.map_congr_left fun k _ => ?_
  exact byteAt_of_buffer (b := ⟨b.size, bytes⟩)
    (by rw [(h.same i).2.1, h.data, Option.bind_some, h.new]) k

variable (hs : Storage r) (hu : (r.inodes i).used = true)

include hs hu

lemma Stored.capacity : (r.inodes i).capacity = b.size := by
  obtain ⟨b', hb', hcap⟩ := hs.buffer i p hu h.data
  rw [h.buffer] at hb'
  cases hb'
  exact hcap.symm

lemma Stored.storage : Storage r' := by
  have hpc := hs.lt_calls hu h.data
  refine ⟨fun j hju hd => ?_, fun j q hju hq => ?_, fun j hju => ?_, fun j hju => ?_,
    fun j k q hju hku hjq hkq => ?_, fun q hq => ?_⟩
  · rw [(h.same j).1] at hju
    rw [(h.same j).2.1] at hd
    rw [(h.same j).2.2]
    exact hs.empty j hju hd
  · rw [(h.same j).1] at hju
    rw [(h.same j).2.1] at hq
    rw [(h.same j).2.2]
    by_cases hqp : q = p
    · subst hqp
      rw [hs.apart j i q hju hu hq h.data, h.capacity hs hu]
      exact ⟨_, h.new, rfl⟩
    · rw [h.frame hqp]
      exact hs.buffer j q hju hq
  · rw [(h.same j).1] at hju
    rw [(h.same j).2.2]
    by_cases hj : j = i
    · rw [hj, h.self, h.capacity hs hu]
      exact h.le
    · rw [h.other hj]
      exact hs.size_le j hju
  · rw [(h.same j).1] at hju
    rw [(h.same j).2.2]
    exact hs.capacity_lt j hju
  · rw [(h.same j).1] at hju
    rw [(h.same k).1] at hku
    rw [(h.same j).2.1] at hjq
    rw [(h.same k).2.1] at hkq
    exact hs.apart j k q hju hku hjq hkq
  · have hle : r.heap.calls ≤ q := by simpa [h.heap] using hq
    rw [h.frame (by omega)]
    exact hs.fresh q hle

lemma Stored.contents_other {j : ℕ} (hj : j ≠ i) (hju : (r.inodes j).used = true) :
    contents r' j = contents r j := by
  refine contents_congr (by rw [h.other hj]) fun k _ => ?_
  simp only [byteAt, (h.same j).2.1]
  cases hd : (r.inodes j).data with
  | none => rfl
  | some q =>
    have hqp : q ≠ p := by
      rintro rfl
      exact hj (hs.apart j i q hju hu hd h.data)
    rw [Option.bind_some, Option.bind_some, h.frame hqp]

lemma Stored.written : Written r r' i ((List.range n).map bytes) :=
  ⟨h.storage hs hu, h.keeps hu, h.sameTree, h.contents_self, fun _ hj hju => h.contents_other hs hu hj hju⟩

end Stored

lemma map_patch_eq {bs : List UInt8} {bytes : ℕ → UInt8} {size offset : ℕ} {buf : List UInt8}
    (hlen : bs.length = size) (hc : ∀ k (hk : k < bs.length), bytes k = bs[k]) :
    (List.range (max size (offset + buf.length))).map (Malloc.patch
        (Malloc.patch bytes size (List.replicate (offset - size) 0)) offset buf) =
      overwrite bs offset buf := by
  refine List.ext_getElem ?_ fun k hk hk' => ?_
  · rw [List.length_map, List.length_range, length_overwrite, hlen]
  · rw [List.length_map, List.length_range] at hk
    rw [List.getElem_map, List.getElem_range, getElem_overwrite]
    by_cases hlt : k < offset
    · rw [dif_pos hlt, Malloc.patch_of_lt _ _ hlt]
      by_cases hkc : k < bs.length
      · rw [dif_pos hkc, Malloc.patch_of_lt _ _ (by omega), hc k hkc]
      · rw [dif_neg hkc, Malloc.patch_mid _ (by omega) (by rw [List.length_replicate]; omega),
          List.getElem_replicate]
    · rw [dif_neg hlt]
      by_cases hkb : k - offset < buf.length
      · rw [dif_pos hkb, Malloc.patch_mid _ (by omega) hkb]
      · have hkc : k < bs.length := by
          rw [length_overwrite] at hk'
          omega
        rw [dif_neg hkb, Malloc.patch_of_le _ (by omega), Malloc.patch_of_lt _ _ (by omega), hc k hkc,
          List.get_eq_getElem]

lemma isOpenFile_used {r : Ramfs} {i : ℕ} (h : r.isOpenFile i = true) : (r.inodes i).used = true := by
  simp only [isOpenFile, Bool.and_eq_true] at h
  exact h.1.2

lemma Grown.contents_eq {r r' : Ramfs} {i j needed : ℕ} (h : Grown r r' i needed)
    (hu : (r.inodes j).used = true) : contents r' j = contents r j :=
  contents_congr (h.size j) (h.byte j hu)

lemma Written.of_grown {r s t : Ramfs} {i needed : ℕ} {c : List UInt8} (h : Grown r s i needed)
    (g : Written s t i c) : Written r t i c where
  storage := g.storage
  keeps := h.keeps.trans g.keeps
  sameTree := h.sameTree.trans g.sameTree
  self := g.self
  other j hj hu := (g.other j hj ((h.sameTree j).2.1.trans hu)).trans (h.contents_eq hu)

def fill (r : Ramfs) (i : ℕ) (buf : List UInt8) (offset : ℕ) : Option (ℕ × ℕ × Ramfs) :=
  (r.heap.store (r.inodes i).data (r.inodes i).size
      (List.replicate (offset - (r.inodes i).size) 0)).bind fun heap =>
    (heap.store (r.inodes i).data offset buf).map fun heap =>
      (buf.length, (offset + buf.length) % 2 ^ 32, { r with heap := heap }.setInode i
        { r.inodes i with
          size := if (offset + buf.length) % 2 ^ 32 > (r.inodes i).size then
            (offset + buf.length) % 2 ^ 32 else (r.inodes i).size })

lemma ramfsWrite_open {r : Ramfs} {i offset : ℕ} {buf : List UInt8} (h : r.isOpenFile i = true) :
    ramfsWrite r i buf offset = (grow r i ((offset + buf.length) % 2 ^ 32)).bind fun grown =>
      if grown.1 = false then some (0, offset, grown.2) else fill grown.2 i buf offset := by
  rw [ramfsWrite, if_neg (by simp [h])]
  rfl

structure Filled (r r' : Ramfs) (i offset : ℕ) (buf : List UInt8) : Prop where
  inodes : r'.inodes = Function.update r.inodes i
    { r.inodes i with size := max (r.inodes i).size (offset + buf.length) }
  calls : r'.heap.calls = r.heap.calls
  cursor : r'.strtokNext = r.strtokNext
  written : Written r r' i (overwrite (contents r i) offset buf)

lemma Storage.fill {r : Ramfs} (hs : Storage r) {i offset : ℕ} {buf : List UInt8}
    (hu : (r.inodes i).used = true) (hcap : offset + buf.length ≤ (r.inodes i).capacity) :
    ∃ r', fill r i buf offset = some (buf.length, offset + buf.length, r') ∧
      Filled r r' i offset buf := by
  have hsize := hs.size_le i hu
  have hlt := hcap.trans_lt (hs.capacity_lt i hu)
  have hmax : (if offset + buf.length > (r.inodes i).size then offset + buf.length
      else (r.inodes i).size) = max (r.inodes i).size (offset + buf.length) := by
    split <;> omega
  rw [Ramfs.fill, Nat.mod_eq_of_lt hlt, hmax]
  cases hd : (r.inodes i).data with
  | none =>
    -- nothing is written: the file is empty and so are the gap and the data
    have hzero := hs.empty i hu hd
    have hoff : offset = 0 := by omega
    have hbuf : buf = [] := List.eq_nil_of_length_eq_zero (by omega)
    have hnil : (r.inodes i).size = 0 := by omega
    subst hoff hbuf
    have hi : ({ r.inodes i with size := 0 } : RamfsInode) = r.inodes i := by rw [← hnil]
    have hsame : r.setInode i { r.inodes i with size := 0 } = r := by
      rw [hi, setInode, Function.update_eq_self]
    have hcs : contents r i = [] :=
      List.eq_nil_of_length_eq_zero (by rw [length_contents, hnil])
    simp only [hnil, Nat.sub_self, List.replicate_zero, Malloc.store_nil, Option.bind_some,
      Option.map_some, List.length_nil, Nat.add_zero, Nat.max_self]
    refine ⟨r, by rw [hsame], ?_, rfl, rfl, hs, Keeps.refl r, SameTree.refl _, by rw [hcs]; rfl,
      fun _ _ _ => rfl⟩
    simp only [hnil, List.length_nil, Nat.add_zero, Nat.max_self]
    exact (Function.update_eq_self_iff.mpr hi).symm
  | some p =>
    obtain ⟨b, hb, hbsize⟩ := hs.buffer i p hu hd
    rw [Malloc.store_of_le hb (by rw [List.length_replicate]; omega), Option.bind_some,
      Malloc.store_of_le (b := ⟨b.size, Malloc.patch b.bytes (r.inodes i).size
        (List.replicate (offset - (r.inodes i).size) 0)⟩) (by simp) (by simp only; omega),
      Option.map_some]
    refine ⟨_, rfl, by simp [setInode, hd], rfl, rfl, ?_⟩
    have hbyte : ∀ k (hk : k < (contents r i).length), b.bytes k = (contents r i)[k] := by
      intro k hk
      rw [← byteAt_of_buffer (r := r) (i := i) (by rw [hd, Option.bind_some, hb])]
      simp [contents]
    rw [← map_patch_eq (length_contents r i) hbyte]
    exact Stored.written ⟨hd, hb, by omega, by simp [setInode, hd], by simp [setInode]⟩ hs hu

lemma Storage.write {r : Ramfs} (hs : Storage r) {i offset : ℕ} {buf : List UInt8}
    (h : r.isOpenFile i = true) (hlt : offset + buf.length < 2 ^ 32) :
    (ramfsWrite r i buf offset =
        some (0, offset, { r with heap := { r.heap with calls := r.heap.calls + 1 } }) ∧
      (contents r i).length < offset + buf.length ∧ r.heap.outcome r.heap.calls = none) ∨
      ∃ r', ramfsWrite r i buf offset = some (buf.length, offset + buf.length, r') ∧
        Written r r' i (overwrite (contents r i) offset buf) := by
  have hu := isOpenFile_used h
  rw [ramfsWrite_open h, Nat.mod_eq_of_lt hlt]
  rcases hs.grow hu hlt with ⟨hg, hcap, hout⟩ | ⟨s, hg, hgrown⟩
  · refine .inl ⟨by rw [hg]; rfl, ?_, hout⟩
    rw [length_contents]
    exact (hs.size_le i hu).trans_lt hcap
  · have hus : (s.inodes i).used = true := (hgrown.sameTree i).2.1.trans hu
    obtain ⟨r', hfill, hfilled⟩ := hgrown.storage.fill hus hgrown.capacity
    right
    rw [hg, Option.bind_some, if_neg (by simp), hfill]
    refine ⟨r', rfl, Written.of_grown hgrown ?_⟩
    rw [← hgrown.contents_eq hu]
    exact hfilled.written

lemma Storage.write_wrap {r : Ramfs} (hs : Storage r) {i offset : ℕ} {buf : List UInt8}
    (h : r.isOpenFile i = true) (hwrap : 2 ^ 32 ≤ offset + buf.length) :
    (((r.inodes i).capacity < (offset + buf.length) % 2 ^ 32 ∧ r.heap.outcome r.heap.calls = none) ∧
      ramfsWrite r i buf offset =
        some (0, offset, { r with heap := { r.heap with calls := r.heap.calls + 1 } })) ∨
      (¬ ((r.inodes i).capacity < (offset + buf.length) % 2 ^ 32 ∧
        r.heap.outcome r.heap.calls = none) ∧ ramfsWrite r i buf offset = none) := by
  have hu := isOpenFile_used h
  simp only [ramfsWrite, h, Bool.true_eq_false, if_false]
  rcases hs.grow hu (Nat.mod_lt (offset + buf.length) (by omega)) with
    ⟨hg, hcap, hout⟩ | ⟨s, hg, hgrown⟩
  · rw [hg]
    exact .inl ⟨⟨hcap, hout⟩, rfl⟩
  · right
    refine ⟨fun hc => ?_, ?_⟩
    · rw [grow_failed hc.1 hc.2] at hg
      cases hg
    rw [hg]
    simp only [Option.bind_some, Bool.true_eq_false, if_false]
    have hus : (s.inodes i).used = true := (hgrown.sameTree i).2.1.trans hu
    have hbound := hgrown.storage.bound hus
    have hsize : ∀ q b, (s.inodes i).data = some q → s.heap.buffers q = some b → b.size < 2 ^ 32 := by
      intro q b hq hb
      obtain ⟨b', hb', hcap⟩ := hgrown.storage.buffer i q hus hq
      rw [hb] at hb'
      cases hb'
      rw [hcap]
      exact hgrown.storage.capacity_lt i hus
    rw [Option.bind_eq_none_iff]
    intro heap hgap
    rw [Option.map_eq_none_iff]
    by_contra hne
    obtain ⟨heap', hbuf⟩ := Option.ne_none_iff_exists'.mp hne
    -- either the data or the gap before it ends outside of the buffer
    rcases Malloc.store_eq_some hgap with ⟨hnil, rfl⟩ | ⟨q, b, hq, hb, hle, rfl⟩
    · have hgap0 := congrArg List.length hnil
      rw [List.length_replicate, List.length_nil] at hgap0
      rcases Malloc.store_eq_some hbuf with ⟨rfl, _⟩ | ⟨q, b, hq, hb, hle, _⟩
      · simp only [List.length_nil] at hwrap
        omega
      · have := hsize q b hq hb
        omega
    · rw [List.length_replicate] at hle
      have hqb := hsize q b hq hb
      rcases Malloc.store_eq_some hbuf with ⟨rfl, _⟩ | ⟨q', b', hq', hb', hle', _⟩
      · simp only [List.length_nil] at hwrap
        omega
      · rw [hq] at hq'
        cases hq'
        simp only [Function.update_self, Option.some.injEq] at hb'
        subst hb'
        simp only at hle'
        omega

inductive WriteEnds (r : Ramfs) (i : ℕ) (buf : List UInt8) (offset : ℕ) : ℕ × ℕ × Ramfs → Prop
  | closed (h : r.isOpenFile i = false) : WriteEnds r i buf offset (0, offset, r)
  | failed (h : r.isOpenFile i = true) :
      WriteEnds r i buf offset (0, offset, { r with heap := { r.heap with calls := r.heap.calls + 1 } })
  | written {r' : Ramfs} (h : r.isOpenFile i = true) (hlt : offset + buf.length < 2 ^ 32)
      (hw : Written r r' i (overwrite (contents r i) offset buf)) :
      WriteEnds r i buf offset (buf.length, offset + buf.length, r')

lemma Storage.write_ends {r : Ramfs} (hs : Storage r) {i offset : ℕ} {buf : List UInt8}
    {res : ℕ × ℕ × Ramfs} (h : ramfsWrite r i buf offset = some res) :
    WriteEnds r i buf offset res := by
  cases hopen : r.isOpenFile i with
  | false =>
    rw [ramfsWrite, if_pos hopen] at h
    cases h
    exact .closed hopen
  | true =>
    by_cases hlt : offset + buf.length < 2 ^ 32
    · rcases hs.write hopen hlt with ⟨he, _⟩ | ⟨r', he, hw⟩
      · rw [h] at he
        cases he
        exact .failed hopen
      · rw [h] at he
        cases he
        exact .written hopen hlt hw
    · rcases hs.write_wrap hopen (not_lt.mp hlt) with ⟨_, he⟩ | ⟨_, he⟩
      · rw [h] at he
        cases he
        exact .failed hopen
      · rw [h] at he
        cases he

structure Stays (r r' : Ramfs) : Prop where
  storage : Storage r'
  keeps : Keeps r r'
  contents : ∀ i, (r.inodes i).used = true → (r'.inodes i).used = true → contents r' i = contents r i
  new : ∀ i, (r.inodes i).used = false → (r'.inodes i).used = true → Ramfs.contents r' i = []

lemma Storage.stays {r r' : Ramfs} (hs : Storage r) (hout : r'.heap.outcome = r.heap.outcome)
    (hcalls : r'.heap.calls = r.heap.calls)
    (hbuf : ∀ p, r'.heap.buffers p = r.heap.buffers p ∨ r'.heap.buffers p = none ∧
      ∃ i, (r.inodes i).used = true ∧ (r.inodes i).data = some p ∧ (r'.inodes i).used = false)
    (hin : ∀ i, (r'.inodes i).used = true →
      ((r.inodes i).used = true ∧ (r'.inodes i).data = (r.inodes i).data ∧
        (r'.inodes i).size = (r.inodes i).size ∧ (r'.inodes i).capacity = (r.inodes i).capacity) ∨
      ((r.inodes i).used = false ∧ (r'.inodes i).data = none ∧ (r'.inodes i).size = 0 ∧
        (r'.inodes i).capacity = 0)) : Stays r r' := by
  have hlive : ∀ i p, (r'.inodes i).used = true → (r'.inodes i).data = some p →
      (r.inodes i).used = true ∧ (r.inodes i).data = some p ∧
        (r'.inodes i).capacity = (r.inodes i).capacity ∧ r'.heap.buffers p = r.heap.buffers p := by
    intro i p hu hp
    rcases hin i hu with ⟨hiu, hd, _, hcap⟩ | ⟨_, hd, _⟩
    · rw [hd] at hp
      refine ⟨hiu, hp, hcap, ?_⟩
      rcases hbuf p with hsame | ⟨_, j, hju, hjp, hgone⟩
      · exact hsame
      · rw [hs.apart i j p hiu hju hp hjp, hgone] at hu
        cases hu
    · rw [hd] at hp
      cases hp
  refine ⟨⟨fun i hu hd => ?_, fun i p hu hp => ?_, fun i hu => ?_, fun i hu => ?_,
    fun i j p hi hj hip hjp => ?_, fun p hp => ?_⟩, ⟨hout, by rw [hcalls], fun p hp hno => ?_,
    fun i p hu hp => .inl ⟨(hlive i p hu hp).1, (hlive i p hu hp).2.1⟩⟩, fun i hi hu => ?_,
    fun i hi hu => ?_⟩
  · rcases hin i hu with ⟨hiu, hdata, _, hcap⟩ | ⟨_, _, _, hcap⟩
    · rw [hcap]
      exact hs.empty i hiu (hdata ▸ hd)
    · exact hcap
  · obtain ⟨hiu, hip, hcap, hsame⟩ := hlive i p hu hp
    rw [hsame, hcap]
    exact hs.buffer i p hiu hip
  · rcases hin i hu with ⟨hiu, _, hsize, hcap⟩ | ⟨_, _, hsize, _⟩
    · rw [hsize, hcap]
      exact hs.size_le i hiu
    · rw [hsize]
      exact Nat.zero_le _
  · rcases hin i hu with ⟨hiu, _, _, hcap⟩ | ⟨_, _, _, hcap⟩
    · rw [hcap]
      exact hs.capacity_lt i hiu
    · rw [hcap]
      omega
  · obtain ⟨hiu, hip, _⟩ := hlive i p hi hip
    obtain ⟨hju, hjp, _⟩ := hlive j p hj hjp
    exact hs.apart i j p hiu hju hip hjp
  · rw [hcalls] at hp
    rcases hbuf p with hsame | ⟨hnone, _⟩
    · rw [hsame]
      exact hs.fresh p hp
    · exact hnone
  · rcases hbuf p with hsame | ⟨_, j, hju, hjp, _⟩
    · exact hsame
    · exact absurd hjp (hno j hju)
  · rcases hin i hu with ⟨_, hdata, hsize, _⟩ | ⟨hfree, _⟩
    · refine contents_congr hsize fun k _ => ?_
      simp only [byteAt, hdata]
      cases hd : (r.inodes i).data with
      | none => rfl
      | some p => rw [Option.bind_some, Option.bind_some, (hlive i p hu (hdata.trans hd)).2.2.2]
    · rw [hfree] at hi
      cases hi
  · rcases hin i hu with ⟨hiu, _⟩ | ⟨_, _, hsize, _⟩
    · rw [hi] at hiu
      cases hiu
    · rw [Ramfs.contents, hsize]
      rfl

lemma Storage.alloc {r r' : Ramfs} (hs : Storage r) (hi : r'.inodes = r.inodes)
    (hout : r'.heap.outcome = r.heap.outcome) (hcalls : r'.heap.calls = r.heap.calls + 1)
    (hbuf : ∀ p, p ≠ r.heap.calls → r'.heap.buffers p = r.heap.buffers p) : Stays r r' := by
  have hlive : ∀ i p, (r.inodes i).used = true → (r.inodes i).data = some p →
      r'.heap.buffers p = r.heap.buffers p := fun i p hu hp => hbuf p (hs.lt_calls hu hp).ne
  refine ⟨⟨fun i => ?_, fun i p => ?_, fun i => ?_, fun i => ?_, fun i j p => ?_, fun p hp => ?_⟩,
    ⟨hout, by omega, fun p hp _ => hbuf p hp.ne, fun i p hu hp => ?_⟩, fun i hu _ => ?_,
    fun i hno hu => ?_⟩
  · rw [hi]
    exact hs.empty i
  · rw [hi]
    intro hu hp
    rw [hlive i p hu hp]
    exact hs.buffer i p hu hp
  · rw [hi]
    exact hs.size_le i
  · rw [hi]
    exact hs.capacity_lt i
  · rw [hi]
    exact hs.apart i j p
  · rw [hbuf p (by omega)]
    exact hs.fresh p (by omega)
  · rw [hi] at hu hp
    exact .inl ⟨hu, hp⟩
  · refine contents_congr (by rw [hi]) fun k _ => ?_
    simp only [byteAt, hi]
    cases hd : (r.inodes i).data with
    | none => rfl
    | some p => rw [Option.bind_some, Option.bind_some, hlive i p hu hd]
  · rw [hi, hno] at hu
    cases hu

section Tree

variable {r : Ramfs} (hs : Storage r) (h : Sound r.inodes)

include hs

lemma Storage.same {r' : Ramfs} (hi : r'.inodes = r.inodes) (hheap : r'.heap = r.heap) :
    Stays r r' :=
  hs.stays (by rw [hheap]) (by rw [hheap]) (fun p => .inl (by rw [hheap]))
    fun i hu => .inl (by
      rw [hi] at hu ⊢
      exact ⟨hu, rfl, rfl, rfl⟩)

lemma Storage.added {r' : Ramfs} {type : InodeType} {p idx : ℕ} {basename : CString}
    (hp : UsedDir r.inodes p) (hf : FirstFree r.inodes idx)
    (hi : r'.inodes = added r.inodes type p basename idx) (hheap : r'.heap = r.heap) :
    Stays r r' := by
  refine hs.stays (by rw [hheap]) (by rw [hheap]) (fun p => .inl (by rw [hheap])) fun i hu => ?_
  rw [hi] at hu ⊢
  by_cases hii : i = idx
  · subst hii
    rw [added_self type (hf.ne hp)]
    exact .inr ⟨hf.2.1, rfl, rfl, rfl⟩
  · by_cases hip : i = p
    · subst hip
      rw [added_parent type (hf.ne hp)]
      exact .inl ⟨hp.2.1, rfl, rfl, rfl⟩
    · rw [added_of_ne type hii hip] at hu ⊢
      exact .inl ⟨hu, rfl, rfl, rfl⟩

lemma Storage.removed {r' : Ramfs} {p idx : ℕ} {basename : CString} (hne : idx ≠ p)
    (hlive : (r.inodes idx).used = true) (hi : r'.inodes = removed r.inodes p basename idx)
    (hheap : r'.heap = r.heap ∨ r'.heap = freedHeap r idx) : Stays r r' := by
  have hgone : (r'.inodes idx).used = false := by rw [hi, removed_self hne]
  have hkeep : ∀ i, (r'.inodes i).used = true → (r.inodes i).used = true ∧
      (r'.inodes i).data = (r.inodes i).data ∧ (r'.inodes i).size = (r.inodes i).size ∧
        (r'.inodes i).capacity = (r.inodes i).capacity := by
    intro i hu
    by_cases hii : i = idx
    · rw [hii, hgone] at hu
      cases hu
    · by_cases hip : i = p
      · subst hip
        rw [hi, removed_parent hne] at hu ⊢
        exact ⟨hu, rfl, rfl, rfl⟩
      · rw [hi, removed_of_ne hii hip] at hu ⊢
        exact ⟨hu, rfl, rfl, rfl⟩
  rcases hheap with hheap | hheap
  · exact hs.stays (by rw [hheap]) (by rw [hheap]) (fun q => .inl (by rw [hheap]))
      fun i hu => .inl (hkeep i hu)
  · cases hd : (r.inodes idx).data with
    | none =>
      simp only [freedHeap, hd] at hheap
      exact hs.stays (by rw [hheap]) (by rw [hheap]) (fun q => .inl (by rw [hheap]))
        fun i hu => .inl (hkeep i hu)
    | some d =>
      simp only [freedHeap, hd] at hheap
      refine hs.stays (by rw [hheap]; rfl) (by rw [hheap]; rfl) (fun q => ?_)
        fun i hu => .inl (hkeep i hu)
      by_cases hqd : q = d
      · subst hqd
        exact .inr ⟨by simp [hheap, Malloc.free], idx, hlive, hd, hgone⟩
      · exact .inl (by simp [hheap, Malloc.free, hqd])

include h

lemma Storage.create (path : CString) : Stays r (ramfsCreate r path).2 := by
  obtain ⟨hheap, ⟨_, hi, _⟩ | ⟨p, idx, he, _, hi⟩⟩ := create_cases h path
  · exact hs.same hi hheap
  · exact hs.added he.dir he.free hi hheap

lemma Storage.mkdir (path : CString) : Stays r (ramfsMkdir r path).2 := by
  obtain ⟨hheap, ⟨_, hi, _⟩ | ⟨_, _, _, _, hi⟩ | ⟨p, idx, he, _, hi⟩⟩ := mkdir_cases h path
  · exact hs.same hi hheap
  · exact hs.same hi hheap
  · exact hs.added he.dir he.free hi hheap

lemma Storage.unlink (path : CString) : Stays r (ramfsUnlink r path).2 := by
  rcases unlink_cases h path with ⟨_, hi, hheap, _⟩ | ⟨p, e, he, _, hi, hheap⟩
  · exact hs.same hi hheap
  · exact hs.removed (he.ne h) (h.entry p he.dir e (mem_of_findEntry he.entry).1).2.2 hi (.inr hheap)

lemma Storage.rmdir (path : CString) : Stays r (ramfsRmdir r path).2 := by
  obtain ⟨hheap, ⟨_, hi, _⟩ | ⟨p, e, he, _, hi⟩⟩ := rmdir_cases h path
  · exact hs.same hi hheap
  · exact hs.removed (he.found.ne h) he.dir.2.1 hi (.inl hheap)

end Tree

end Veni.Filesystem.Ramfs
