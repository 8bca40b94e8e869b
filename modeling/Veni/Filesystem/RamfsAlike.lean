import Veni.Filesystem.RamfsStorage

/-! RAM file systems that differ only in memory that was never written. -/

namespace Veni.Filesystem.Ramfs

open Veni.Libc

structure Alike (r s : Ramfs) : Prop where
  inodes : s.inodes = r.inodes
  cursor : s.strtokNext = r.strtokNext
  calls : s.heap.calls = r.heap.calls
  outcome : ∀ k, (s.heap.outcome k).isSome = (r.heap.outcome k).isSome
  contents : ∀ i, (r.inodes i).used = true → contents s i = contents r i
  sound : Sound r.inodes
  left : Storage r
  right : Storage s

section Heap

variable (r : Ramfs) (h : Malloc)

lemma findInode_heap (path : CString) : ramfsFindInode { r with heap := h } path =
    ((ramfsFindInode r path).1, { (ramfsFindInode r path).2 with heap := h }) := by
  unfold ramfsFindInode
  split <;> rfl

lemma allocInode_heap : allocInode { r with heap := h } =
    (allocInode r).map fun x => (x.1, { x.2 with heap := h }) := by
  simp only [allocInode, setInode, Option.map_map]
  rfl

lemma addEntry_heap (p : ℕ) (name : CString) (i : ℕ) : addEntry { r with heap := h } p name i =
    (addEntry r p name i).map fun x => { x with heap := h } := by
  unfold addEntry
  simp only
  split <;> rfl

lemma create_heap (path : CString) : ramfsCreate { r with heap := h } path =
    ((ramfsCreate r path).1, { (ramfsCreate r path).2 with heap := h }) := by
  unfold ramfsCreate
  simp only [findInode_heap]
  rcases ramfsFindInode r (splitPath path).1 with ⟨p, t⟩
  cases p with
  | none => rfl
  | some p =>
    simp only
    split_ifs with htype hfound
    · rfl
    · rfl
    · rw [allocInode_heap]
      cases allocInode t with
      | none => rfl
      | some x =>
        simp only [Option.map_some, addEntry_heap]
        cases addEntry x.2 p (splitPath path).2 x.1 with
        | none => rfl
        | some y => rfl

lemma mkdir_heap (path : CString) : ramfsMkdir { r with heap := h } path =
    ((ramfsMkdir r path).1, { (ramfsMkdir r path).2 with heap := h }) := by
  unfold ramfsMkdir
  simp only [findInode_heap]
  rcases ramfsFindInode r (splitPath path).1 with ⟨p, t⟩
  cases p with
  | none => rfl
  | some p =>
    simp only
    split_ifs with htype hfound
    · rfl
    · rfl
    · rw [allocInode_heap]
      cases allocInode t with
      | none => rfl
      | some x =>
        have hset : ∀ z, setInode { x.2 with heap := h } x.1 z = { x.2.setInode x.1 z with heap := h } :=
          fun _ => rfl
        simp only [Option.map_some, hset, addEntry_heap]
        cases addEntry (x.2.setInode x.1 { x.2.inodes x.1 with type := .dir }) p
            (splitPath path).2 x.1 with
        | none => rfl
        | some y => rfl

end Heap

section Alike

variable {r r' s s' : Ramfs}

lemma Alike.eq_heap (h : Alike r s) : s = { r with heap := s.heap } := by
  obtain ⟨inodes, heap, cursor⟩ := s
  have hi : inodes = r.inodes := h.inodes
  have hc : cursor = r.strtokNext := h.cursor
  rw [hi, hc]

lemma Alike.isOpenFile (h : Alike r s) (i : ℕ) : s.isOpenFile i = r.isOpenFile i := by
  rw [Ramfs.isOpenFile, Ramfs.isOpenFile, h.inodes]

lemma Alike.outcome_none (h : Alike r s) :
    s.heap.outcome s.heap.calls = none ↔ r.heap.outcome r.heap.calls = none := by
  have hsome := h.outcome r.heap.calls
  rw [h.calls, ← Option.isNone_iff_eq_none, ← Option.isNone_iff_eq_none, ← Option.not_isSome,
    ← Option.not_isSome, hsome]

lemma Alike.stays (h : Alike r s) (hr : Stays r r') (hs : Stays s s') (hi : s'.inodes = r'.inodes)
    (hcur : s'.strtokNext = r'.strtokNext) (hcalls : s'.heap.calls = r'.heap.calls)
    (hsound : Sound r'.inodes) : Alike r' s' where
  inodes := hi
  cursor := hcur
  calls := hcalls
  outcome k := by
    rw [hr.keeps.outcome, hs.keeps.outcome]
    exact h.outcome k
  contents i hu := by
    have hu' : (s'.inodes i).used = true := by rw [hi, hu]
    cases hold : (r.inodes i).used with
    | true =>
      rw [hr.contents i hold hu, hs.contents i (by rw [h.inodes, hold]) hu']
      exact h.contents i hold
    | false => rw [hr.new i hold hu, hs.new i (by rw [h.inodes, hold]) hu']
  sound := hsound
  left := hr.storage
  right := hs.storage

lemma Alike.sound' (h : Alike r s) : Sound s.inodes := h.inodes ▸ h.sound

lemma Alike.setCursor (h : Alike r s) (next : Option Cursor) :
    Alike { r with strtokNext := next } { s with strtokNext := next } :=
  h.stays (h.left.same rfl rfl) (h.right.same rfl rfl) h.inodes rfl h.calls h.sound

lemma Alike.create (h : Alike r s) (path : CString) :
    (s.ramfsCreate path).1 = (r.ramfsCreate path).1 ∧
      Alike (r.ramfsCreate path).2 (s.ramfsCreate path).2 := by
  have he := create_heap r s.heap path
  rw [← h.eq_heap] at he
  refine ⟨by rw [he], h.stays (h.left.create h.sound path) (h.right.create h.sound' path)
    (by rw [he]) (by rw [he]) ?_ (h.sound.step (o := .create path) rfl)⟩
  rw [(create_cases h.sound path).1, (create_cases h.sound' path).1, h.calls]

lemma Alike.mkdir (h : Alike r s) (path : CString) :
    Alike (r.ramfsMkdir path).2 (s.ramfsMkdir path).2 := by
  have he := mkdir_heap r s.heap path
  rw [← h.eq_heap] at he
  refine h.stays (h.left.mkdir h.sound path) (h.right.mkdir h.sound' path)
    (by rw [he]) (by rw [he]) ?_ (h.sound.step (o := .mkdir path) rfl)
  rw [(mkdir_cases h.sound path).1, (mkdir_cases h.sound' path).1, h.calls]

lemma Alike.read (h : Alike r s) (i size offset : ℕ) :
    s.ramfsRead i size offset = r.ramfsRead i size offset := by
  cases hopen : r.isOpenFile i with
  | false =>
    have hopen' : s.isOpenFile i = false := by rw [h.isOpenFile, hopen]
    simp only [ramfsRead, hopen, hopen', true_or, if_true]
  | true =>
    rw [h.left.read hopen, h.right.read (by rw [h.isOpenFile, hopen]),
      h.contents i (isOpenFile_used hopen)]

lemma Alike.alloc (h : Alike r s) (hi : r'.inodes = r.inodes) (hi' : s'.inodes = s.inodes)
    (hcur : r'.strtokNext = r.strtokNext) (hcur' : s'.strtokNext = s.strtokNext)
    (ho : r'.heap.outcome = r.heap.outcome) (ho' : s'.heap.outcome = s.heap.outcome)
    (hc : r'.heap.calls = r.heap.calls + 1) (hc' : s'.heap.calls = s.heap.calls + 1)
    (hb : ∀ p, p ≠ r.heap.calls → r'.heap.buffers p = r.heap.buffers p)
    (hb' : ∀ p, p ≠ s.heap.calls → s'.heap.buffers p = s.heap.buffers p) : Alike r' s' := by
  refine h.stays (h.left.alloc hi ho hc hb) (h.right.alloc hi' ho' hc' hb') ?_ ?_ ?_ (hi ▸ h.sound)
  · rw [hi', hi, h.inodes]
  · rw [hcur', hcur, h.cursor]
  · rw [hc', hc, h.calls]

lemma Alike.failed (h : Alike r s) :
    Alike { r with heap := { r.heap with calls := r.heap.calls + 1 } }
      { s with heap := { s.heap with calls := s.heap.calls + 1 } } :=
  h.alloc rfl rfl rfl rfl rfl rfl rfl rfl (fun _ _ => rfl) fun _ _ => rfl

lemma Alike.grown (h : Alike r s) {i needed : ℕ} (hr : Grown r r' i needed) (hs : Grown s s' i needed)
    (hi : s'.inodes = r'.inodes) (hcur : s'.strtokNext = r'.strtokNext)
    (hcalls : s'.heap.calls = r'.heap.calls) : Alike r' s' where
  inodes := hi
  cursor := hcur
  calls := hcalls
  outcome k := by
    rw [hr.keeps.outcome, hs.keeps.outcome]
    exact h.outcome k
  contents j hu := by
    have hold : (r.inodes j).used = true := by rw [← (hr.sameTree j).2.1, hu]
    rw [hr.contents_eq hold, hs.contents_eq (by rw [h.inodes, hold])]
    exact h.contents j hold
  sound := hr.sameTree.sound h.sound
  left := hr.storage
  right := hs.storage

lemma Alike.filled (h : Alike r s) {i offset : ℕ} {buf : List UInt8} (hr : Filled r r' i offset buf)
    (hs : Filled s s' i offset buf) (hu : (r.inodes i).used = true) : Alike r' s' where
  inodes := by rw [hs.inodes, hr.inodes, h.inodes]
  cursor := by rw [hs.cursor, hr.cursor, h.cursor]
  calls := by rw [hs.calls, hr.calls, h.calls]
  outcome k := by
    rw [hr.written.keeps.outcome, hs.written.keeps.outcome]
    exact h.outcome k
  contents j hj := by
    by_cases hji : j = i
    · rw [hji, hr.written.self, hs.written.self, h.contents i hu]
    · have hold : (r.inodes j).used = true := by rw [← (hr.written.sameTree j).2.1, hj]
      rw [hr.written.other j hji hold, hs.written.other j hji (by rw [h.inodes, hold])]
      exact h.contents j hold
  sound := hr.written.sameTree.sound h.sound
  left := hr.written.storage
  right := hs.written.storage

def SameResult (a b : ℕ × ℕ × Ramfs) : Prop := b.1 = a.1 ∧ b.2.1 = a.2.1 ∧ Alike a.2.2 b.2.2

lemma Alike.fill (h : Alike r s) {i offset : ℕ} {buf : List UInt8} (hu : (r.inodes i).used = true)
    (hcap : offset + buf.length ≤ (r.inodes i).capacity) :
    Option.Rel SameResult (fill r i buf offset) (fill s i buf offset) := by
  obtain ⟨r', hr, hr'⟩ := h.left.fill hu hcap
  obtain ⟨s', hs, hs'⟩ := h.right.fill (i := i) (by rw [h.inodes, hu]) (by rw [h.inodes]; exact hcap)
  rw [hr, hs]
  exact .some ⟨rfl, rfl, h.filled hr' hs' hu⟩

lemma Alike.write_open (h : Alike r s) {i offset : ℕ} {buf : List UInt8} (hopen : r.isOpenFile i = true)
    (hlt : offset + buf.length < 2 ^ 32) :
    Option.Rel SameResult (ramfsWrite r i buf offset) (ramfsWrite s i buf offset) := by
  have hu := isOpenFile_used hopen
  have hu' : (s.inodes i).used = true := by rw [h.inodes, hu]
  rw [ramfsWrite_open hopen, ramfsWrite_open (by rw [h.isOpenFile, hopen]), Nat.mod_eq_of_lt hlt]
  by_cases hle : offset + buf.length ≤ (r.inodes i).capacity
  · rw [grow_fits hle, grow_fits (by rw [h.inodes]; exact hle)]
    exact h.fill hu hle
  · have hlow := not_le.mp hle
    have hlow' : (s.inodes i).capacity < offset + buf.length := by rw [h.inodes]; exact hlow
    cases hout : r.heap.outcome r.heap.calls with
    | none =>
      rw [grow_failed hlow hout, grow_failed hlow' (h.outcome_none.mpr hout)]
      exact .some ⟨rfl, rfl, h.failed⟩
    | some junk =>
      have hne : s.heap.outcome s.heap.calls ≠ none := by
        rw [ne_eq, h.outcome_none, hout]
        exact Option.some_ne_none _
      obtain ⟨junk', hout'⟩ := Option.ne_none_iff_exists'.mp hne
      obtain ⟨a, _, ha, hcur, hmoved⟩ := h.left.grow_moved hu hlow hout
      obtain ⟨b, _, hb, hcur', hmoved'⟩ := h.right.grow_moved hu' hlow' hout'
      have hgrown := hmoved.grown h.left hu hlow hlt
      have halike : Alike a b := by
        refine h.grown hgrown (hmoved'.grown h.right hu' hlow' hlt) ?_ ?_ ?_
        · rw [hmoved.inodes, hmoved'.inodes, h.inodes, h.calls]
        · rw [hcur, hcur', h.cursor]
        · rw [hmoved.calls, hmoved'.calls, h.calls]
      rw [ha, hb]
      exact halike.fill ((hgrown.sameTree i).2.1.trans hu) hgrown.capacity

lemma Alike.write (h : Alike r s) (i offset : ℕ) (buf : List UInt8) :
    Option.Rel SameResult (ramfsWrite r i buf offset) (ramfsWrite s i buf offset) := by
  cases hopen : r.isOpenFile i with
  | false =>
    rw [ramfsWrite, ramfsWrite, if_pos hopen, if_pos (by rw [h.isOpenFile, hopen])]
    exact .some ⟨rfl, rfl, h⟩
  | true =>
    by_cases hlt : offset + buf.length < 2 ^ 32
    · exact h.write_open hopen hlt
    · have hopen' : s.isOpenFile i = true := by rw [h.isOpenFile, hopen]
      have hshort := h.outcome_none
      rcases h.left.write_wrap hopen (not_lt.mp hlt) with ⟨hfail, he⟩ | ⟨hfail, he⟩
      · rcases h.right.write_wrap hopen' (not_lt.mp hlt) with ⟨_, he'⟩ | ⟨hfail', _⟩
        · rw [he, he']
          exact .some ⟨rfl, rfl, h.failed⟩
        · rw [h.inodes, hshort] at hfail'
          exact absurd hfail hfail'
      · rcases h.right.write_wrap hopen' (not_lt.mp hlt) with ⟨hfail', _⟩ | ⟨_, he'⟩
        · rw [h.inodes, hshort] at hfail'
          exact absurd hfail' hfail
        · rw [he, he']
          exact .none

end Alike

section Idle

variable {r s : Ramfs} {size offset : ℕ} {buf : List UInt8}

/-- No file has a byte for a read of this size at this offset. -/
def IdleRead (r : Ramfs) (size offset : ℕ) : Prop :=
  size = 0 ∨ ∀ i, r.isOpenFile i = true → (r.inodes i).size ≤ offset

/-- There is no file, or a write of no bytes, at an offset inside every file. -/
def IdleWrite (r : Ramfs) (buf : List UInt8) (offset : ℕ) : Prop :=
  ∀ i, r.isOpenFile i = true → buf = [] ∧ offset ≤ (r.inodes i).size

lemma IdleRead.read (h : IdleRead r size offset) (hs : Storage r) (i : ℕ) :
    ramfsRead r i size offset = some ([], offset) := by
  unfold ramfsRead
  simp only
  split_ifs with hnone hlong
  · rfl
  · push Not at hnone
    obtain ⟨hopen, hinside, _⟩ := hnone
    rcases h with rfl | h
    · omega
    · exact absurd (h i (by simpa using hopen)) (by omega)
  · push Not at hnone
    obtain ⟨hopen, hinside, _⟩ := hnone
    rcases h with rfl | h
    · have hlt := hinside.trans (hs.bound (isOpenFile_used (by simpa using hopen)))
      simp only [Malloc.load, if_true, Option.map_some, Nat.add_zero, Nat.mod_eq_of_lt hlt]
    · exact absurd (h i (by simpa using hopen)) (by omega)

lemma IdleWrite.write (h : IdleWrite r buf offset) (hs : Storage r) (i : ℕ) :
    ramfsWrite r i buf offset = some (0, offset, r) := by
  cases hopen : r.isOpenFile i with
  | false => rw [ramfsWrite, if_pos hopen]
  | true =>
    obtain ⟨rfl, hle⟩ := h i hopen
    have hu := isOpenFile_used hopen
    have hcap := hle.trans (hs.size_le i hu)
    have hlt := hcap.trans_lt (hs.capacity_lt i hu)
    have hgap : offset - (r.inodes i).size = 0 := by omega
    have hsame : r.setInode i { r.inodes i with size := (r.inodes i).size } = r :=
      congrArg (fun f => { r with inodes := f }) (Function.update_eq_self i r.inodes)
    rw [ramfsWrite_open hopen, List.length_nil, Nat.add_zero, Nat.mod_eq_of_lt hlt, grow_fits hcap,
      Option.bind_some, if_neg (by simp), Ramfs.fill, hgap, List.replicate_zero, Malloc.store_nil,
      Option.bind_some, Malloc.store_nil, Option.map_some, List.length_nil, Nat.add_zero,
      Nat.mod_eq_of_lt hlt, if_neg (not_lt.mpr hle), hsame]

lemma Alike.idleWrite (h : Alike r s) (hw : IdleWrite r buf offset) : IdleWrite s buf offset := by
  intro i hi
  rw [h.isOpenFile] at hi
  rw [h.inodes]
  exact hw i hi

end Idle

end Veni.Filesystem.Ramfs
