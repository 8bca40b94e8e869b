import Veni.Filesystem.RamfsInvariant

/-! What the results of the operations on the tree say about the inode table. -/

namespace Veni.Filesystem.Ramfs

open Veni.Libc Veni.Lib.Tokens Veni.Lib.NameGraph Veni.Lib.Transition

section Failure

def Untouched (r s : Ramfs) : Prop := s.inodes = r.inodes ∧ s.heap = r.heap

/-- Where an operation on the path returns -1, no slot, entry or buffer has changed. -/
structure FailsUntouched (r : Ramfs) (path : CString) : Prop where
  create : (ramfsCreate r path).1 = none → Untouched r (ramfsCreate r path).2
  mkdir : (ramfsMkdir r path).1 = false → Untouched r (ramfsMkdir r path).2
  unlink : (ramfsUnlink r path).1 = false → Untouched r (ramfsUnlink r path).2
  rmdir : (ramfsRmdir r path).1 = false → Untouched r (ramfsRmdir r path).2

lemma Sound.failsUntouched {r : Ramfs} (h : Sound r.inodes) (path : CString) : FailsUntouched r path where
  create hfail := by
    obtain ⟨hheap, ⟨_, hi, _⟩ | ⟨_, _, _, hok, _⟩⟩ := create_cases h path
    · exact ⟨hi, hheap⟩
    · rw [hfail] at hok
      cases hok
  mkdir hfail := by
    obtain ⟨hheap, ⟨_, hi, _⟩ | ⟨_, _, _, hok, _⟩ | ⟨_, _, _, hok, _⟩⟩ := mkdir_cases h path
    · exact ⟨hi, hheap⟩
    · rw [hfail] at hok
      cases hok
    · rw [hfail] at hok
      cases hok
  unlink hfail := by
    obtain ⟨_, hi, hheap, _⟩ | ⟨_, _, _, hok, _⟩ := unlink_cases h path
    · exact ⟨hi, hheap⟩
    · rw [hfail] at hok
      cases hok
  rmdir hfail := by
    obtain ⟨hheap, ⟨_, hi, _⟩ | ⟨_, _, _, hok, _⟩⟩ := rmdir_cases h path
    · exact ⟨hi, hheap⟩
    · rw [hfail] at hok
      cases hok

/-- In every reachable state an operation that returns -1 leaves the inode table and the buffers. -/
theorem failures_untouched (r : Ramfs) {ops : List Op} {s : Ramfs} (h : Run Step (ramfsInit r) ops s)
    (path : CString) : FailsUntouched s path :=
  (run_sound h).failsUntouched path

theorem failures_untouched_unlinked :
    FailsUntouched (ramfsUnlink (ramfsCreate (ramfsMkdir (ramfsInit zeroed) (cstring "a")).2
      (cstring "a/b")).2 (cstring "a")).2 (cstring "a/b") :=
  failures_untouched zeroed (show Run Step (ramfsInit zeroed)
      [.mkdir (cstring "a"), .create (cstring "a/b"), .unlink (cstring "a")] _ from
    .cons rfl (.cons rfl (.cons rfl (.nil _)))) (cstring "a/b")

end Failure

section Removal

lemma findEntry_split {es : List RamfsDirent} {n : CString} {e : RamfsDirent}
    (h : findEntry es n = some e) :
    ∃ pre post, es = pre ++ e :: post ∧ (es.eraseP fun e => decide (e.name.val = n)) = pre ++ post := by
  obtain ⟨hn, pre, post, rfl, hpre⟩ := List.find?_eq_some_iff_append.mp h
  refine ⟨pre, post, rfl, ?_⟩
  rw [List.eraseP_append_right _ fun f hf => by simpa using hpre f hf, List.eraseP_cons_of_pos (by simpa using hn)]

/-- `s` is `r` without the empty directory at the path: its inode is unused, and the only entry that
named it is gone from its place. -/
structure DirRemoved (r s : Ramfs) (path : CString) (parent idx : ℕ) (pre : List RamfsDirent)
    (e : RamfsDirent) (post : List RamfsDirent) : Prop where
  found : (ramfsFindInode r path).1 = some idx
  named : e.inodeIdx = idx
  dir : UsedDir r.inodes idx
  empty : (r.inodes idx).entries = []
  ne_root : idx ≠ 0
  ne_parent : idx ≠ parent
  entries : (r.inodes parent).entries = pre ++ e :: post
  only : ∀ i, UsedDir r.inodes i → ∀ (k : ℕ) (f : RamfsDirent), (r.inodes i).entries[k]? = some f →
    f.inodeIdx = idx → i = parent ∧ k = pre.length
  freed : s.inodes idx = { r.inodes idx with used := false }
  removed : s.inodes parent = { r.inodes parent with entries := pre ++ post }
  other : ∀ j, j ≠ idx → j ≠ parent → s.inodes j = r.inodes j
  heap : s.heap = r.heap

lemma Sound.dirRemoved {r : Ramfs} (h : Sound r.inodes) {path : CString}
    (hok : (ramfsRmdir r path).1 = true) :
    ∃ parent idx pre e post, DirRemoved r (ramfsRmdir r path).2 path parent idx pre e post := by
  obtain ⟨hheap, ⟨hfail, _⟩ | ⟨p, e, he, _, hi⟩⟩ := rmdir_cases h path
  · rw [hok] at hfail
    cases hfail
  · have hne : e.inodeIdx ≠ p := he.found.ne h
    obtain ⟨hmem, _⟩ := mem_of_findEntry he.found.entry
    obtain ⟨pre, post, hes, herase⟩ := findEntry_split he.found.entry
    have hlo := (h.entry p he.found.dir e hmem).1
    refine ⟨p, e.inodeIdx, pre, e, post, ?_⟩
    refine ⟨(findInode_eq h path).trans he.walk_eq, rfl, he.dir, he.empty, by omega, hne, hes,
      fun i hd k f hf hfe => ?_, ?_, ?_, fun j hj hjp => ?_, hheap⟩
    · exact h.inodeTable.unique i p hd he.found.dir k pre.length f e hf (by rw [hes]; simp) hfe
    · rw [hi, removed_self hne]
    · rw [hi, removed_parent hne, herase]
    · rw [hi, removed_of_ne hj hjp]

/-- In every reachable state an `ramfs_rmdir` that returns 0 frees an empty directory and takes away
the entry that named it. -/
theorem rmdir_removes (r : Ramfs) {ops : List Op} {s : Ramfs} (h : Run Step (ramfsInit r) ops s)
    {path : CString} (hok : (ramfsRmdir s path).1 = true) :
    ∃ parent idx pre e post, DirRemoved s (ramfsRmdir s path).2 path parent idx pre e post :=
  (run_sound h).dirRemoved hok

theorem rmdir_removes_nested :
    ∃ parent idx pre e post,
      DirRemoved (ramfsMkdir (ramfsMkdir (ramfsInit zeroed) (cstring "a")).2 (cstring "a/b")).2
        (ramfsRmdir (ramfsMkdir (ramfsMkdir (ramfsInit zeroed) (cstring "a")).2 (cstring "a/b")).2
          (cstring "/a//b")).2 (cstring "/a//b") parent idx pre e post :=
  rmdir_removes zeroed (show Run Step (ramfsInit zeroed) [.mkdir (cstring "a"), .mkdir (cstring "a/b")] _
    from .cons rfl (.cons rfl (.nil _))) (by decide)

end Removal

section Made

def FindsMade (r : Ramfs) (path : CString) : Prop :=
  (ramfsMkdir r path).1 = true → ∃ i,
    (ramfsFindInode (ramfsMkdir r path).2 path).1 = some i ∧ UsedDir (ramfsMkdir r path).2.inodes i

def FindsCreated (r : Ramfs) (path : CString) : Prop :=
  ∀ idx, (ramfsCreate r path).1 = some idx →
    (ramfsFindInode (ramfsCreate r path).2 path).1 = some idx ∧
      (ramfsCreate r path).2.inodes idx = emptyInode .file

/-- An entry that is there is for a directory, unless its name is empty, and a new one keeps its name. -/
structure MakesDir (inodes : ℕ → RamfsInode) (path : CString) : Prop where
  old : ∀ p e, Exists inodes path p e →
    (splitPath path).2 = [] ∨ (inodes e.inodeIdx).type = .dir
  new : ∀ p idx, Enters inodes path p idx → (splitPath path).2.length ≤ 31

def MakesFile (inodes : ℕ → RamfsInode) (path : CString) : Prop :=
  ∀ p idx, Enters inodes path p idx → (splitPath path).2 ≠ [] ∧ (splitPath path).2.length ≤ 31

variable {inodes : ℕ → RamfsInode} {path : CString} {p idx : ℕ}

lemma walk_of_parent (hp : parentOf inodes path = some p) :
    walk (links inodes) 0 (components path) =
      if (splitPath path).2 = [] then some p else target (links inodes p) (splitPath path).2 := by
  rw [components_split, walk_append, ← parentOf, hp, Option.bind_some]
  split
  · next hnil =>
    rw [hnil, tokens_nil]
    rfl
  · next hne =>
    rw [tokens_basename hne, walk_cons]
    cases target (links inodes p) (splitPath path).2 <;> rfl

lemma Enters.parent_added (h : Enters inodes path p idx) (type : InodeType) :
    parentOf (added inodes type p (splitPath path).2 idx) path = some p := by
  rw [parentOf, links_added type h.dir h.free.2.1 h.free.1]
  exact walk_link_of_some h.parent

lemma Enters.found_added (h : Enters inodes path p idx) (type : InodeType) :
    walk (links (added inodes type p (splitPath path).2 idx)) 0 (components path) =
      if (splitPath path).2 = [] then some p
      else if (splitPath path).2.length ≤ 31 then some idx else none := by
  have habsent : target (links inodes p) (splitPath path).2 = none := by
    rw [target_links h.dir, h.absent]
    rfl
  have htake : (splitPath path).2 = (splitPath path).2.take 31 ↔ (splitPath path).2.length ≤ 31 := by
    rw [eq_comm, List.take_eq_self_iff]
  rw [walk_of_parent (h.parent_added type), links_added type h.dir h.free.2.1 h.free.1, target_link,
    habsent, Option.none_or]
  simp only [true_and, htake]

lemma Enters.ne (h : Enters inodes path p idx) : idx ≠ p := h.free.ne h.dir

lemma Enters.usedDir_parent (h : Enters inodes path p idx) (type : InodeType) :
    UsedDir (added inodes type p (splitPath path).2 idx) p :=
  (usedDir_added h.dir h.free.1 h.ne).mpr (.inl ⟨h.dir, h.ne.symm⟩)

lemma findsMade_iff {r : Ramfs} (h : Sound r.inodes) (path : CString) :
    FindsMade r path ↔ MakesDir r.inodes path := by
  obtain ⟨_, ⟨hfail, _, hno, hnot⟩ | ⟨p, e, he, hok, hi⟩ | ⟨p, idx, he, hok, hi⟩⟩ := mkdir_cases h path
  · refine iff_of_true (fun hok => ?_) ⟨fun p e he => absurd he (hnot p e), fun p idx he => absurd he (hno p idx)⟩
    rw [hfail] at hok
    cases hok
  · have hfind := findInode_eq (r := (ramfsMkdir r path).2) (by rw [hi]; exact h) path
    rw [hi, walk_of_parent he.parent, he.target] at hfind
    constructor
    · intro hfinds
      obtain ⟨i, hwalk, hd⟩ := hfinds hok
      rw [hfind] at hwalk
      rw [hi] at hd
      refine ⟨fun q f hf => ?_, fun q k hk => absurd he hk.not_exists⟩
      cases he.parent.symm.trans hf.parent
      cases he.entry.symm.trans hf.entry
      split at hwalk
      · next hnil => exact .inl hnil
      · cases hwalk
        exact .inr hd.2.2
    · intro hmakes _
      rw [hfind, hi]
      split
      · exact ⟨p, rfl, he.dir⟩
      · next hne =>
        obtain ⟨_, hlt, hused⟩ := h.entry p he.dir e (mem_of_findEntry he.entry).1
        exact ⟨_, rfl, hlt, hused, (hmakes.old p e he).resolve_left hne⟩
  · have hfind := findInode_eq (r := (ramfsMkdir r path).2)
      (by rw [hi]; exact h.added .dir _ he.dir he.free) path
    rw [hi, he.found_added] at hfind
    constructor
    · intro hfinds
      obtain ⟨i, hwalk, _⟩ := hfinds hok
      rw [hfind] at hwalk
      refine ⟨fun q f hf => absurd hf he.not_exists, fun _ _ _ => ?_⟩
      split at hwalk
      · next hnil =>
        rw [hnil]
        exact Nat.zero_le _
      · split at hwalk
        · assumption
        · cases hwalk
    · intro hmakes _
      rw [hfind, hi]
      split
      · exact ⟨p, rfl, he.usedDir_parent .dir⟩
      · rw [if_pos (hmakes.new p idx he)]
        exact ⟨idx, rfl, (usedDir_added he.dir he.free.1 he.ne).mpr (.inr ⟨rfl, rfl⟩)⟩

lemma findsCreated_iff {r : Ramfs} (h : Sound r.inodes) (path : CString) :
    FindsCreated r path ↔ MakesFile r.inodes path := by
  obtain ⟨_, ⟨hfail, _, hno⟩ | ⟨p, idx, he, hok, hi⟩⟩ := create_cases h path
  · refine iff_of_true (fun idx hok => ?_) fun p idx he => absurd he (hno p idx)
    rw [hfail] at hok
    cases hok
  · have hfind := findInode_eq (r := (ramfsCreate r path).2)
      (by rw [hi]; exact h.added .file _ he.dir he.free) path
    rw [hi, he.found_added] at hfind
    constructor
    · intro hfinds _ _ _
      have hwalk := (hfinds idx hok).1
      rw [hfind] at hwalk
      split at hwalk
      · cases hwalk
        exact absurd rfl he.ne
      · next hne =>
        split at hwalk
        · exact ⟨hne, by assumption⟩
        · cases hwalk
    · intro hmakes i hres
      obtain ⟨hne, hle⟩ := hmakes p idx he
      cases hok.symm.trans hres
      rw [hfind, if_neg hne, if_pos hle, hi, added_self .file he.ne]
      exact ⟨rfl, rfl⟩

/-- In every reachable state what `ramfs_mkdir` and `ramfs_create` have made is found at the path if
and only if its name has at most 31 characters, is not empty for a file, and was not that of a file for a
directory. -/
theorem made_found_iff (r : Ramfs) {ops : List Op} {s : Ramfs} (h : Run Step (ramfsInit r) ops s)
    (path : CString) :
    (FindsMade s path ↔ MakesDir s.inodes path) ∧ (FindsCreated s path ↔ MakesFile s.inodes path) :=
  ⟨findsMade_iff (run_sound h) path, findsCreated_iff (run_sound h) path⟩

theorem made_found_iff_nested :
    (FindsMade (ramfsMkdir (ramfsInit zeroed) (cstring "a")).2 (cstring "a/b") ↔
      MakesDir (ramfsMkdir (ramfsInit zeroed) (cstring "a")).2.inodes (cstring "a/b")) ∧
    (FindsCreated (ramfsMkdir (ramfsInit zeroed) (cstring "a")).2 (cstring "a/b") ↔
      MakesFile (ramfsMkdir (ramfsInit zeroed) (cstring "a")).2.inodes (cstring "a/b")) :=
  made_found_iff zeroed (show Run Step (ramfsInit zeroed) [.mkdir (cstring "a")] _ from
    .single rfl) (cstring "a/b")

/-- A directory over a file, a name of 32 characters, and a file without a name. -/
theorem made_not_found :
    (∃ s, Run Step (ramfsInit zeroed) [.create (cstring "f")] s ∧ ¬ FindsMade s (cstring "f")) ∧
      ¬ FindsMade (ramfsInit zeroed) (cstring "abcdefghijklmnopqrstuvwxyz012345") ∧
      ¬ FindsCreated (ramfsInit zeroed) (cstring "abcdefghijklmnopqrstuvwxyz012345") ∧
      ¬ FindsCreated (ramfsInit zeroed) (cstring "/") := by
  refine ⟨⟨_, .single rfl, fun h => ?_⟩, fun h => ?_, fun h => ?_, fun h => ?_⟩
  · obtain ⟨i, hi, hd⟩ := h (by decide)
    have hidx : (ramfsFindInode (ramfsMkdir (ramfsCreate (ramfsInit zeroed) (cstring "f")).2
        (cstring "f")).2 (cstring "f")).1 = some 1 := by decide
    cases hidx.symm.trans hi
    exact absurd hd.2.2 (by decide)
  · obtain ⟨i, hi, _⟩ := h (by decide)
    have hidx : (ramfsFindInode (ramfsMkdir (ramfsInit zeroed)
        (cstring "abcdefghijklmnopqrstuvwxyz012345")).2
          (cstring "abcdefghijklmnopqrstuvwxyz012345")).1 = none := by decide
    cases hidx.symm.trans hi
  · have hidx := (h 1 (by decide)).1
    exact absurd hidx (by decide)
  · have hidx := (h 1 (by decide)).1
    exact absurd hidx (by decide)

end Made

end Veni.Filesystem.Ramfs
