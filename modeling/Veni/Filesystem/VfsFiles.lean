import Veni.Filesystem.VfsOperations
import Veni.Lib.Transition

/-! Open files refine byte strings and offsets. -/

namespace Veni.Filesystem

open Veni.Libc Veni.Lib.Tokens Veni.Lib.NameGraph Veni.Lib.Transition

namespace Ramfs

lemma isOpenFile_iff {r : Ramfs} {i : ℕ} :
    r.isOpenFile i = true ↔ i < ramfsMaxFiles ∧ (r.inodes i).used = true ∧ (r.inodes i).type = .file := by
  simp [isOpenFile, and_assoc]

lemma isOpenFile_added {r s : Ramfs} {type : InodeType} {p idx i : ℕ} {basename : CString}
    (hp : UsedDir r.inodes p) (hf : FirstFree r.inodes idx)
    (hs : s.inodes = added r.inodes type p basename idx) (hi : r.isOpenFile i = true) :
    s.isOpenFile i = true := by
  rw [isOpenFile_iff] at hi ⊢
  have hii : i ≠ idx := by
    rintro rfl
    rw [hf.2.1] at hi
    exact absurd hi.2.1 (by simp)
  have hip : i ≠ p := by
    rintro rfl
    rw [hp.2.2] at hi
    exact absurd hi.2.2 (by simp)
  rw [hs, added_of_ne type hii hip]
  exact hi

lemma isOpenFile_mkdir {r : Ramfs} (h : Sound r.inodes) (path : CString) {i : ℕ}
    (hi : r.isOpenFile i = true) : (r.ramfsMkdir path).2.isOpenFile i = true := by
  rcases (mkdir_cases h path).2 with ⟨_, hs, _⟩ | ⟨_, _, _, _, hs⟩ | ⟨p, idx, he, _, hs⟩
  · rw [isOpenFile_iff, hs, ← isOpenFile_iff]
    exact hi
  · rw [isOpenFile_iff, hs, ← isOpenFile_iff]
    exact hi
  · exact isOpenFile_added he.dir he.free hs hi

lemma create_open {r : Ramfs} (h : Sound r.inodes) (path : CString) :
    (∀ i, r.isOpenFile i = true → (r.ramfsCreate path).2.isOpenFile i = true) ∧
      ∀ idx, (r.ramfsCreate path).1 = some idx →
        (r.inodes idx).used = false ∧ (r.ramfsCreate path).2.isOpenFile idx = true := by
  rcases (create_cases h path).2 with ⟨hres, hs, _⟩ | ⟨p, idx, he, hres, hs⟩
  · refine ⟨fun i hi => ?_, fun idx hidx => ?_⟩
    · rw [isOpenFile_iff, hs, ← isOpenFile_iff]
      exact hi
    · rw [hres] at hidx
      cases hidx
  · refine ⟨fun i hi => isOpenFile_added he.dir he.free hs hi, fun j hj => ?_⟩
    rw [hres] at hj
    cases hj
    refine ⟨he.free.2.1, ?_⟩
    rw [isOpenFile_iff, hs, added_self .file (he.free.ne he.dir)]
    exact ⟨he.free.1, rfl, rfl⟩

end Ramfs

namespace Vfs

def IsNode (v : Vfs) (root i : ℕ) : Prop := i = root ∨ ∃ p, i ∈ (v.nodes p).children

lemma Rooted.isNode_lt {v : Vfs} {root i : ℕ} (h : Rooted v root) (hi : IsNode v root i) :
    i < v.ramfs.heap.calls := by
  rcases hi with rfl | ⟨p, hp⟩
  · exact h.root_lt
  · exact h.child_lt p i hp

lemma isNode_of_walk {v : Vfs} {root i : ℕ} {ns : List CString}
    (hw : walk (links v) root ns = some i) : IsNode v root i :=
  walk_invariant (I := IsNode v root) (fun p _ _ _ hj => .inr ⟨p, (mem_links.mp hj).1⟩) (.inl rfl) hw

lemma NewNode.isNode {v w : Vfs} {root current i : ℕ} {x : VfsNode} (h : NewNode v w current x)
    (hr : Rooted v root) (hx : x.children = []) :
    IsNode w root i → IsNode v root i ∨ i = v.ramfs.heap.calls := by
  rintro (rfl | ⟨p, hp⟩)
  · exact .inl (.inl rfl)
  · by_cases hpc : p = v.ramfs.heap.calls
    · rw [hpc, h.self, hx] at hp
      cases hp
    · by_cases hcur : p = current
      · rw [hcur, h.parent, List.mem_append, List.mem_singleton] at hp
        rcases hp with hp | rfl
        · exact .inl (.inr ⟨_, hp⟩)
        · exact .inr rfl
      · rw [h.other p hpc hcur] at hp
        exact .inl (.inr ⟨p, hp⟩)

lemma NewNode.isNode_old {v w : Vfs} {root current i : ℕ} {x : VfsNode} (h : NewNode v w current x)
    (hr : Rooted v root) : IsNode v root i → IsNode w root i := by
  rintro (rfl | ⟨p, hp⟩)
  · exact .inl rfl
  · right
    by_cases hpc : p = current
    · exact ⟨p, by rw [hpc, h.parent, List.mem_append, ← hpc]; exact .inl hp⟩
    · refine ⟨p, ?_⟩
      rw [h.other p (fun he => ?_) hpc]
      · exact hp
      · rw [he, hr.leaf _ le_rfl] at hp
        cases hp

structure Attached (v : Vfs) (root : ℕ) : Prop where
  live : ∀ i, IsNode v root i → v.isLive i = true
  apart : ∀ i, IsNode v root i → ∀ j, (v.ramfs.inodes j).used = true →
    (v.ramfs.inodes j).data ≠ some i
  inode : ∀ i, IsNode v root i → (v.nodes i).type = .file → v.ramfs.isOpenFile (v.nodes i).fsFd = true
  distinct : ∀ i j, IsNode v root i → IsNode v root j → (v.nodes i).type = .file →
    (v.nodes j).type = .file → (v.nodes i).fsFd = (v.nodes j).fsFd → i = j
  descriptor : ∀ fd, v.isOpen fd = true →
    ∃ i, (v.files fd).node = some i ∧ IsNode v root i ∧ (v.nodes i).type = .file

section Attached

variable {v w : Vfs} {root : ℕ}

lemma Attached.ramfs (h : Attached v root) (hr : Rooted v root) {r : Ramfs}
    (hk : Ramfs.Keeps v.ramfs r)
    (hopen : ∀ i, v.ramfs.isOpenFile i = true → r.isOpenFile i = true) :
    Attached { v with ramfs := r } root where
  live i hi := by
    have hsame := hk.foreign i (hr.isNode_lt hi) fun j hj hd => h.apart i hi j hj hd
    have hlive := h.live i hi
    simp only [isLive, hsame] at hlive ⊢
    exact hlive
  apart i hi j hj hd := by
    rcases hk.data j i hj hd with ⟨hu, hp⟩ | hle
    · exact h.apart i hi j hu hp
    · exact absurd (hr.isNode_lt hi) (not_lt.mpr hle)
  inode i hi ht := hopen _ (h.inode i hi ht)
  distinct := h.distinct
  descriptor := h.descriptor

lemma NewNode.attached {current : ℕ} {x : VfsNode} (h : NewNode v w current x) (ha : Attached v root)
    (hr : Rooted v root) (hs : Ramfs.Storage v.ramfs) (hx : x.children = [])
    (hfile : x.type = .file → v.ramfs.isOpenFile x.fsFd = true ∧
      ∀ i, IsNode v root i → (v.nodes i).type = .file → (v.nodes i).fsFd ≠ x.fsFd) :
    Attached w root := by
  obtain ⟨b, hb⟩ := h.buffers
  have hold : ∀ i, IsNode v root i → i ≠ v.ramfs.heap.calls ∧ (w.nodes i).type = (v.nodes i).type ∧
      (w.nodes i).fsFd = (v.nodes i).fsFd := by
    intro i hi
    have hne := (hr.isNode_lt hi).ne
    obtain ⟨cs, hcs⟩ := h.keeps hne
    exact ⟨hne, by rw [hcs], by rw [hcs]⟩
  have hopen : ∀ i, w.ramfs.isOpenFile i = v.ramfs.isOpenFile i := fun i => by
    simp only [Ramfs.isOpenFile, h.inodes]
  refine ⟨fun i hi => ?_, fun i hi j hj => ?_, fun i hi ht => ?_, fun i j hi hj hti htj hfd => ?_,
    fun fd hfd => ?_⟩
  · rw [isLive, hb]
    rcases h.isNode hr hx hi with hi | rfl
    · rw [Function.update_of_ne (hold i hi).1]
      exact ha.live i hi
    · rw [Function.update_self]
      rfl
  · rw [h.inodes] at hj ⊢
    rcases h.isNode hr hx hi with hi | rfl
    · exact ha.apart i hi j hj
    · exact fun hd => absurd (hs.lt_calls hj hd) (lt_irrefl _)
  · rw [hopen]
    rcases h.isNode hr hx hi with hi | rfl
    · rw [(hold i hi).2.2]
      exact ha.inode i hi ((hold i hi).2.1 ▸ ht)
    · rw [h.self] at ht ⊢
      exact (hfile ht).1
  · rcases h.isNode hr hx hi with hi | rfl
    · rw [(hold i hi).2.1] at hti
      rw [(hold i hi).2.2] at hfd
      rcases h.isNode hr hx hj with hj | rfl
      · rw [(hold j hj).2.1] at htj
        rw [(hold j hj).2.2] at hfd
        exact ha.distinct i j hi hj hti htj hfd
      · rw [h.self] at htj hfd
        exact absurd hfd ((hfile htj).2 i hi hti)
    · rcases h.isNode hr hx hj with hj | rfl
      · rw [(hold j hj).2.1] at htj
        rw [(hold j hj).2.2, h.self] at hfd
        rw [h.self] at hti
        exact absurd hfd.symm ((hfile hti).2 j hj htj)
      · rfl
  · rw [isOpen, h.files, ← isOpen] at hfd
    obtain ⟨i, hnode, hi, ht⟩ := ha.descriptor fd hfd
    exact ⟨i, by rw [h.files, hnode], h.isNode_old hr hi, (hold i hi).2.1.trans ht⟩

end Attached

end Vfs

/-- What open files are for: one byte string for each file, and a file and an offset for each open
descriptor. -/
structure Files where
  lookup : CString → Option ℕ
  contents : ℕ → List UInt8
  descriptors : ℕ → Option (ℕ × ℕ)

namespace Files

open Vfs

def Extends (lookup lookup' : CString → Option ℕ) (f : ℕ) : Prop :=
  (∀ path g, lookup path = some g → lookup' path = some g) ∧
    ∀ path g, lookup' path = some g → lookup path = some g ∨ g = f

def Unknown (a : Files) (f : ℕ) : Prop :=
  (∀ path, a.lookup path ≠ some f) ∧ ∀ fd o, a.descriptors fd ≠ some (f, o)

def Free (a : Files) (fd : ℕ) : Prop := fd < vfsMaxOpen ∧ a.descriptors fd = none

def set (a : Files) (fd : ℕ) (d : Option (ℕ × ℕ)) : Files :=
  { a with descriptors := Function.update a.descriptors fd d }

/-- What a call on files can do; `memory` says whether the next `malloc` has a buffer. -/
inductive Step (memory : Prop) : Files → Op × Result → Files → Prop
  | created {a : Files} {path : CString} {f fd : ℕ} {lookup : CString → Option ℕ} (hnew : a.Unknown f)
      (hlookup : Extends a.lookup lookup f) (hfd : a.Free fd) :
      Step memory a (.create path, .fd (some fd))
        (set ⟨lookup, Function.update a.contents f [], a.descriptors⟩ fd (some (f, 0)))
  | unopened {a : Files} {path : CString} {f : ℕ} {lookup : CString → Option ℕ} (hnew : a.Unknown f)
      (hlookup : Extends a.lookup lookup f) :
      Step memory a (.create path, .fd none) ⟨lookup, Function.update a.contents f [], a.descriptors⟩
  | uncreated {a : Files} {path : CString} : Step memory a (.create path, .fd none) a
  | opened {a : Files} {path : CString} {f fd : ℕ} (hf : a.lookup path = some f) (hfd : a.Free fd) :
      Step memory a (.open path, .fd (some fd)) (a.set fd (some (f, 0)))
  | notOpened {a : Files} {path : CString} (h : a.lookup path = none ∨ ∀ fd, ¬ a.Free fd) :
      Step memory a (.open path, .fd none) a
  | read {a : Files} {fd n f o : ℕ} (h : a.descriptors fd = some (f, o)) :
      Step memory a (.read fd n, .bytes (((a.contents f).drop o).take n))
        (a.set fd (some (f, o + (((a.contents f).drop o).take n).length)))
  | written {a : Files} {fd f o : ℕ} {buf : List UInt8} (h : a.descriptors fd = some (f, o)) :
      Step memory a (.write fd buf, .count buf.length)
        (set { a with contents := Function.update a.contents f (Ramfs.overwrite (a.contents f) o buf) } fd
          (some (f, o + buf.length)))
  | notWritten {a : Files} {fd f o : ℕ} {buf : List UInt8} (h : a.descriptors fd = some (f, o))
      (hgrow : (a.contents f).length < o + buf.length) (hno : ¬ memory) :
      Step memory a (.write fd buf, .count 0) a
  | sought {a : Files} {fd offset f o : ℕ} (h : a.descriptors fd = some (f, o)) :
      Step memory a (.lseek fd offset, .status true) (a.set fd (some (f, offset)))
  | closed {a : Files} {fd f o : ℕ} (h : a.descriptors fd = some (f, o)) :
      Step memory a (.close fd, .status true) (a.set fd none)
  | notRead {a : Files} {fd n : ℕ} (h : a.descriptors fd = none) : Step memory a (.read fd n, .bytes []) a
  | noFile {a : Files} {fd : ℕ} {buf : List UInt8} (h : a.descriptors fd = none) :
      Step memory a (.write fd buf, .count 0) a
  | notSought {a : Files} {fd offset : ℕ} (h : a.descriptors fd = none) :
      Step memory a (.lseek fd offset, .status false) a
  | notClosed {a : Files} {fd : ℕ} (h : a.descriptors fd = none) :
      Step memory a (.close fd, .status false) a
  | mkdir {a : Files} {path : CString} {ok : Bool} : Step memory a (.mkdir path, .status ok) a
  | rmdir {a : Files} {path : CString} {ok : Bool} : Step memory a (.rmdir path, .status ok) a
  | stat {a : Files} {path : CString} {st : Option (InodeType × ℕ)} : Step memory a (.stat path, .stat st) a

def start : Files := ⟨fun _ => none, fun _ => [], fun _ => none⟩

end Files

namespace Vfs

def fileAt (v : Vfs) (path : CString) : Option ℕ :=
  (v.vfsResolve path).1.bind fun i => if (v.nodes i).type = .file then some i else none

def descriptor (v : Vfs) (fd : ℕ) : Option (ℕ × ℕ) :=
  if v.isOpen fd = true then (v.files fd).node.map fun i => (i, (v.files fd).offset) else none

structure Refines (v : Vfs) (root : ℕ) (a : Files) : Prop where
  lookup : ∀ path, a.lookup path = fileAt v path
  contents : ∀ i, IsNode v root i → (v.nodes i).type = .file →
    a.contents i = v.ramfs.contents (v.nodes i).fsFd
  descriptors : ∀ fd, a.descriptors fd = descriptor v fd

def fileWalk (v : Vfs) (root : ℕ) (ns : List CString) : Option ℕ :=
  (walk (links v) root ns).bind fun i => if (v.nodes i).type = .file then some i else none

lemma Ready.fileAt_eq {v : Vfs} {root fs : ℕ} (h : Ready v root fs) (path : CString) :
    fileAt v path = if path.head? = some slash then
      fileWalk v root (Ramfs.components (relOf path)) else none := by
  by_cases hp : path.head? = some slash
  · rw [if_pos hp, fileAt, h.mounted.resolve_eq hp]
    rfl
  · rw [if_neg hp, fileAt, resolve_of_not_absolute hp]
    rfl

lemma fileWalk_eq_some {v : Vfs} {root i : ℕ} {ns : List CString} :
    fileWalk v root ns = some i ↔ walk (links v) root ns = some i ∧ (v.nodes i).type = .file := by
  rw [fileWalk, Option.bind_eq_some_iff]
  constructor
  · rintro ⟨j, hj, hi⟩
    split at hi
    · next ht =>
      cases hi
      exact ⟨hj, ht⟩
    · cases hi
  · rintro ⟨hw, ht⟩
    exact ⟨i, hw, by rw [if_pos ht]⟩

lemma fileWalk_congr {v w : Vfs} (h : w.nodes = v.nodes) (root : ℕ) (ns : List CString) :
    fileWalk w root ns = fileWalk v root ns := by
  simp only [fileWalk, links_congr h, h]

lemma NewNode.fileWalk_or {v w : Vfs} {root current : ℕ} {x : VfsNode} (h : NewNode v w current x)
    (hr : Rooted v root) (hc : current < v.ramfs.heap.calls) (hx : x.children = [])
    (ns : List CString) : fileWalk w root ns = fileWalk v root ns ∨
      x.type = .file ∧ fileWalk v root ns = none ∧ fileWalk w root ns = some v.ramfs.heap.calls := by
  rcases h.walk_or hr hc hx ns with heq | ⟨hnone, hsome⟩
  · left
    rw [fileWalk, fileWalk, heq]
    cases hw : walk (links v) root ns with
    | none => rfl
    | some i =>
      obtain ⟨cs, hcs⟩ := h.keeps (hr.walk_lt hw).ne
      simp only [Option.bind_some, hcs]
  · rw [fileWalk, fileWalk, hnone, hsome, Option.bind_some, h.self]
    cases x.type with
    | file => exact .inr ⟨rfl, rfl, rfl⟩
    | dir => exact .inl rfl

lemma descriptor_setFile (v : Vfs) (fd : ℕ) (f : VfsFile) (i : ℕ) :
    descriptor (v.setFile fd f) i = if i = fd then
      (if fd < vfsMaxOpen ∧ f.used = true then f.node.map fun n => (n, f.offset) else none)
      else descriptor v i := by
  by_cases hi : i = fd
  · subst hi
    simp [descriptor, isOpen, setFile]
  · simp [descriptor, isOpen, setFile, hi]

lemma Attached.setFile {v : Vfs} {root : ℕ} (h : Attached v root) (fd : ℕ) {f : VfsFile}
    (hf : f.used = true → ∃ i, f.node = some i ∧ IsNode v root i ∧ (v.nodes i).type = .file) :
    Attached (v.setFile fd f) root where
  live := h.live
  apart := h.apart
  inode := h.inode
  distinct := h.distinct
  descriptor i hi := by
    by_cases hif : i = fd
    · subst hif
      have hu : f.used = true := by
        have hand := hi
        simp only [isOpen, Vfs.setFile, Function.update_self, Bool.and_eq_true] at hand
        exact hand.2
      rw [show (v.setFile i f).files i = f by simp [Vfs.setFile]]
      exact hf hu
    · have hsame : (v.setFile fd f).files i = v.files i := by simp [Vfs.setFile, hif]
      rw [isOpen, hsame, ← isOpen] at hi
      rw [hsame]
      exact h.descriptor i hi

lemma Refines.congr {v w : Vfs} {root fs : ℕ} {a : Files} (h : Refines v root a)
    (hv : Ready v root fs) (hw : Ready w root fs) (hn : w.nodes = v.nodes)
    (hc : ∀ i, IsNode v root i → (v.nodes i).type = .file →
      w.ramfs.contents (v.nodes i).fsFd = v.ramfs.contents (v.nodes i).fsFd)
    (hf : w.files = v.files) : Refines w root a where
  lookup path := by
    rw [h.lookup, hv.fileAt_eq, hw.fileAt_eq, fileWalk_congr hn]
  contents i hi ht := by
    rw [hn] at ht ⊢
    have hi' : IsNode v root i := by
      rw [IsNode, hn] at hi
      exact hi
    rw [h.contents i hi' ht, hc i hi' ht]
  descriptors fd := by
    rw [h.descriptors fd]
    unfold descriptor isOpen
    rw [hf]

lemma Refines.setFile {v : Vfs} {root fs : ℕ} {a : Files} (h : Refines v root a) (hv : Ready v root fs)
    {fd : ℕ} (hfd : fd < vfsMaxOpen) (f : VfsFile) :
    Refines (v.setFile fd f) root
      (a.set fd (if f.used = true then f.node.map fun n => (n, f.offset) else none)) where
  lookup path := by
    have hw : Ready (v.setFile fd f) root fs := hv.files rfl rfl rfl
    rw [hw.fileAt_eq, fileWalk_congr (v := v) (w := v.setFile fd f) rfl, ← hv.fileAt_eq]
    exact h.lookup path
  contents := h.contents
  descriptors i := by
    simp only [descriptor_setFile, Files.set, Function.update_apply, h.descriptors, hfd, true_and]

structure Simulates (v : Vfs) (root fs : ℕ) (a : Files) : Prop where
  ready : Ready v root fs
  attached : Attached v root
  refines : Refines v root a

section Simulates

variable {v w : Vfs} {root fs : ℕ} {a : Files}

lemma Simulates.ramfs (h : Simulates v root fs a) {r : Ramfs} (hs : Ramfs.Sound r.inodes)
    (hst : Ramfs.Stays v.ramfs r) (hopen : ∀ i, v.ramfs.isOpenFile i = true → r.isOpenFile i = true) :
    Simulates { v with ramfs := r } root fs a := by
  have hready := h.ready.ramfs hs hst
  refine ⟨hready, h.attached.ramfs h.ready.rooted hst.keeps hopen,
    h.refines.congr h.ready hready rfl (fun i hi ht => ?_) rfl⟩
  have hfile := h.attached.inode i hi ht
  exact hst.contents _ (Ramfs.isOpenFile_used hfile) (Ramfs.isOpenFile_used (hopen _ hfile))

lemma Simulates.cursor (h : Simulates v root fs a) (next : Option Cursor) :
    Simulates (v.setCursor next) root fs a :=
  h.ramfs h.ready.sound (h.ready.storage.same rfl rfl) fun _ hi => hi

lemma Simulates.failedMalloc (h : Simulates v root fs a) : Simulates v.failedMalloc root fs a :=
  h.ramfs h.ready.sound (stays_failedMalloc h.ready.storage) fun _ hi => hi

lemma Simulates.mkdir (h : Simulates v root fs a) (path : CString) :
    Simulates { v with ramfs := (v.ramfs.ramfsMkdir path).2 } root fs a :=
  h.ramfs (h.ready.sound.step (o := .mkdir path) rfl) (h.ready.storage.mkdir h.ready.sound path)
    fun _ => Ramfs.isOpenFile_mkdir h.ready.sound path

lemma Simulates.create (h : Simulates v root fs a) (path : CString) :
    Simulates { v with ramfs := (v.ramfs.ramfsCreate path).2 } root fs a :=
  h.ramfs (h.ready.sound.step (o := .create path) rfl) (h.ready.storage.create h.ready.sound path)
    (Ramfs.create_open h.ready.sound path).1

lemma NewNode.contents {current : ℕ} {x : VfsNode} (h : NewNode v w current x) (hr : Rooted v root)
    (hs : Ramfs.Storage v.ramfs) (ha : Attached v root) {i : ℕ} (hi : IsNode v root i)
    (ht : (w.nodes i).type = .file) :
    w.ramfs.contents (w.nodes i).fsFd = v.ramfs.contents (v.nodes i).fsFd ∧
      (v.nodes i).type = .file := by
  obtain ⟨cs, hcs⟩ := h.keeps (hr.isNode_lt hi).ne
  rw [hcs] at ht ⊢
  have hu := Ramfs.isOpenFile_used (ha.inode i hi ht)
  exact ⟨(h.stays hs).contents _ hu (by rw [h.inodes]; exact hu), ht⟩

lemma NewNode.descriptor_eq {current : ℕ} {x : VfsNode} (h : NewNode v w current x) (fd : ℕ) :
    descriptor w fd = descriptor v fd := by
  unfold descriptor isOpen
  rw [h.files]

lemma Simulates.newDir (h : Simulates v root fs a) {current : ℕ} {x : VfsNode}
    (hnew : NewNode v w current x) (hc : current < v.ramfs.heap.calls) (hx : x.children = [])
    (hdir : x.type = .dir) : Simulates w root fs a := by
  have hready := hnew.ready h.ready hc hx
  refine ⟨hready, hnew.attached h.attached h.ready.rooted h.ready.storage hx
    (fun hf => by rw [hdir] at hf; cases hf), fun path => ?_, fun i hi ht => ?_, fun fd => ?_⟩
  · rw [h.refines.lookup, h.ready.fileAt_eq, hready.fileAt_eq]
    split
    · rcases hnew.fileWalk_or h.ready.rooted hc hx (Ramfs.components (relOf path)) with heq | ⟨hf, _⟩
      · exact heq.symm
      · rw [hdir] at hf
        cases hf
    · rfl
  · rcases hnew.isNode h.ready.rooted hx hi with hi | rfl
    · obtain ⟨hsame, ht'⟩ := hnew.contents h.ready.rooted h.ready.storage h.attached hi ht
      rw [hsame, h.refines.contents i hi ht']
    · rw [hnew.self, hdir] at ht
      cases ht
  · rw [h.refines.descriptors, hnew.descriptor_eq]

lemma Simulates.newFile (h : Simulates v root fs a) {current : ℕ} {x : VfsNode}
    (hnew : NewNode v w current x) (hc : current < v.ramfs.heap.calls) (hx : x.children = [])
    (hinode : v.ramfs.isOpenFile x.fsFd = true)
    (hunused : ∀ i, IsNode v root i → (v.nodes i).type = .file → (v.nodes i).fsFd ≠ x.fsFd)
    (hempty : v.ramfs.contents x.fsFd = []) :
    a.Unknown v.ramfs.heap.calls ∧ Files.Extends a.lookup (fileAt w) v.ramfs.heap.calls ∧
      Simulates w root fs
        ⟨fileAt w, Function.update a.contents v.ramfs.heap.calls [], a.descriptors⟩ := by
  have hready := hnew.ready h.ready hc hx
  have hlookup : ∀ path, fileAt w path = fileAt v path ∨
      fileAt v path = none ∧ fileAt w path = some v.ramfs.heap.calls := by
    intro path
    rw [h.ready.fileAt_eq, hready.fileAt_eq]
    split
    · rcases hnew.fileWalk_or h.ready.rooted hc hx (Ramfs.components (relOf path)) with heq | ⟨_, hor⟩
      · exact .inl heq
      · exact .inr hor
    · exact .inl rfl
  refine ⟨⟨fun path hp => ?_, fun fd o hd => ?_⟩, ⟨fun path g hg => ?_, fun path g hg => ?_⟩, hready,
    hnew.attached h.attached h.ready.rooted h.ready.storage hx (fun _ => ⟨hinode, hunused⟩),
    fun _ => rfl, fun i hi ht => ?_, fun fd => ?_⟩
  · rw [h.refines.lookup, h.ready.fileAt_eq] at hp
    split at hp
    · exact lt_irrefl _ (h.ready.rooted.walk_lt (fileWalk_eq_some.mp hp).1)
    · cases hp
  · rw [h.refines.descriptors, descriptor] at hd
    split at hd
    · next hopen =>
      obtain ⟨i, hnode, hi, _⟩ := h.attached.descriptor fd hopen
      rw [hnode] at hd
      cases hd
      exact lt_irrefl _ (h.ready.rooted.isNode_lt hi)
    · cases hd
  · rw [h.refines.lookup] at hg
    rcases hlookup path with heq | ⟨hnone, _⟩
    · rw [heq, hg]
    · rw [hg] at hnone
      cases hnone
  · rcases hlookup path with heq | ⟨_, hsome⟩
    · rw [h.refines.lookup, ← heq]
      exact .inl hg
    · rw [hsome] at hg
      exact .inr (Option.some.inj hg).symm
  · rcases hnew.isNode h.ready.rooted hx hi with hi | rfl
    · obtain ⟨hsame, ht'⟩ := hnew.contents h.ready.rooted h.ready.storage h.attached hi ht
      simp only [Function.update_of_ne (h.ready.rooted.isNode_lt hi).ne]
      rw [hsame, h.refines.contents i hi ht']
    · have hu := Ramfs.isOpenFile_used hinode
      simp only [Function.update_self]
      rw [hnew.self, (hnew.stays h.ready.storage).contents _ hu (by rw [hnew.inodes]; exact hu), hempty]
  · rw [hnew.descriptor_eq]
    exact h.refines.descriptors fd

end Simulates

end Vfs

end Veni.Filesystem
